import ScopedAccess.Gate

/-!
# Sessions

A session uses one enforcer step by step: it changes rules, checks requests, lets store calls
fail, works on the store behind the enforcer's back, and looks at views and at the cache. Every
step has an answer, and a step that ends in an error leaves the session going.
-/

namespace ScopedAccess

namespace Session

inductive Build where
  | plain
  | cached
  /-- The settings and the cache, which the session can look at. -/
  | observed
  deriving DecidableEq, Repr

inductive Step where
  /-- What was asked for could not be read. -/
  | refused (reason : Error)
  | installDefaults (team entity environment : String)
  | install (groups : List RuleGroup)
  | addGroupings (rules : List GroupingRule)
  | removeGroupings (rules : List GroupingRule)
  | assign (email : Email) (role : RoleSubject)
  | reload
  | enforce (token resource action object : String)
  | resolve (token : String)
  | check (email resource action object : String)
  | checkBatch (email resource action : String) (objects : List String)
  | authorize (email : Email) (resource : Resource) (action : Action) (object : ObjectPath)
  | pass (request : Gate.Request)
  | assignToken (token emailText : String)
  | revokeToken (token : String)
  /-- The steps on the store are not calls, so they cannot fail. -/
  | storeAddPolicy (rule : PolicyRule)
  | storeAddGrouping (rule : GroupingRule)
  | storeRemoveGrouping (rule : GroupingRule)
  | storeSave
  | storeLoad
  /-- Look at the loaded rules, and keep this view under a name if one is given. -/
  | view (name : Option String)
  /-- Ask the view of a name, or without a name what is loaded now. -/
  | userRoles (name : Option String) (email : String)
  | parentRoles (name : Option String) (role : String)
  | rulesOf (name : Option String) (role : String)
  | arm (failure : ArmedFailure)
  | interfere (change : Interference)
  | cacheSize
  | cacheGet (key : RuleCache.Key)
  | cacheSet (key : RuleCache.Key) (rules : List PolicyRule)
  | cacheClear

inductive Answer where
  | failed (error : Error)
  | nothing
  | flag (value : Bool)
  | count (value : Nat)
  | email (value : Email)
  | decision (value : Decision)
  | decisions (values : List (ObjectPath × Bool))
  | groups (values : List RuleGroup)
  | roles (values : List RoleSubject)
  | rules (values : List PolicyRule)
  | response (value : Gate.Response)
  | unknownView
  deriving DecidableEq

namespace Answer

def ofExcept {α : Type} (answer : α → Answer) : Except Error α → Answer
  | .ok value => answer value
  | .error error => failed error

def ofOption {α : Type} (answer : α → Answer) : Option α → Answer
  | some value => answer value
  | none => nothing

end Answer

end Session

structure Session where
  enforcer : Enforcer
  build : Session.Build
  /-- The views that were kept, the latest first; there may have been nothing to view. -/
  views : List (String × Option Snapshot) := []

namespace Session

def ofConfig (config : Config) (build : Build) (identity : Identity) : Session :=
  let enforcer := Enforcer.ofConfig config identity
  { enforcer := if build = .plain then enforcer.uncached else enforcer, build }

def withEnforcer (session : Session) (enforcer : Enforcer) : Session :=
  { session with enforcer }

/-- The session after its store was changed without a call. -/
def withStore (session : Session) (store : Store) : Session :=
  session.withEnforcer
    { session.enforcer with store := { session.enforcer.store with store } }

def withTokens (session : Session) (change : TokenTable → TokenTable) : Session :=
  session.withEnforcer { session.enforcer with identity := session.enforcer.identity.map change }

/-- The cache, if the session may look at it. -/
def visibleCache (session : Session) : Option RuleCache :=
  if session.build = .observed then session.enforcer.cache else none

def useCache {α : Type} (session : Session) (use : RuleCache → α × RuleCache) :
    Option α × Session :=
  match session.visibleCache with
  | none => (none, session)
  | some cache =>
      let used := use cache
      (some used.1, session.withEnforcer { session.enforcer with cache := some used.2 })

/-- Ask a kept view, or what is loaded now, about a text that is read only if there are rules. -/
def ask {α : Type} (session : Session) (name : Option String) (subject : Except Error α)
    (answer : Snapshot → α → Answer) : Answer :=
  let view := match name with
    | some name => session.views.lookup name
    | none => some session.enforcer.store.store.loaded
  match view with
  | none => .unknownView
  | some none => .nothing
  | some (some snapshot) => .ofExcept (answer snapshot) subject

def step (session : Session) (time : Timing) : Step → Answer × Session
  | .refused reason => (.failed reason, session)
  | .installDefaults team entity environment =>
      let done := session.enforcer.installDefaults team entity environment
      (.ofExcept .groups done.1, session.withEnforcer done.2)
  | .install groups =>
      let done := session.enforcer.install groups
      (.ofExcept .count done.1, session.withEnforcer done.2)
  | .addGroupings rules =>
      let done := session.enforcer.addGroupings rules
      (.ofExcept .count done.1, session.withEnforcer done.2)
  | .removeGroupings rules =>
      let done := session.enforcer.removeGroupings rules
      (.ofExcept .count done.1, session.withEnforcer done.2)
  | .assign email role =>
      let done := session.enforcer.assign email role
      (.ofExcept .flag done.1, session.withEnforcer done.2)
  | .reload =>
      let done := session.enforcer.reload
      (.ofExcept (fun _ => .nothing) done.1, session.withEnforcer done.2)
  | .enforce token resource action object =>
      let done := session.enforcer.enforce time token resource action object
      (.flag done.1, session.withEnforcer done.2)
  | .resolve token => (.ofOption .email (session.enforcer.resolve token), session)
  | .check email resource action object =>
      let done := session.enforcer.check time email resource action object
      (.flag done.1, session.withEnforcer done.2)
  | .checkBatch email resource action objects =>
      let done := session.enforcer.checkBatch time email resource action objects
      (.decisions done.1, session.withEnforcer done.2)
  | .authorize email resource action object =>
      let done := session.enforcer.authorize time email resource action object
      (.ofExcept .decision done.1, session.withEnforcer done.2)
  | .pass request =>
      let done := Gate.handle session.enforcer time request
      (.response done.1, session.withEnforcer done.2)
  | .assignToken token emailText =>
      (.nothing, session.withTokens fun table => table.assign token emailText)
  | .revokeToken token => (.nothing, session.withTokens fun table => table.revoke token)
  | .storeAddPolicy rule =>
      let done := session.enforcer.store.store.addPolicy rule
      (.flag done.1, session.withStore done.2)
  | .storeAddGrouping rule =>
      let done := session.enforcer.store.store.addGrouping rule
      (.flag done.1, session.withStore done.2)
  | .storeRemoveGrouping rule =>
      let done := session.enforcer.store.store.removeGrouping rule
      (.flag done.1, session.withStore done.2)
  | .storeSave => (.nothing, session.withStore session.enforcer.store.store.save)
  | .storeLoad => (.nothing, session.withStore session.enforcer.store.store.load)
  | .view name =>
      let loaded := session.enforcer.store.store.loaded
      let kept := match name with
        | some name => { session with views := (name, loaded) :: session.views }
        | none => session
      (.ofOption (fun snapshot => .count snapshot.revision) loaded, kept)
  | .userRoles name email =>
      (session.ask name ((Email.parse email).mapError .invalidId) fun snapshot email =>
        .roles (snapshot.userRoles email), session)
  | .parentRoles name role =>
      (session.ask name ((RoleSubject.parse role).mapError .invalidRoleSubject)
        fun snapshot role => .roles (snapshot.parentRoles role), session)
  | .rulesOf name role =>
      (session.ask name ((RoleSubject.parse role).mapError .invalidRoleSubject)
        fun snapshot role => .rules (snapshot.rulesOf role), session)
  | .arm failure =>
      let store := session.enforcer.store
      (.nothing, session.withEnforcer
        { session.enforcer with store := { store with failures := store.failures ++ [failure] } })
  | .interfere change =>
      let store := session.enforcer.store
      (.nothing, session.withEnforcer
        { session.enforcer with store := { store with interference := some change } })
  | .cacheSize => (.ofOption (fun cache => .count cache.size) session.visibleCache, session)
  | .cacheGet key =>
      let done := session.useCache fun cache => cache.get time.asked key
      (.ofOption (fun rules => .rules (sorted rules)) done.1.join, done.2)
  | .cacheSet key rules =>
      (.nothing, (session.useCache fun cache => ((), cache.set time.kept key rules)).2)
  | .cacheClear => (.nothing, (session.useCache fun cache => ((), cache.clear)).2)

def run (session : Session) : List (Timing × Step) → List Answer × Session
  | [] => ([], session)
  | (time, step) :: rest =>
      let done := session.step time step
      let after := run done.2 rest
      (done.1 :: after.1, after.2)

/-- Steps that follow each other on the clock, one nanosecond apart. -/
def clocked (steps : List Step) : List (Timing × Step) :=
  steps.zipIdx.map fun numbered => (⟨numbered.2, numbered.2⟩, numbered.1)

end Session

end ScopedAccess
