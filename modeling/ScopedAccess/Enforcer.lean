import ScopedAccess.Cache
import ScopedAccess.DefaultRules
import ScopedAccess.Hierarchy
import ScopedAccess.Order
import ScopedAccess.Store

/-!
# Enforcers

An enforcer answers checks from the rules of all roles that an email is in, and denies whenever
something fails. It changes rules by staging, saving and loading them; what fails before it is saved
is dropped by loading again.
-/

namespace ScopedAccess

/-! ## Settings -/

structure Settings where
  followRoles : Bool := true
  /-- The most memberships of roles in roles that one chain may have. -/
  maxDepth : Nat := 10
  deriving DecidableEq, Repr

structure Config extends Settings where
  /-- The most entries of the rule cache; none is kept if it is zero. -/
  cacheCapacity : Nat := 0
  /-- For how many seconds a cached entry is good; for ever if there is no number. -/
  cacheTtlSeconds : Option Nat := none
  deriving DecidableEq, Repr

instance : Inhabited Config where
  default := {}

def Config.hasCache (config : Config) : Bool :=
  config.cacheCapacity ≠ 0

/-! ## Tokens -/

structure TokenTable where
  entries : List (String × String) := []
  deriving DecidableEq

namespace TokenTable

def empty : TokenTable :=
  {}

def find? (table : TokenTable) (token : String) : Option String :=
  table.entries.lookup token

def revoke (table : TokenTable) (token : String) : TokenTable :=
  ⟨table.entries.filter fun entry => entry.1 ≠ token⟩

/-- Let a token stand for an email text, and no longer for the one it stood for. -/
def assign (table : TokenTable) (token emailText : String) : TokenTable :=
  ⟨(token, emailText) :: (table.revoke token).entries⟩

end TokenTable

/-- How tokens are resolved; `none` is the resolver that knows no token. -/
abbrev Identity : Type :=
  Option TokenTable

def Identity.resolve (identity : Identity) (token : String) : Option Email := do
  let table ← identity
  let emailText ← table.find? token
  (Email.parse emailText).toOption

/-! ## Enforcers -/

structure Enforcer where
  settings : Settings := {}
  store : FallibleStore := {}
  cache : Option RuleCache := none
  identity : Identity := none

def Config.cache (config : Config) : Option RuleCache :=
  if config.hasCache then
    some (.empty config.cacheCapacity
      (config.cacheTtlSeconds.map fun seconds => seconds * Instant.second))
  else
    none

namespace Enforcer

def ofConfig (config : Config) (identity : Identity) : Enforcer :=
  { settings := config.toSettings, cache := config.cache, identity }

def uncached (enforcer : Enforcer) : Enforcer :=
  { enforcer with cache := none }

def clearCache (enforcer : Enforcer) : Enforcer :=
  { enforcer with cache := enforcer.cache.map RuleCache.clear }

def resolve (enforcer : Enforcer) (token : String) : Option Email :=
  enforcer.identity.resolve token

end Enforcer

/-! ## Checks -/

namespace Snapshot

theorem mem_parents {snapshot : Snapshot} {role parent : RoleSubject}
    (h : parent ∈ snapshot.parentRoles role) :
    parent ∈ snapshot.rules.groupings.toList.map Prod.snd :=
  List.mem_map.mpr ⟨(.role role, parent), Index.mem_toList.mpr h, rfl⟩

def hierarchy (snapshot : Snapshot) : Hierarchy RoleSubject where
  parents := snapshot.parentRoles
  roles := snapshot.rules.groupings.toList.map Prod.snd
  parents_subset _ _ := mem_parents

/-- The roles that count for an email, in the order in which they are met. -/
def effectiveRoles (snapshot : Snapshot) (settings : Settings) (email : Email) :
    Except Error (List RoleSubject) :=
  if settings.followRoles then
    match snapshot.hierarchy.expand settings.maxDepth (snapshot.userRoles email) with
    | .ok roles => .ok roles
    | .error (.cycle role) => .error (.roleCycle role)
    | .error (.tooDeep role) => .error (.roleDepth role settings.maxDepth)
  else
    .ok (snapshot.userRoles email)

/-- The rules that count for an email. No rule comes twice, since each belongs to one role. -/
def effectiveRules (snapshot : Snapshot) (settings : Settings) (email : Email) :
    Except Error (List PolicyRule) :=
  (snapshot.effectiveRoles settings email).map fun roles => roles.flatMap snapshot.rulesOf

end Snapshot

inductive Decision where
  | allow
  | deny
  deriving DecidableEq, Repr

namespace Decision

def isAllowed : Decision → Bool
  | allow => true
  | deny => false

def text : Decision → String
  | allow => "allow"
  | deny => "deny"

def ofRules (rules : List PolicyRule) (resource : Resource) (action : Action)
    (object : ObjectPath) : Decision :=
  if rules.any fun rule => rule.grants resource action object then allow else deny

end Decision

/-- The clock as one check reads it: when it asks the cache, and when it keeps what it found. -/
structure Timing where
  asked : Instant
  kept : Instant
  deriving DecidableEq, Repr

namespace Enforcer

def takeView (enforcer : Enforcer) : Except Error Snapshot × Enforcer :=
  match enforcer.store.view with
  | (.error message, store) => (.error (.store message), { enforcer with store })
  | (.ok none, store) => (.error .notLoaded, { enforcer with store })
  | (.ok (some snapshot), store) => (.ok snapshot, { enforcer with store })

def askCache (enforcer : Enforcer) (now : Instant) (key : RuleCache.Key) :
    Option (List PolicyRule) × Enforcer :=
  match enforcer.cache with
  | none => (none, enforcer)
  | some cache =>
      let asked := cache.get now key
      (asked.1, { enforcer with cache := some asked.2 })

def keep (enforcer : Enforcer) (now : Instant) (key : RuleCache.Key)
    (rules : List PolicyRule) : Enforcer :=
  { enforcer with cache := enforcer.cache.map fun cache => cache.set now key rules }

/--
The rules that count for an email in the rules loaded now. The cache is asked after the view has
been taken and only for that view's revision; errors are never kept.
-/
def effectiveRules (enforcer : Enforcer) (time : Timing) (email : Email) :
    Except Error (List PolicyRule) × Enforcer :=
  match enforcer.takeView with
  | (.error error, enforcer) => (.error error, enforcer)
  | (.ok snapshot, enforcer) =>
      -- what is loaded may be of another revision by now
      let key : RuleCache.Key := ⟨snapshot.revision, email⟩
      match enforcer.askCache time.asked key with
      | (some rules, enforcer) => (.ok rules, enforcer)
      | (none, enforcer) =>
          match snapshot.effectiveRules enforcer.settings email with
          | .error error => (.error error, enforcer)
          | .ok rules => (.ok rules, enforcer.keep time.kept key rules)

def authorize (enforcer : Enforcer) (time : Timing) (email : Email) (resource : Resource)
    (action : Action) (object : ObjectPath) : Except Error Decision × Enforcer :=
  let found := enforcer.effectiveRules time email
  (found.1.map fun rules => .ofRules rules resource action object, found.2)

/-- The parts of a request that can be refused, read in this order. -/
def parseRequest (email resource action : String) : Except Error (Email × Resource × Action) := do
  let email ← (Email.parse email).mapError .invalidId
  let resource ← (Resource.parse resource).mapError .invalidRule
  let action ← (Action.parse action).mapError .invalidRule
  return (email, resource, action)

def check (enforcer : Enforcer) (time : Timing) (email resource action object : String) :
    Bool × Enforcer :=
  match parseRequest email resource action with
  | .error _ => (false, enforcer)
  | .ok (email, resource, action) =>
      match enforcer.authorize time email resource action (.parse object) with
      | (.ok decision, enforcer) => (decision.isAllowed, enforcer)
      | (.error _, enforcer) => (false, enforcer)

def enforce (enforcer : Enforcer) (time : Timing) (token resource action object : String) :
    Bool × Enforcer :=
  match enforcer.resolve token with
  | none => (false, enforcer)
  | some email => enforcer.check time email.text resource action object

def batchRules (enforcer : Enforcer) (time : Timing) (email resource action : String) :
    Option (List PolicyRule × Resource × Action) × Enforcer :=
  match parseRequest email resource action with
  | .error _ => (none, enforcer)
  | .ok (email, resource, action) =>
      match enforcer.effectiveRules time email with
      | (.ok rules, enforcer) => (some (rules, resource, action), enforcer)
      | (.error _, enforcer) => (none, enforcer)

/--
Answer one request for many objects, with the rules found once: every object, in order and once,
with whether it is allowed. If anything fails, no object is.
-/
def checkBatch (enforcer : Enforcer) (time : Timing) (email resource action : String)
    (objects : List String) : List (ObjectPath × Bool) × Enforcer :=
  let found := enforcer.batchRules time email resource action
  let allowed (object : ObjectPath) : Bool :=
    match found.1 with
    | none => false
    | some (rules, resource, action) =>
        (Decision.ofRules rules resource action object).isAllowed
  ((sortedDistinct (objects.map ObjectPath.parse)).map fun object => (object, allowed object),
    found.2)

end Enforcer

/-! ## Writes -/

namespace Enforcer

def stageAll {α : Type} (stage : α → FallibleStore → Except String Bool × FallibleStore) :
    List α → FallibleStore → Except String Nat × FallibleStore
  | [], store => (.ok 0, store)
  | item :: rest, store =>
      match stage item store with
      | (.error message, store) => (.error message, store)
      | (.ok changed, store) =>
          match stageAll stage rest store with
          | (.error message, store) => (.error message, store)
          | (.ok count, store) => (.ok (count + if changed then 1 else 0), store)

/-- Drop what was staged, if the store can be loaded. -/
def rollback (enforcer : Enforcer) : Enforcer :=
  { enforcer with store := enforcer.store.load.2 }

/-- Load the persisted rules, and forget what was cached of the earlier ones. -/
def reload (enforcer : Enforcer) : Except Error Unit × Enforcer :=
  match enforcer.store.load with
  | (.error message, store) => (.error (.store message), { enforcer with store })
  | (.ok (), store) => (.ok (), ({ enforcer with store } : Enforcer).clearCache)

def commit (enforcer : Enforcer) : Except Error Unit × Enforcer :=
  match enforcer.store.save with
  | (.error message, store) => (.error (.store message), rollback { enforcer with store })
  | (.ok (), store) => reload { enforcer with store }

/-- Stage all items and commit, or roll back at the first that cannot be staged. -/
def write {α : Type} (stage : α → FallibleStore → Except String Bool × FallibleStore)
    (items : List α) (enforcer : Enforcer) : Except Error Nat × Enforcer :=
  match stageAll stage items enforcer.store with
  | (.error message, store) => (.error (.store message), rollback { enforcer with store })
  | (.ok count, store) =>
      -- the count is that of staging, and only told if the commit gets through
      let committed := commit { enforcer with store }
      (committed.1.map fun _ => count, committed.2)

def install (groups : List RuleGroup) (enforcer : Enforcer) : Except Error Nat × Enforcer :=
  enforcer.write FallibleStore.addPolicy (groups.flatMap RuleGroup.installable)

def installDefaults (team entity environment : String) (enforcer : Enforcer) :
    Except Error (List RuleGroup) × Enforcer :=
  match DefaultRules.generateAll team entity environment with
  | .error fault => (.error (.generation fault), enforcer)
  | .ok groups =>
      let installed := enforcer.install groups
      (installed.1.map fun _ => groups, installed.2)

def addGroupings (rules : List GroupingRule) (enforcer : Enforcer) :
    Except Error Nat × Enforcer :=
  enforcer.write FallibleStore.addGrouping rules

def removeGroupings (rules : List GroupingRule) (enforcer : Enforcer) :
    Except Error Nat × Enforcer :=
  enforcer.write FallibleStore.removeGrouping rules

def assign (email : Email) (role : RoleSubject) (enforcer : Enforcer) :
    Except Error Bool × Enforcer :=
  let added := enforcer.addGroupings [⟨.user email, role⟩]
  (added.1.map fun count => 0 < count, added.2)

end Enforcer

end ScopedAccess
