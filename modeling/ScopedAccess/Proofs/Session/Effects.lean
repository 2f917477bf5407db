import ScopedAccess.Proofs.Cache.Soundness
import ScopedAccess.Proofs.Write.History
import ScopedAccess.Session

/-!
# What steps do

All that a step of a session does to the enforcer, case by case (`leaves_step`). What holds after
every step follows by these cases.
-/

namespace ScopedAccess

namespace Enforcer

/-! ## Checks look for the rules of one email -/

variable (enforcer : Enforcer) (time : Timing)

theorem askCache_snd (now : Instant) (key : RuleCache.Key) :
    ∃ cache, (enforcer.askCache now key).2 = { enforcer with cache } := by
  unfold askCache
  split
  · exact ⟨enforcer.cache, rfl⟩
  · next cache _ => exact ⟨some (cache.get now key).2, rfl⟩

theorem effectiveRules_snd (email : Email) :
    ∃ cache, (enforcer.effectiveRules time email).2 =
      { enforcer with store := enforcer.store.view.2, cache } := by
  have hview : enforcer.takeView.2 = { enforcer with store := enforcer.store.view.2 } :=
    enforcer.takeView_spec.1
  unfold effectiveRules
  cases htake : enforcer.takeView with
  | mk taken after =>
      rw [htake] at hview
      cases taken with
      | error error => exact ⟨enforcer.cache, hview⟩
      | ok snapshot =>
          obtain rfl : after = { enforcer with store := enforcer.store.view.2 } := hview
          obtain ⟨cache, hask⟩ := askCache_snd { enforcer with store := enforcer.store.view.2 }
            time.asked ⟨snapshot.revision, email⟩
          dsimp only
          split
          · next heq =>
              rw [heq] at hask
              exact ⟨cache, hask⟩
          · next asked heq =>
              rw [heq] at hask
              obtain rfl : asked = { enforcer with store := enforcer.store.view.2, cache } := hask
              split
              · exact ⟨cache, rfl⟩
              · exact ⟨_, rfl⟩

def asked? (email resource action : String) : Option Email :=
  match parseRequest email resource action with
  | .error _ => none
  | .ok (email, _, _) => some email

def lookFor : Option Email → Enforcer
  | none => enforcer
  | some email => (enforcer.effectiveRules time email).2

theorem check_snd (email resource action object : String) :
    (enforcer.check time email resource action object).2 =
      enforcer.lookFor time (asked? email resource action) := by
  unfold check asked?
  cases parseRequest email resource action with
  | error error => rfl
  | ok parsed =>
      obtain ⟨e, r, a⟩ := parsed
      show _ = (enforcer.authorize time e r a (.parse object)).2
      dsimp only
      cases enforcer.authorize time e r a (.parse object) with
      | mk decision after => cases decision <;> rfl

theorem enforce_snd (token resource action object : String) :
    (enforcer.enforce time token resource action object).2 = enforcer.lookFor time
      ((enforcer.resolve token).bind fun email => asked? email.text resource action) := by
  unfold enforce
  cases enforcer.resolve token with
  | none => rfl
  | some email => exact enforcer.check_snd time email.text resource action object

theorem checkBatch_snd (email resource action : String) (objects : List String) :
    (enforcer.checkBatch time email resource action objects).2 =
      enforcer.lookFor time (asked? email resource action) := by
  unfold checkBatch batchRules asked?
  cases parseRequest email resource action with
  | error error => rfl
  | ok parsed =>
      obtain ⟨e, r, a⟩ := parsed
      show _ = (enforcer.effectiveRules time e).2
      dsimp only
      cases enforcer.effectiveRules time e with
      | mk rules after => cases rules <;> rfl

theorem handle_snd (request : Gate.Request) :
    (Gate.handle enforcer time request).2 = enforcer.lookFor time
      ((Gate.token? request.headers).bind fun token => (enforcer.resolve token).bind fun caller =>
        request.object.bind fun _ =>
          asked? caller.text request.resource.text request.action.text) := by
  unfold Gate.handle
  cases Gate.token? request.headers with
  | none => rfl
  | some token =>
      dsimp only [Option.bind_some]
      cases enforcer.resolve token with
      | none => rfl
      | some caller =>
          dsimp only [Option.bind_some]
          cases request.object with
          | none => rfl
          | some object =>
              rw [Option.bind_some, ← enforcer.check_snd time _ _ _ object]
              dsimp only
              cases enforcer.check time caller.text request.resource.text request.action.text
                object with
              | mk allowed after => cases allowed <;> rfl

/-! ## Writes are lists of changes -/

theorem install_eq (groups : List RuleGroup) (enforcer : Enforcer) :
    enforcer.install groups = enforcer.write FallibleStore.stage
      ((groups.flatMap RuleGroup.installable).map .addPolicy) :=
  (write_map .addPolicy _ enforcer).symm

theorem addGroupings_eq (rules : List GroupingRule) (enforcer : Enforcer) :
    enforcer.addGroupings rules =
      enforcer.write FallibleStore.stage (rules.map .addGrouping) :=
  (write_map .addGrouping rules enforcer).symm

theorem removeGroupings_eq (rules : List GroupingRule) (enforcer : Enforcer) :
    enforcer.removeGroupings rules =
      enforcer.write FallibleStore.stage (rules.map .removeGrouping) :=
  (write_map .removeGrouping rules enforcer).symm

theorem reload_snd (enforcer : Enforcer) :
    ∃ cache, enforcer.reload.2 = { enforcer with store := enforcer.store.load.2, cache } := by
  unfold reload
  cases enforcer.store.load with
  | mk loaded store =>
      cases loaded with
      | error message => exact ⟨enforcer.cache, rfl⟩
      | ok done => exact ⟨enforcer.cache.map RuleCache.clear, rfl⟩

theorem store_reload (enforcer : Enforcer) : enforcer.reload.2.store = enforcer.store.load.2 := by
  obtain ⟨cache, hreload⟩ := enforcer.reload_snd
  rw [hreload]

theorem write_snd (changes : List Change) (enforcer : Enforcer) :
    ∃ cache, (enforcer.write FallibleStore.stage changes).2 = { enforcer with
      store := (enforcer.store.submit changes).2.load.2, cache } := by
  have hstore := enforcer.store_write changes
  have hrest : ∃ store cache, (enforcer.write FallibleStore.stage changes).2 =
      { enforcer with store, cache } := by
    unfold write commit
    split
    · exact ⟨_, enforcer.cache, rfl⟩
    · dsimp only
      split
      · exact ⟨_, enforcer.cache, rfl⟩
      · next store _ =>
          obtain ⟨cache, hreload⟩ := reload_snd { enforcer with store }
          exact ⟨_, cache, hreload⟩
  obtain ⟨store, cache, hwrite⟩ := hrest
  rw [hwrite] at hstore ⊢
  exact ⟨cache, by rw [← hstore]⟩

end Enforcer

namespace Session

/-! ## All that a step does -/

/-- What the step is a write of, if it is one. Defaults that cannot be generated write nothing. -/
def Step.changes? : Step → Option (List Change)
  | .installDefaults team entity environment =>
      match DefaultRules.generateAll team entity environment with
      | .ok groups => some ((groups.flatMap RuleGroup.installable).map .addPolicy)
      | .error _ => none
  | .install groups => some ((groups.flatMap RuleGroup.installable).map .addPolicy)
  | .addGroupings rules => some (rules.map .addGrouping)
  | .removeGroupings rules => some (rules.map .removeGrouping)
  | .assign email role => some [.addGrouping ⟨.user email, role⟩]
  | _ => none

/-- The steps that change the store behind the enforcer's back. -/
def Step.isForeign : Step → Bool
  | .storeAddPolicy _ => true
  | .storeAddGrouping _ => true
  | .storeRemoveGrouping _ => true
  | .storeSave => true
  | .storeLoad => true
  | .interfere _ => true
  | _ => false

def Step.isCheck : Step → Bool
  | .enforce _ _ _ _ => true
  | .check _ _ _ _ => true
  | .checkBatch _ _ _ _ => true
  | .authorize _ _ _ _ => true
  | .pass _ => true
  | _ => false

def Step.asked? (identity : Identity) : Step → Option Email
  | .enforce token resource action _ =>
      (identity.resolve token).bind fun email => Enforcer.asked? email.text resource action
  | .check email resource action _ => Enforcer.asked? email resource action
  | .checkBatch email resource action _ => Enforcer.asked? email resource action
  | .authorize email _ _ _ => some email
  | .pass request =>
      (Gate.token? request.headers).bind fun token => (identity.resolve token).bind fun caller =>
        request.object.bind fun _ =>
          Enforcer.asked? caller.text request.resource.text request.action.text
  | _ => none

variable {session : Session} {time : Timing} {step : Step}

theorem enforcer_of_isCheck (h : step.isCheck = true) :
    (session.step time step).2.enforcer =
      session.enforcer.lookFor time (step.asked? session.enforcer.identity) := by
  cases step with
  | enforce token resource action object =>
      exact session.enforcer.enforce_snd time token resource action object
  | check email resource action object =>
      exact session.enforcer.check_snd time email resource action object
  | checkBatch email resource action objects =>
      exact session.enforcer.checkBatch_snd time email resource action objects
  | authorize email resource action object => rfl
  | pass request => exact session.enforcer.handle_snd time request
  | _ => exact nomatch h

theorem changes?_of_isCheck (h : step.isCheck = true) : step.changes? = none := by
  cases step with
  | enforce _ _ _ _ | check _ _ _ _ | checkBatch _ _ _ _ | authorize _ _ _ _ | pass _ => rfl
  | _ => exact nomatch h

theorem Answer.ofExcept_map {α β : Type} (answer : β → Answer) (make : α → β)
    (result : Except Error α) :
    ofExcept answer (result.map make) = ofExcept (fun value => answer (make value)) result := by
  cases result <;> rfl

/-- Every write stages a list of changes, and only tells its result in a way of its own. -/
theorem step_of_changes {changes : List Change} (h : step.changes? = some changes) :
    ∃ answer : Nat → Answer, session.step time step =
      (.ofExcept answer (session.enforcer.write FallibleStore.stage changes).1,
        session.withEnforcer (session.enforcer.write FallibleStore.stage changes).2) := by
  cases step with
  | installDefaults team entity environment =>
      unfold Step.changes? at h
      cases hgenerate : DefaultRules.generateAll team entity environment with
      | error fault => simp [hgenerate] at h
      | ok groups =>
          simp only [hgenerate, Option.some.injEq] at h
          refine ⟨fun _ => .groups groups, ?_⟩
          rw [← h, ← Enforcer.install_eq]
          simp only [Session.step, Enforcer.installDefaults, hgenerate, Answer.ofExcept_map]
  | install groups =>
      cases h
      exact ⟨.count, by rw [← Enforcer.install_eq]; rfl⟩
  | addGroupings rules =>
      cases h
      exact ⟨.count, by rw [← Enforcer.addGroupings_eq]; rfl⟩
  | removeGroupings rules =>
      cases h
      exact ⟨.count, by rw [← Enforcer.removeGroupings_eq]; rfl⟩
  | assign email role =>
      cases h
      have hadd := session.enforcer.addGroupings_eq [⟨.user email, role⟩]
      -- told as whether the one grouping is new
      refine ⟨fun count => .flag (0 < count), ?_⟩
      simp only [Session.step, Enforcer.assign, hadd, Answer.ofExcept_map]
      rfl
  | _ => exact nomatch h

theorem enforcer_useCache (session : Session) {α : Type} (use : RuleCache → α × RuleCache) :
    ∃ cache, (session.useCache use).2.enforcer = { session.enforcer with cache } := by
  unfold useCache
  split
  · exact ⟨session.enforcer.cache, rfl⟩
  · next cache _ => exact ⟨some (use cache).2, rfl⟩

/-- What the enforcer can be after a step, case by case. -/
inductive Leaves (enforcer : Enforcer) (time : Timing) (step : Step) : Enforcer → Prop where
  | write (changes : List Change) (hchanges : step.changes? = some changes) :
      Leaves enforcer time step (enforcer.write FallibleStore.stage changes).2
  | reload (hnone : step.changes? = none) : Leaves enforcer time step enforcer.reload.2
  | look (hnone : step.changes? = none) (email : Email) :
      Leaves enforcer time step (enforcer.effectiveRules time email).2
  | rest (hnone : step.changes? = none) (cache : Option RuleCache) (identity : Identity) :
      Leaves enforcer time step { enforcer with cache, identity }
  | arm (failure : ArmedFailure) (harm : step = .arm failure) :
      Leaves enforcer time step
        { enforcer with store := { enforcer.store with
          failures := enforcer.store.failures ++ [failure] } }
  | foreign (hforeign : step.isForeign = true) (store : FallibleStore) :
      Leaves enforcer time step { enforcer with store }

theorem leaves_of_isCheck (session : Session) (time : Timing) (h : step.isCheck = true) :
    Leaves session.enforcer time step (session.step time step).2.enforcer := by
  have hnone : step.changes? = none := changes?_of_isCheck h
  rw [enforcer_of_isCheck h]
  cases step.asked? session.enforcer.identity with
  | none => exact .rest hnone session.enforcer.cache session.enforcer.identity
  | some email => exact .look hnone email

theorem leaves_of_useCache {session : Session} (hnone : step.changes? = none) {α : Type}
    (use : RuleCache → α × RuleCache) :
    Leaves session.enforcer time step (session.useCache use).2.enforcer := by
  obtain ⟨cache, hcache⟩ := session.enforcer_useCache use
  rw [hcache]
  exact .rest hnone cache session.enforcer.identity

theorem leaves_step (session : Session) (time : Timing) (step : Step) :
    Leaves session.enforcer time step (session.step time step).2.enforcer := by
  cases hchanges : step.changes? with
  | some changes =>
      obtain ⟨answer, hstep⟩ := @step_of_changes session time step changes hchanges
      rw [hstep]
      exact .write changes hchanges
  | none =>
      have hsame : Leaves session.enforcer time step session.enforcer :=
        .rest hchanges session.enforcer.cache session.enforcer.identity
      cases step with
      | installDefaults team entity environment =>
          -- it writes nothing only if the defaults cannot be generated
          unfold Step.changes? at hchanges
          cases hgenerate : DefaultRules.generateAll team entity environment with
          | error fault =>
              simp only [Session.step, Enforcer.installDefaults, hgenerate]
              exact hsame
          | ok groups => simp [hgenerate] at hchanges
      | reload => exact .reload hchanges
      | enforce _ _ _ _ | check _ _ _ _ | checkBatch _ _ _ _ | authorize _ _ _ _ | pass _ =>
          exact leaves_of_isCheck session time rfl
      | arm failure => exact .arm failure rfl
      | view name => cases name <;> exact hsame
      | cacheGet key => exact leaves_of_useCache hchanges _
      | cacheSet key rules => exact leaves_of_useCache hchanges _
      | cacheClear => exact leaves_of_useCache hchanges _
      | assignToken token emailText =>
          exact .rest hchanges session.enforcer.cache
            (session.enforcer.identity.map fun table => table.assign token emailText)
      | revokeToken token =>
          exact .rest hchanges session.enforcer.cache
            (session.enforcer.identity.map fun table => table.revoke token)
      | refused _ | resolve _ | userRoles _ _ | parentRoles _ _ | rulesOf _ _ | cacheSize =>
          exact hsame
      | storeAddPolicy _ | storeAddGrouping _ | storeRemoveGrouping _ | storeSave | storeLoad
      | interfere _ => exact .foreign rfl _
      | install _ | addGroupings _ | removeGroupings _ | assign _ _ => exact nomatch hchanges

theorem settings_step (session : Session) (time : Timing) (step : Step) :
    (session.step time step).2.enforcer.settings = session.enforcer.settings := by
  have hleaves := session.leaves_step time step
  generalize (session.step time step).2.enforcer = after at hleaves ⊢
  cases hleaves with
  | write changes hchanges =>
      obtain ⟨cache, hafter⟩ := session.enforcer.write_snd changes
      rw [hafter]
  | reload hnone =>
      obtain ⟨cache, hafter⟩ := session.enforcer.reload_snd
      rw [hafter]
  | look hnone email =>
      obtain ⟨cache, hafter⟩ := session.enforcer.effectiveRules_snd time email
      rw [hafter]
  | rest hnone cache identity => rfl
  | arm failure harm => rfl
  | foreign hforeign store => rfl

theorem settings_run (session : Session) (steps : List (Timing × Step)) :
    (session.run steps).2.enforcer.settings = session.enforcer.settings := by
  induction steps generalizing session with
  | nil => rfl
  | cons timed rest ih => exact (ih _).trans (session.settings_step timed.1 timed.2)

theorem settings_run_ofConfig (config : Config) (build : Build) (identity : Identity)
    (steps : List (Timing × Step)) :
    ((ofConfig config build identity).run steps).2.enforcer.settings = config.toSettings := by
  rw [settings_run]
  cases build <;> rfl

end Session

end ScopedAccess
