import ScopedAccess.Proofs.Cache.Soundness
import ScopedAccess.Session

/-!
# A cache is never seen

With a sound cache, every check and every write comes to the same as without a cache, and the cache
stays sound. Hence a session with the cache of its configuration gives the answers of one without
(`cached_answers`).
-/

namespace ScopedAccess

namespace Enforcer

/-- What was done with a sound cache is what was done without one, and the cache is still sound. -/
def Agrees {α : Type} (cached plain : α × Enforcer) : Prop :=
  plain = (cached.1, cached.2.uncached) ∧ cached.2.CacheSound

theorem Agrees.map {α β : Type} {cached plain : α × Enforcer} (h : Agrees cached plain)
    (f : α → β) : Agrees (f cached.1, cached.2) (f plain.1, plain.2) := by
  obtain ⟨rfl, hsound⟩ := h
  exact ⟨rfl, hsound⟩

theorem CacheSound.agrees {enforcer : Enforcer} (h : enforcer.CacheSound) {α : Type}
    (value : α) : Agrees (value, enforcer) (value, enforcer.uncached) :=
  ⟨rfl, h⟩

section Checks

variable {enforcer : Enforcer} (h : enforcer.CacheSound) (time : Timing)

theorem uncached_effectiveRules (enforcer : Enforcer) (email : Email) :
    (enforcer.uncached.effectiveRules time email).2.uncached =
      (enforcer.uncached.effectiveRules time email).2 := by
  have htake := enforcer.takeView_uncached
  cases hview : enforcer.takeView.1 with
  | error error =>
      rw [hview] at htake
      simp only [effectiveRules, htake]
      rfl
  | ok snapshot =>
      rw [hview] at htake
      rw [effectiveRules_of_miss htake rfl]
      split <;> rfl

include h

theorem agrees_effectiveRules (email : Email) :
    Agrees (enforcer.effectiveRules time email) (enforcer.uncached.effectiveRules time email) := by
  obtain ⟨hrules, hrest, hafter⟩ := h.effectiveRules time email
  obtain ⟨hrules', hrest', -⟩ := enforcer.cacheSound_uncached.effectiveRules time email
  have hview := enforcer.takeView_uncached
  refine ⟨Prod.ext ?_ ?_, hafter⟩
  · rw [hrules, hrules', hview]
    rfl
  · rw [← uncached_effectiveRules, hrest', hrest, hview]
    rfl

theorem agrees_authorize (email : Email) (resource : Resource) (action : Action)
    (object : ObjectPath) :
    Agrees (enforcer.authorize time email resource action object)
      (enforcer.uncached.authorize time email resource action object) :=
  (agrees_effectiveRules h time email).map fun found =>
    found.map fun rules => Decision.ofRules rules resource action object

theorem agrees_check (email resource action object : String) :
    Agrees (enforcer.check time email resource action object)
      (enforcer.uncached.check time email resource action object) := by
  unfold check
  cases parseRequest email resource action with
  | error error => exact h.agrees false
  | ok parsed =>
      obtain ⟨email, resource, action⟩ := parsed
      have hagrees := agrees_authorize h time email resource action (.parse object)
      dsimp only
      generalize enforcer.authorize time email resource action (.parse object) = cached
        at hagrees ⊢
      obtain ⟨heq, hsound⟩ := hagrees
      rw [heq]
      obtain ⟨found, after⟩ := cached
      cases found with
      | ok decision => exact hsound.agrees decision.isAllowed
      | error error => exact hsound.agrees false

theorem agrees_enforce (token resource action object : String) :
    Agrees (enforcer.enforce time token resource action object)
      (enforcer.uncached.enforce time token resource action object) := by
  have hresolve : enforcer.uncached.resolve token = enforcer.resolve token := rfl
  unfold enforce
  rw [hresolve]
  cases enforcer.resolve token with
  | none => exact h.agrees false
  | some email => exact agrees_check h time email.text resource action object

theorem agrees_batchRules (email resource action : String) :
    Agrees (enforcer.batchRules time email resource action)
      (enforcer.uncached.batchRules time email resource action) := by
  unfold batchRules
  cases parseRequest email resource action with
  | error error => exact h.agrees none
  | ok parsed =>
      obtain ⟨email, resource, action⟩ := parsed
      have hagrees := agrees_effectiveRules h time email
      dsimp only
      generalize enforcer.effectiveRules time email = cached at hagrees ⊢
      obtain ⟨heq, hsound⟩ := hagrees
      rw [heq]
      obtain ⟨found, after⟩ := cached
      cases found with
      | ok rules => exact hsound.agrees (some (rules, resource, action))
      | error error => exact hsound.agrees none

theorem agrees_checkBatch (email resource action : String) (objects : List String) :
    Agrees (enforcer.checkBatch time email resource action objects)
      (enforcer.uncached.checkBatch time email resource action objects) := by
  have hagrees := agrees_batchRules h time email resource action
  unfold checkBatch
  dsimp only
  generalize enforcer.batchRules time email resource action = cached at hagrees ⊢
  obtain ⟨heq, hsound⟩ := hagrees
  rw [heq]
  exact hsound.agrees _

theorem agrees_handle (request : Gate.Request) :
    Agrees (Gate.handle enforcer time request) (Gate.handle enforcer.uncached time request) := by
  have hresolve : ∀ token, enforcer.uncached.resolve token = enforcer.resolve token :=
    fun token => rfl
  unfold Gate.handle
  split
  · exact h.agrees _
  · next token _ =>
      rw [hresolve]
      split
      · exact h.agrees _
      · next caller _ =>
          split
          · exact h.agrees _
          · next object _ =>
              have hagrees := agrees_check h time caller.text request.resource.text
                request.action.text object
              generalize enforcer.check time caller.text request.resource.text
                request.action.text object = cached at hagrees ⊢
              obtain ⟨heq, hsound⟩ := hagrees
              rw [heq]
              obtain ⟨allowed, after⟩ := cached
              cases allowed with
              | true => exact hsound.agrees (Gate.serve request caller)
              | false => exact hsound.agrees Gate.Response.forbidden

end Checks

section Writes

variable {enforcer : Enforcer}

theorem leadsTo_stageAll {α : Type}
    {stage : α → FallibleStore → Except String Bool × FallibleStore}
    (hstage : ∀ item (store : FallibleStore), store.store.LeadsTo (stage item store).2.store)
    (items : List α) (store : FallibleStore) :
    store.store.LeadsTo (stageAll stage items store).2.store := by
  induction items generalizing store with
  | nil => exact .refl _
  | cons item rest ih =>
      have hitem := hstage item store
      unfold stageAll
      generalize stage item store = staged at hitem ⊢
      obtain ⟨changed, after⟩ := staged
      cases changed with
      | error message => exact hitem
      | ok changed =>
          have hrest := hitem.trans (ih after)
          dsimp only
          generalize stageAll stage rest after = done at hrest ⊢
          obtain ⟨count, last⟩ := done
          cases count <;> exact hrest

theorem agrees_rollback (h : enforcer.CacheSound) {α : Type} (value : α) :
    Agrees (value, enforcer.rollback) (value, enforcer.uncached.rollback) :=
  ⟨rfl, h.withStore enforcer.store.leadsTo_load⟩

theorem agrees_reload (h : enforcer.CacheSound) :
    Agrees enforcer.reload enforcer.uncached.reload := by
  have hleads := enforcer.store.leadsTo_load
  have hstore : enforcer.uncached.store = enforcer.store := rfl
  unfold reload
  rw [hstore]
  generalize enforcer.store.load = loaded at hleads ⊢
  obtain ⟨result, store⟩ := loaded
  cases result with
  | error message => exact ⟨rfl, h.withStore hleads⟩
  | ok _ => exact ⟨rfl, .clearCache _⟩

theorem agrees_commit (h : enforcer.CacheSound) :
    Agrees enforcer.commit enforcer.uncached.commit := by
  have hleads := enforcer.store.leadsTo_save
  have hstore : enforcer.uncached.store = enforcer.store := rfl
  unfold commit
  rw [hstore]
  generalize enforcer.store.save = saved at hleads ⊢
  obtain ⟨result, store⟩ := saved
  cases result with
  | error message => exact agrees_rollback (h.withStore hleads) _
  | ok _ => exact agrees_reload (h.withStore hleads)

theorem agrees_write (h : enforcer.CacheSound) {α : Type}
    {stage : α → FallibleStore → Except String Bool × FallibleStore}
    (hstage : ∀ item (store : FallibleStore), store.store.LeadsTo (stage item store).2.store)
    (items : List α) :
    Agrees (enforcer.write stage items) (enforcer.uncached.write stage items) := by
  have hleads := leadsTo_stageAll hstage items enforcer.store
  have hstore : enforcer.uncached.store = enforcer.store := rfl
  unfold write
  rw [hstore]
  generalize stageAll stage items enforcer.store = staged at hleads ⊢
  obtain ⟨result, store⟩ := staged
  cases result with
  | error message => exact agrees_rollback (h.withStore hleads) _
  | ok count => exact (agrees_commit (h.withStore hleads)).map fun done => done.map fun _ => count

theorem agrees_install (h : enforcer.CacheSound) (groups : List RuleGroup) :
    Agrees (enforcer.install groups) (enforcer.uncached.install groups) :=
  agrees_write h FallibleStore.leadsTo_addPolicy _

theorem agrees_installDefaults (h : enforcer.CacheSound) (team entity environment : String) :
    Agrees (enforcer.installDefaults team entity environment)
      (enforcer.uncached.installDefaults team entity environment) := by
  unfold installDefaults
  cases DefaultRules.generateAll team entity environment with
  | error fault => exact h.agrees _
  | ok groups => exact (agrees_install h groups).map fun done => done.map fun _ => groups

theorem agrees_addGroupings (h : enforcer.CacheSound) (rules : List GroupingRule) :
    Agrees (enforcer.addGroupings rules) (enforcer.uncached.addGroupings rules) :=
  agrees_write h FallibleStore.leadsTo_addGrouping rules

theorem agrees_removeGroupings (h : enforcer.CacheSound) (rules : List GroupingRule) :
    Agrees (enforcer.removeGroupings rules) (enforcer.uncached.removeGroupings rules) :=
  agrees_write h FallibleStore.leadsTo_removeGrouping rules

theorem agrees_assign (h : enforcer.CacheSound) (email : Email) (role : RoleSubject) :
    Agrees (enforcer.assign email role) (enforcer.uncached.assign email role) :=
  (agrees_addGroupings h [⟨.user email, role⟩]).map fun done =>
    done.map fun count => decide (0 < count)

end Writes

end Enforcer

namespace Session

/-! ## Sessions -/

def uncached (session : Session) : Session :=
  { session with enforcer := session.enforcer.uncached, build := .plain }

def Step.looksAtCache : Step → Bool
  | .cacheSize => true
  | .cacheGet _ => true
  | .cacheSet _ _ => true
  | .cacheClear => true
  | _ => false

/-- The steps that put something into the cache that no check has found. -/
def Step.writesCache : Step → Bool
  | .cacheSet _ _ => true
  | _ => false

/-- What a step of a session comes to if a cache is not seen: the session without a cache ends up
the same, and answers the same unless the step is an `observed` look at the cache. -/
structure Hides (session : Session) (time : Timing) (step : Step) : Prop where
  sound : (session.step time step).2.enforcer.CacheSound
  build : (session.step time step).2.build = session.build
  rest : (session.uncached.step time step).2 = (session.step time step).2.uncached
  answer : (session.build = .observed → step.looksAtCache = false) →
    (session.uncached.step time step).1 = (session.step time step).1

variable {session : Session} {time : Timing}

theorem hides_of_agrees {step : Step} {α : Type} (operation : Enforcer → α × Enforcer)
    (answer : α → Answer)
    (hstep : ∀ session : Session, session.step time step =
      (answer (operation session.enforcer).1, session.withEnforcer (operation session.enforcer).2))
    (h : Enforcer.Agrees (operation session.enforcer) (operation session.enforcer.uncached)) :
    session.Hides time step := by
  obtain ⟨heq, hsound⟩ := h
  have hplain : operation session.uncached.enforcer =
      ((operation session.enforcer).1, (operation session.enforcer).2.uncached) := heq
  constructor
  case sound =>
    rw [hstep]
    exact hsound
  case build =>
    rw [hstep]
    rfl
  case rest =>
    rw [hstep, hstep, hplain]
    rfl
  case answer =>
    intro _
    rw [hstep, hstep, hplain]

theorem hides_of_same (h : session.enforcer.CacheSound) {step : Step}
    (henforcer : (session.step time step).2.enforcer = session.enforcer)
    (hbuild : (session.step time step).2.build = session.build)
    (hplain : session.uncached.step time step =
      ((session.step time step).1, (session.step time step).2.uncached)) :
    session.Hides time step :=
  ⟨henforcer ▸ h, hbuild, congrArg Prod.snd hplain, fun _ => by rw [hplain]⟩

theorem visibleCache_eq_none {step : Step} (hlooks : step.looksAtCache = true)
    (hhidden : session.build = .observed → step.looksAtCache = false) :
    session.visibleCache = none := by
  have hunseen : session.build ≠ .observed := by
    intro hobserved
    rw [hhidden hobserved] at hlooks
    exact nomatch hlooks
  exact if_neg hunseen

theorem useCache_uncached (session : Session) {α : Type} (use : RuleCache → α × RuleCache) :
    (session.useCache use).2.uncached = session.uncached ∧
      (session.useCache use).2.build = session.build := by
  unfold useCache
  split <;> exact ⟨rfl, rfl⟩

theorem cacheSound_useCache (h : session.enforcer.CacheSound) {α : Type}
    {use : RuleCache → α × RuleCache}
    (huse : session.build = .observed →
      ∀ cache : RuleCache, ∀ slot ∈ (use cache).2.entries, slot ∈ cache.entries) :
    (session.useCache use).2.enforcer.CacheSound := by
  unfold useCache visibleCache
  split
  · exact h
  · next cache hvisible =>
      split at hvisible
      · next hbuild =>
          intro used hused slot hslot
          cases hused
          exact h cache hvisible slot (huse hbuild cache slot hslot)
      · exact nomatch hvisible

/-- A step that only looks at the cache is a step of the rest of the session to nowhere. -/
theorem hides_of_useCache (h : session.enforcer.CacheSound) {step : Step} {α : Type}
    (use : RuleCache → α × RuleCache) (answer : Option α → Answer)
    (hlooks : step.looksAtCache = true)
    (hstep : ∀ session : Session, session.step time step =
      (answer (session.useCache use).1, (session.useCache use).2))
    (huse : session.build = .observed →
      ∀ cache : RuleCache, ∀ slot ∈ (use cache).2.entries, slot ∈ cache.entries) :
    session.Hides time step := by
  obtain ⟨hrest, hbuild⟩ := session.useCache_uncached use
  have hplain : session.uncached.useCache use = (none, session.uncached) := rfl
  constructor
  case sound =>
    rw [hstep]
    exact cacheSound_useCache h huse
  case build =>
    rw [hstep]
    exact hbuild
  case rest =>
    rw [hstep, hstep, hplain]
    exact hrest.symm
  case answer =>
    intro hhidden
    have hnone : session.useCache use = (none, session) := by
      simp only [useCache, visibleCache_eq_none hlooks hhidden]
    rw [hstep, hstep, hplain, hnone]

theorem hides_of_leadsTo (h : session.enforcer.CacheSound) {step : Step}
    (hleads : session.enforcer.store.store.LeadsTo
      (session.step time step).2.enforcer.store.store)
    (hstep : (session.step time step).2 = session.withEnforcer
      { session.enforcer with store := (session.step time step).2.enforcer.store })
    (hplain : session.uncached.step time step =
      ((session.step time step).1, (session.step time step).2.uncached)) :
    session.Hides time step := by
  refine ⟨?_, ?_, congrArg Prod.snd hplain, fun _ => by rw [hplain]⟩
  · rw [hstep]
    exact h.withStore hleads
  · rw [hstep]
    rfl

theorem hides_step (h : session.enforcer.CacheSound) {step : Step}
    (hforeign : session.build = .observed → step.writesCache = false) :
    session.Hides time step := by
  cases step with
  | refused reason => exact hides_of_same h rfl rfl rfl
  | installDefaults team entity environment =>
      exact hides_of_agrees (Enforcer.installDefaults team entity environment)
        (.ofExcept .groups) (fun _ => rfl) (Enforcer.agrees_installDefaults h _ _ _)
  | install groups =>
      exact hides_of_agrees (Enforcer.install groups) (.ofExcept .count) (fun _ => rfl)
        (Enforcer.agrees_install h _)
  | addGroupings rules =>
      exact hides_of_agrees (Enforcer.addGroupings rules) (.ofExcept .count) (fun _ => rfl)
        (Enforcer.agrees_addGroupings h _)
  | removeGroupings rules =>
      exact hides_of_agrees (Enforcer.removeGroupings rules) (.ofExcept .count) (fun _ => rfl)
        (Enforcer.agrees_removeGroupings h _)
  | assign email role =>
      exact hides_of_agrees (Enforcer.assign email role) (.ofExcept .flag) (fun _ => rfl)
        (Enforcer.agrees_assign h _ _)
  | reload =>
      exact hides_of_agrees Enforcer.reload (.ofExcept fun _ => .nothing) (fun _ => rfl)
        (Enforcer.agrees_reload h)
  | enforce token resource action object =>
      exact hides_of_agrees (fun enforcer => enforcer.enforce time token resource action object)
        .flag (fun _ => rfl) (Enforcer.agrees_enforce h time _ _ _ _)
  | resolve token =>
      exact hides_of_same h rfl rfl rfl
  | check email resource action object =>
      exact hides_of_agrees (fun enforcer => enforcer.check time email resource action object)
        .flag (fun _ => rfl) (Enforcer.agrees_check h time _ _ _ _)
  | checkBatch email resource action objects =>
      exact hides_of_agrees
        (fun enforcer => enforcer.checkBatch time email resource action objects)
        .decisions (fun _ => rfl) (Enforcer.agrees_checkBatch h time _ _ _ _)
  | authorize email resource action object =>
      exact hides_of_agrees
        (fun enforcer => enforcer.authorize time email resource action object)
        (.ofExcept .decision) (fun _ => rfl) (Enforcer.agrees_authorize h time _ _ _ _)
  | pass request =>
      exact hides_of_agrees (fun enforcer => Gate.handle enforcer time request)
        .response (fun _ => rfl) (Enforcer.agrees_handle h time _)
  | assignToken token emailText => exact ⟨h, rfl, rfl, fun _ => rfl⟩
  | revokeToken token => exact ⟨h, rfl, rfl, fun _ => rfl⟩
  | storeAddPolicy rule => exact hides_of_leadsTo h (.of_loaded rfl) rfl rfl
  | storeAddGrouping rule => exact hides_of_leadsTo h (.of_loaded rfl) rfl rfl
  | storeRemoveGrouping rule => exact hides_of_leadsTo h (.of_loaded rfl) rfl rfl
  | storeSave => exact hides_of_leadsTo h (.of_loaded rfl) rfl rfl
  | storeLoad => exact hides_of_leadsTo h (Store.leadsTo_load _) rfl rfl
  | view name => cases name <;> exact hides_of_same h rfl rfl rfl
  | userRoles name email => exact hides_of_same h rfl rfl rfl
  | parentRoles name role => exact hides_of_same h rfl rfl rfl
  | rulesOf name role => exact hides_of_same h rfl rfl rfl
  | arm failure => exact hides_of_leadsTo h (.refl _) rfl rfl
  | interfere change => exact hides_of_leadsTo h (.refl _) rfl rfl
  | cacheSize =>
      refine ⟨h, rfl, rfl, fun hhidden => ?_⟩
      have hnone : session.visibleCache = none := visibleCache_eq_none rfl hhidden
      simp only [Session.step, hnone]
      rfl
  | cacheGet key =>
      exact hides_of_useCache h (fun cache => cache.get time.asked key)
        (fun found => .ofOption (fun rules => .rules (sorted rules)) found.join) rfl
        (fun _ => rfl) fun _ cache slot hslot => RuleCache.mem_of_mem_get hslot
  | cacheSet key rules =>
      refine hides_of_useCache h (fun cache => ((), cache.set time.kept key rules))
        (fun _ => .nothing) rfl (fun _ => rfl) fun hobserved => ?_
      -- only a session that shows its cache can put something into it
      exact nomatch hforeign hobserved
  | cacheClear =>
      refine hides_of_useCache h (fun cache => ((), cache.clear)) (fun _ => .nothing) rfl
        (fun _ => rfl) fun _ cache slot hslot => ?_
      simp [RuleCache.clear] at hslot

theorem uncached_run (session : Session) (steps : List (Timing × Step))
    (h : session.enforcer.CacheSound)
    (hforeign : session.build = .observed → ∀ timed ∈ steps, timed.2.writesCache = false) :
    (session.run steps).2.enforcer.CacheSound ∧
      (session.uncached.run steps).2 = (session.run steps).2.uncached ∧
      ∀ (index : Nat) (time : Timing) (step : Step), steps[index]? = some (time, step) →
        (session.build = .observed → step.looksAtCache = false) →
        (session.uncached.run steps).1[index]? = (session.run steps).1[index]? := by
  induction steps generalizing session with
  | nil => exact ⟨h, rfl, fun index time step hat => by simp at hat⟩
  | cons timed rest ih =>
      obtain ⟨time, step⟩ := timed
      have hhides : session.Hides time step :=
        hides_step h fun hobserved => hforeign hobserved _ List.mem_cons_self
      obtain ⟨hsound, hrest, hanswers⟩ := ih (session.step time step).2 hhides.sound
        fun hobserved timed hmem =>
          hforeign (hhides.build ▸ hobserved) timed (List.mem_cons_of_mem _ hmem)
      simp only [run]
      rw [hhides.rest]
      refine ⟨hsound, hrest, fun index time' step' hat hhidden => ?_⟩
      cases index with
      | zero =>
          simp only [List.getElem?_cons_zero, Option.some.injEq, Prod.mk.injEq] at hat ⊢
          exact hhides.answer (hat.2 ▸ hhidden)
      | succ index =>
          simp only [List.getElem?_cons_succ] at hat ⊢
          exact hanswers index time' step' hat (hhides.build ▸ hhidden)

/-- A session starts with an empty cache, which stays sound if the session writes nothing into it
itself. -/
theorem cacheSound_run (config : Config) (build : Build) (identity : Identity)
    (steps : List (Timing × Step))
    (hforeign : build = .observed → ∀ timed ∈ steps, timed.2.writesCache = false) :
    ((ofConfig config build identity).run steps).2.enforcer.CacheSound := by
  have hstart : (ofConfig config build identity).enforcer.CacheSound := by
    cases build with
    | plain => exact Enforcer.cacheSound_uncached _
    | cached | observed => exact Enforcer.cacheSound_ofConfig config identity
  exact (uncached_run _ steps hstart hforeign).1

theorem length_run (session : Session) (steps : List (Timing × Step)) :
    (session.run steps).1.length = steps.length := by
  induction steps generalizing session with
  | nil => rfl
  | cons timed rest ih => simp only [run, List.length_cons, ih]

/-- With the cache of its configuration, a session answers every step as it does without one.
If it can look at its cache, and puts nothing in it itself, then so it does every other step. -/
theorem cached_answers (config : Config) (identity : Identity) (steps : List (Timing × Step)) :
    ((ofConfig config .cached identity).run steps).1 =
        ((ofConfig config .plain identity).run steps).1 ∧
      ((∀ timed ∈ steps, timed.2.writesCache = false) →
        ∀ (index : Nat) (time : Timing) (step : Step), steps[index]? = some (time, step) →
          step.looksAtCache = false →
          ((ofConfig config .observed identity).run steps).1[index]? =
            ((ofConfig config .plain identity).run steps).1[index]?) := by
  have hsound : (Enforcer.ofConfig config identity).CacheSound :=
    Enforcer.cacheSound_ofConfig config identity
  constructor
  · obtain ⟨-, -, hanswers⟩ := (ofConfig config .cached identity).uncached_run steps hsound
      fun hbuild => nomatch hbuild
    refine List.ext_getElem? fun index => ?_
    cases hat : steps[index]? with
    | none =>
        have hlength : steps.length ≤ index := List.getElem?_eq_none_iff.mp hat
        rw [List.getElem?_eq_none (by rw [length_run]; exact hlength),
          List.getElem?_eq_none (by rw [length_run]; exact hlength)]
    | some timed => exact (hanswers index timed.1 timed.2 hat fun hbuild => nomatch hbuild).symm
  · intro hforeign index time step hat hlooks
    obtain ⟨-, -, hanswers⟩ := (ofConfig config .observed identity).uncached_run steps hsound
      fun _ => hforeign
    exact (hanswers index time step hat fun _ => hlooks).symm

theorem cached_answers_after_interference :
    let role : RoleSubject := ⟨.view, .every⟩
    let email : Email := ⟨"a@b", by decide, by decide, by decide⟩
    let grouping : GroupingRule := ⟨.user email, role⟩
    let ask : Step := .authorize email .team .get (.parse "dev")
    let steps : List (Timing × Step) := clocked
      [.addGroupings [grouping],
        .interfere ⟨grouping, ⟨role, .team, .any, .parse "dev", .allow⟩⟩, ask, .cacheSize, ask]
    let config : Config := { cacheCapacity := 1, cacheTtlSeconds := some 0 }
    (∀ timed ∈ steps, timed.2.writesCache = false) ∧ steps[4]? = some (⟨4, 4⟩, ask) ∧
      ask.looksAtCache = false ∧
      ((ofConfig config .observed none).run steps).1[4]? =
        ((ofConfig config .plain none).run steps).1[4]? :=
  ⟨by decide, rfl, rfl, (cached_answers _ none _).2 (by decide) 4 ⟨4, 4⟩ _ rfl rfl⟩

end Session

end ScopedAccess
