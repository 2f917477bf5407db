import ScopedAccess.Proofs.Check.Locality

/-!
# Sessions that answer checks alike

A decision does not depend on the order in which policy rules were added, nor on the revision of the
view. Stores that differ in nothing else stay so in every step, and sessions over them answer all
checks alike (`Session.checksAs_of_resembles`).
-/

namespace ScopedAccess

/-! ## Rules in another order -/

namespace RuleSet

variable {rules other : RuleSet}

/-- The policy rules are the same, in whatever order, and every member has the same roles in the
same order. -/
structure Resembles (rules other : RuleSet) : Prop where
  rolesOf_eq : ∀ member, rules.rolesOf member = other.rolesOf member
  hasPolicy_iff : ∀ rule, rules.HasPolicy rule ↔ other.HasPolicy rule

theorem Resembles.refl (rules : RuleSet) : rules.Resembles rules :=
  ⟨fun _ => rfl, fun _ => Iff.rfl⟩

theorem ReadsAs.resembles (h : rules.ReadsAs other) : rules.Resembles other := by
  refine ⟨h.rolesOf_eq, fun rule => ?_⟩
  rw [HasPolicy, HasPolicy, h.rulesOf_eq]

theorem Resembles.sameRules (h : rules.Resembles other) : rules.SameRules other := by
  refine ⟨h.hasPolicy_iff, fun rule => ?_⟩
  rw [HasGrouping, HasGrouping, h.rolesOf_eq]

theorem Resembles.change (h : rules.Resembles other) (change : Change) :
    (rules.change change).Resembles (other.change change) := by
  refine ⟨rolesOf_change_congr h.rolesOf_eq change, fun rule => ?_⟩
  cases change with
  | addPolicy added =>
      show (rules.addPolicy added).2.HasPolicy rule ↔ (other.addPolicy added).2.HasPolicy rule
      rw [hasPolicy_addPolicy, hasPolicy_addPolicy, h.hasPolicy_iff]
  | addGrouping added => exact h.hasPolicy_iff rule
  | removeGrouping removed => exact h.hasPolicy_iff rule

theorem Resembles.replay (h : rules.Resembles other) (changes : List Change) :
    (rules.replay changes).Resembles (other.replay changes) := by
  induction changes generalizing rules other with
  | nil => exact h
  | cons change rest ih => exact ih (h.change change)

theorem SameRules.isChanged_eq (h : rules.SameRules other) (change : Change) :
    rules.isChanged change = other.isChanged change := by
  cases change with
  | addPolicy rule => simp only [isChanged, addPolicy_fst, h.policies]
  | addGrouping rule => simp only [isChanged, addGrouping_fst, h.groupings]
  | removeGrouping rule => simp only [isChanged, removeGrouping_fst, h.groupings]

theorem Resembles.countChanged_eq (h : rules.Resembles other) (changes : List Change) :
    rules.countChanged changes = other.countChanged changes := by
  induction changes generalizing rules other with
  | nil => rfl
  | cons change rest ih =>
      rw [countChanged, countChanged, ih (h.change change), h.sameRules.isChanged_eq]

end RuleSet

theorem Snapshot.alikeFor_of_resembles {snapshot other : Snapshot}
    (h : snapshot.rules.Resembles other.rules) (email : Email) :
    snapshot.AlikeFor other email := by
  constructor
  case userRoles_eq => exact (h.rolesOf_eq (.user email)).symm
  case parentRoles_eq => exact fun role _ => (h.rolesOf_eq (.role role)).symm
  case mem_rulesOf_iff => exact fun role _ rule => (h.sameRules.mem_rulesOf role rule).symm

/-! ## Stores -/

namespace Store

variable {store other : Store}

/-- Staged, persisted and loaded rules resemble each other; the loaded ones may have different
revisions. -/
structure Resembles (store other : Store) : Prop where
  staged : store.staged.Resembles other.staged
  persisted : store.persisted.Resembles other.persisted
  loaded : Option.Rel (fun snapshot snapshot' => snapshot.rules.Resembles snapshot'.rules)
    store.loaded other.loaded

theorem Resembles.stage (h : store.Resembles other) {rules rules' : RuleSet}
    (hrules : rules.Resembles rules') :
    Resembles { store with staged := rules } { other with staged := rules' } :=
  ⟨hrules, h.persisted, h.loaded⟩

theorem Resembles.change (h : store.Resembles other) (change : Change) :
    (store.change change).Resembles (other.change change) := by
  have hstaged := h.stage (h.staged.change change)
  cases change <;> exact hstaged

theorem Resembles.save (h : store.Resembles other) : store.save.Resembles other.save :=
  ⟨h.staged, h.staged, h.loaded⟩

theorem Resembles.load (h : store.Resembles other) : store.load.Resembles other.load :=
  ⟨h.persisted, h.persisted, .some h.persisted⟩

theorem Resembles.interfere (h : store.Resembles other) (change : Interference) :
    (change.apply store).Resembles (change.apply other) :=
  ((h.change (.removeGrouping change.remove)).change (.addPolicy change.add)).save.load

end Store

namespace FallibleStore

variable {fallible other : FallibleStore}

/-- The stores resemble each other, the same calls will fail, and the same is about to happen after
the next view. -/
structure Resembles (fallible other : FallibleStore) : Prop where
  store : fallible.store.Resembles other.store
  failures_eq : fallible.failures = other.failures
  interference_eq : fallible.interference = other.interference

theorem Resembles.withStore (h : fallible.Resembles other) {store store' : Store}
    (hstore : store.Resembles store') :
    Resembles { fallible with store } { other with store := store' } :=
  ⟨hstore, h.failures_eq, h.interference_eq⟩

/-- Calls have the same answer, or fail with the same message, and the stores after them resemble
each other. -/
def Alike {α : Type} (done other : α × FallibleStore) : Prop :=
  done.1 = other.1 ∧ done.2.Resembles other.2

theorem Resembles.attempt {α : Type} (h : fallible.Resembles other) (call : StoreCall)
    {use : Store → α × Store}
    (huse : ∀ store store' : Store, store.Resembles store' →
      (use store).1 = (use store').1 ∧ (use store).2.Resembles (use store').2) :
    Alike (fallible.attempt call use) (other.attempt call use) := by
  unfold FallibleStore.attempt
  rw [h.failures_eq]
  cases ArmedFailure.strike call other.failures with
  | mk message left =>
      cases message with
      | some message => exact ⟨rfl, h.store, rfl, h.interference_eq⟩
      | none =>
          obtain ⟨hanswer, hstore⟩ := huse fallible.store other.store h.store
          exact ⟨congrArg Except.ok hanswer, hstore, rfl, h.interference_eq⟩

theorem Resembles.save (h : fallible.Resembles other) : Alike fallible.save other.save :=
  h.attempt .save fun _ _ hstore => ⟨rfl, hstore.save⟩

theorem Resembles.load (h : fallible.Resembles other) : Alike fallible.load other.load :=
  h.attempt .load fun _ _ hstore => ⟨rfl, hstore.load⟩

theorem Resembles.stageAll (h : fallible.Resembles other) (changes : List Change) :
    Alike (Enforcer.stageAll stage changes fallible) (Enforcer.stageAll stage changes other) := by
  have hstage (staged : List Change) := h.store.stage (h.store.staged.replay staged)
  rw [stageAll_eq, stageAll_eq, h.failures_eq]
  cases ArmedFailure.strikeAll (changes.map Change.call) other.failures with
  | mk first left =>
      cases first with
      | some first => exact ⟨rfl, hstage (changes.take first.1), rfl, h.interference_eq⟩
      | none =>
          have hcount := h.store.staged.countChanged_eq changes
          exact ⟨congrArg Except.ok hcount, hstage changes, rfl, h.interference_eq⟩

theorem Resembles.submit (h : fallible.Resembles other) (changes : List Change) :
    Alike (fallible.submit changes) (other.submit changes) := by
  unfold FallibleStore.submit
  obtain ⟨hresult, hstaged⟩ := h.stageAll changes
  generalize Enforcer.stageAll stage changes fallible = done at hresult hstaged ⊢
  generalize Enforcer.stageAll stage changes other = done' at hresult hstaged ⊢
  obtain ⟨result, store⟩ := done
  obtain ⟨result', store'⟩ := done'
  obtain rfl : result = result' := hresult
  cases result with
  | error message => exact ⟨rfl, hstaged⟩
  | ok count =>
      obtain ⟨hresult, hsaved⟩ := hstaged.save
      dsimp only
      generalize store.save = saved at hresult hsaved ⊢
      generalize store'.save = saved' at hresult hsaved ⊢
      obtain ⟨result, store⟩ := saved
      obtain ⟨result', store'⟩ := saved'
      obtain rfl : result = result' := hresult
      cases result with
      | error message => exact ⟨rfl, hsaved⟩
      | ok done => exact ⟨rfl, hsaved⟩

theorem Resembles.interfere (h : fallible.Resembles other) :
    fallible.interfere.Resembles other.interfere := by
  unfold FallibleStore.interfere
  rw [h.interference_eq]
  cases other.interference with
  | none => exact h
  | some change => exact ⟨h.store.interfere change, h.failures_eq, rfl⟩

/-- Views are of different rule sets, so only what is left after them is compared. -/
theorem Resembles.view (h : fallible.Resembles other) :
    fallible.view.2.Resembles other.view.2 := by
  unfold FallibleStore.view FallibleStore.attempt
  rw [h.failures_eq]
  cases ArmedFailure.strike .view other.failures with
  | mk message left =>
      have hleft : Resembles { fallible with failures := left } { other with failures := left } :=
        ⟨h.store, rfl, h.interference_eq⟩
      cases message with
      | some message => exact hleft
      | none => exact hleft.interfere

end FallibleStore

/-! ## Enforcers -/

namespace Enforcer

variable {enforcer other : Enforcer}

structure Resembles (enforcer other : Enforcer) : Prop where
  store : enforcer.store.Resembles other.store
  settings_eq : enforcer.settings = other.settings
  identity_eq : enforcer.identity = other.identity

theorem Resembles.withStore (h : enforcer.Resembles other) {store store' : FallibleStore}
    (hstore : store.Resembles store') :
    Resembles { enforcer with store } { other with store := store' } :=
  ⟨hstore, h.settings_eq, h.identity_eq⟩

theorem Resembles.withIdentity (h : enforcer.Resembles other) (use : Identity → Identity) :
    Resembles { enforcer with identity := use enforcer.identity }
      { other with identity := use other.identity } :=
  ⟨h.store, h.settings_eq, congrArg use h.identity_eq⟩

theorem Resembles.write (h : enforcer.Resembles other) (changes : List Change) :
    (enforcer.write FallibleStore.stage changes).2.Resembles
      (other.write FallibleStore.stage changes).2 := by
  obtain ⟨cache, hwrite⟩ := enforcer.write_snd changes
  obtain ⟨cache', hwrite'⟩ := other.write_snd changes
  rw [hwrite, hwrite']
  exact ⟨(h.store.submit changes).2.load.2, h.settings_eq, h.identity_eq⟩

theorem Resembles.reload (h : enforcer.Resembles other) :
    enforcer.reload.2.Resembles other.reload.2 := by
  obtain ⟨cache, hreload⟩ := enforcer.reload_snd
  obtain ⟨cache', hreload'⟩ := other.reload_snd
  rw [hreload, hreload']
  exact ⟨h.store.load.2, h.settings_eq, h.identity_eq⟩

theorem Resembles.lookFor (h : enforcer.Resembles other) (time time' : Timing)
    (asked : Option Email) :
    (enforcer.lookFor time asked).Resembles (other.lookFor time' asked) := by
  cases asked with
  | none => exact h
  | some email =>
      obtain ⟨cache, hlook⟩ := enforcer.effectiveRules_snd time email
      obtain ⟨cache', hlook'⟩ := other.effectiveRules_snd time' email
      show (enforcer.effectiveRules time email).2.Resembles (other.effectiveRules time' email).2
      rw [hlook, hlook']
      exact ⟨h.store.view, h.settings_eq, h.identity_eq⟩

theorem CacheSound.decidesAs_of_resembles (h : enforcer.CacheSound) (hother : other.CacheSound)
    (hsettings : enforcer.settings = other.settings)
    (hidentity : enforcer.identity = other.identity)
    (hfailure : enforcer.store.viewFailure = other.store.viewFailure)
    (hstore : enforcer.store.store.Resembles other.store.store) (email : Email) :
    enforcer.DecidesAs other email := by
  refine h.decidesAs hother hsettings.symm hidentity.symm hfailure.symm ?_
  have hloaded := hstore.loaded
  generalize enforcer.store.store.loaded = loaded at hloaded ⊢
  generalize other.store.store.loaded = loaded' at hloaded ⊢
  cases hloaded with
  | none => exact .none
  | some hrules => exact .some (Snapshot.alikeFor_of_resembles hrules email)

end Enforcer

/-! ## Sessions -/

namespace Session

variable {session other : Session}

/-- The caches are sound, and nothing else that checks depend on is different. -/
structure Resembles (session other : Session) : Prop where
  enforcer : session.enforcer.Resembles other.enforcer
  build_eq : session.build = other.build
  sound : session.enforcer.CacheSound
  sound_other : other.enforcer.CacheSound

theorem enforcer_step_resembles (h : session.enforcer.Resembles other.enforcer)
    (time time' : Timing) (step : Step) :
    (session.step time step).2.enforcer.Resembles (other.step time' step).2.enforcer := by
  have hstore {store store' : Store} (hresembles : store.Resembles store') :=
    h.withStore (h.store.withStore hresembles)
  cases hchanges : step.changes? with
  | some changes =>
      obtain ⟨answer, hstep⟩ := @step_of_changes session time step changes hchanges
      obtain ⟨answer', hstep'⟩ := @step_of_changes other time' step changes hchanges
      rw [hstep, hstep']
      exact h.write changes
  | none =>
      cases step with
      | enforce _ _ _ _ | check _ _ _ _ | checkBatch _ _ _ _ | authorize _ _ _ _ | pass _ =>
          rw [enforcer_of_isCheck rfl, enforcer_of_isCheck rfl, h.identity_eq]
          exact h.lookFor time time' _
      | installDefaults team entity environment =>
          unfold Step.changes? at hchanges
          cases hgenerate : DefaultRules.generateAll team entity environment with
          | error fault =>
              simp only [Session.step, Enforcer.installDefaults, hgenerate]
              exact h
          | ok groups => simp [hgenerate] at hchanges
      | reload => exact h.reload
      | assignToken token emailText =>
          exact h.withIdentity fun identity =>
            identity.map fun table => table.assign token emailText
      | revokeToken token =>
          exact h.withIdentity fun identity => identity.map fun table => table.revoke token
      | storeAddPolicy rule => exact hstore (h.store.store.change (.addPolicy rule))
      | storeAddGrouping rule => exact hstore (h.store.store.change (.addGrouping rule))
      | storeRemoveGrouping rule => exact hstore (h.store.store.change (.removeGrouping rule))
      | storeSave => exact hstore h.store.store.save
      | storeLoad => exact hstore h.store.store.load
      | arm failure =>
          have hfailures := congrArg (fun failures => failures ++ [failure]) h.store.failures_eq
          exact h.withStore ⟨h.store.store, hfailures, h.store.interference_eq⟩
      | interfere change => exact h.withStore ⟨h.store.store, h.store.failures_eq, rfl⟩
      | view name => cases name <;> exact h
      -- the caches may differ, and so may what is found in them
      | cacheGet _ | cacheSet _ _ | cacheClear =>
          obtain ⟨cache, hcache⟩ := session.enforcer_useCache _
          obtain ⟨cache', hcache'⟩ := other.enforcer_useCache _
          simp only [Session.step]
          rw [hcache, hcache']
          exact ⟨h.store, h.settings_eq, h.identity_eq⟩
      | refused _ | resolve _ | userRoles _ _ | parentRoles _ _ | rulesOf _ _ | cacheSize =>
          exact h
      | install _ | addGroupings _ | removeGroupings _ | assign _ _ =>
          exact (Option.some_ne_none _ hchanges).elim

theorem Resembles.step (h : session.Resembles other) (time time' : Timing) {step : Step}
    (hforeign : session.build = .observed → step.writesCache = false) :
    (session.step time step).2.Resembles (other.step time' step).2 := by
  have hhides : session.Hides time step := hides_step h.sound hforeign
  have hhides' : other.Hides time' step := hides_step h.sound_other (h.build_eq ▸ hforeign)
  exact ⟨enforcer_step_resembles h.enforcer time time' step,
    hhides.build.trans (h.build_eq.trans hhides'.build.symm), hhides.sound, hhides'.sound⟩

theorem Resembles.run (h : session.Resembles other) {steps : List (Timing × Step)}
    (hforeign : session.build = .observed → ∀ timed ∈ steps, timed.2.writesCache = false) :
    (session.run steps).2.Resembles (other.run steps).2 := by
  induction steps generalizing session other with
  | nil => exact h
  | cons timed rest ih =>
      obtain ⟨time, step⟩ := timed
      have hfirst : session.build = .observed → step.writesCache = false :=
        fun hobserved => hforeign hobserved _ List.mem_cons_self
      have hbuild : (session.step time step).2.build = session.build :=
        (hides_step h.sound hfirst).build
      refine ih (h.step time time hfirst) fun hobserved later hmem => ?_
      exact hforeign (hbuild ▸ hobserved) later (List.mem_cons_of_mem _ hmem)

/-- Every check is answered alike, at whatever times. -/
def SameChecks (session other : Session) : Prop :=
  ∀ (time time' : Timing) (step : Step), step.isCheck = true →
    (other.step time' step).1 = (session.step time step).1

/-- Every check is answered alike now and, if the same calls of the stores will fail, after all
steps that both sessions take from now on. -/
def ChecksAs (session other : Session) : Prop :=
  session.SameChecks other ∧
    (session.enforcer.store.failures = other.enforcer.store.failures →
      ∀ later, (session.build = .observed → ∀ timed ∈ later, timed.2.writesCache = false) →
        (session.run later).2.SameChecks (other.run later).2)

section

variable (hsound : session.enforcer.CacheSound) (hother : other.enforcer.CacheSound)
  (hsettings : session.enforcer.settings = other.enforcer.settings)
  (hidentity : session.enforcer.identity = other.enforcer.identity)
  (hfailure : session.enforcer.store.viewFailure = other.enforcer.store.viewFailure)
  (hstore : session.enforcer.store.store.Resembles other.enforcer.store.store)

include hsound hother hsettings hidentity hfailure hstore

theorem sameChecks_of_resembles : session.SameChecks other := by
  intro time time' step hcheck
  have hdecides := hsound.decidesAs_of_resembles hother hsettings hidentity hfailure hstore
  exact answer_eq_of_forall_decidesAs hidentity.symm hdecides hcheck

theorem checksAs_of_resembles (hbuild : session.build = other.build)
    (hinterference : session.enforcer.store.interference = other.enforcer.store.interference) :
    session.ChecksAs other := by
  refine ⟨sameChecks_of_resembles hsound hother hsettings hidentity hfailure hstore, ?_⟩
  intro hfailures later hforeign
  have hresembles : session.Resembles other :=
    ⟨⟨⟨hstore, hfailures, hinterference⟩, hsettings, hidentity⟩, hbuild, hsound, hother⟩
  have hlater := hresembles.run hforeign
  have hfailure' : (session.run later).2.enforcer.store.viewFailure =
      (other.run later).2.enforcer.store.viewFailure := by
    rw [FallibleStore.viewFailure, FallibleStore.viewFailure, hlater.enforcer.store.failures_eq]
  exact sameChecks_of_resembles hlater.sound hlater.sound_other hlater.enforcer.settings_eq
    hlater.enforcer.identity_eq hfailure' hlater.enforcer.store.store

end

end Session

end ScopedAccess
