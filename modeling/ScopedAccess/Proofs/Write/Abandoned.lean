import ScopedAccess.Proofs.Cache.Soundness
import ScopedAccess.Proofs.Session.Effects

/-!
# Abandoned changes

What a write has staged that fails to be saved should never be seen. It is seen if the load that
should drop it fails too and another write is saved on top of it; otherwise readers see exactly the
saved writes, in order and each in full (`faithful_iff_clean`).
-/

namespace ScopedAccess

/-! ## What becomes of the persisted rules -/

/-- What is persisted reads as the writes of the list, each in full, and what readers see reads as
some of the first of them. -/
structure Store.Faithful (store : Store) (writes : List (List Change)) : Prop where
  persisted : store.persisted.ReadsAs (RuleSet.empty.replay writes.flatten)
  loaded : ∀ snapshot, store.loaded = some snapshot →
    ∃ earlier, earlier <+: writes ∧
      snapshot.rules.ReadsAs (RuleSet.empty.replay earlier.flatten)

/-- From one store to the next, `rules` are what is persisted then, and readers see what they saw
before or those rules. Nobody else is about to change them. -/
structure FallibleStore.Persists (before after : FallibleStore) (rules : RuleSet) : Prop where
  quiet : after.interference = none
  persisted : after.store.persisted = rules
  loaded : after.store.loaded = before.store.loaded ∨
    ∃ revision, after.store.loaded = some ⟨revision, rules⟩

namespace FallibleStore

variable {fallible : FallibleStore}

theorem Persists.of_loaded_eq {before middle after : FallibleStore} {rules : RuleSet}
    (h : middle.Persists after rules) (hloaded : middle.store.loaded = before.store.loaded) :
    before.Persists after rules :=
  ⟨h.quiet, h.persisted, hloaded ▸ h.loaded⟩

theorem persists_load (hquiet : fallible.interference = none) :
    fallible.Persists fallible.load.2 fallible.store.persisted := by
  rcases fallible.load_cases with ⟨message, failures, hload⟩ | ⟨failures, hload⟩
  · rw [hload]
    exact ⟨hquiet, rfl, Or.inl rfl⟩
  · rw [hload]
    exact ⟨hquiet, rfl, Or.inr ⟨fallible.store.nextRevision, rfl⟩⟩

theorem persists_view (hquiet : fallible.interference = none) :
    fallible.Persists fallible.view.2 fallible.store.persisted := by
  rw [view_snd_of_quiet hquiet]
  exact ⟨hquiet, rfl, Or.inl rfl⟩

theorem persists_submit_load (changes : List Change) (hquiet : fallible.interference = none) :
    fallible.Persists (fallible.submit changes).2.load.2
      (if (fallible.submit changes).1 then fallible.store.staged.replay changes
        else fallible.store.persisted) := by
  have hcases := fallible.submit_cases changes
  generalize fallible.submit changes = submitted at hcases ⊢
  rcases hcases with ⟨staged, failures, rfl⟩ | ⟨failures, rfl⟩
  · refine .of_loaded_eq (persists_load ?_) rfl
    exact hquiet
  · refine .of_loaded_eq (persists_load ?_) rfl
    exact hquiet

theorem Persists.faithful {before after : FallibleStore} {rules : RuleSet}
    {writes more : List (List Change)} (h : before.Persists after rules)
    (hfaithful : before.store.Faithful writes)
    (hrules : rules.ReadsAs (RuleSet.empty.replay (writes ++ more).flatten)) :
    after.store.Faithful (writes ++ more) := by
  have hpersisted : after.store.persisted.ReadsAs
      (RuleSet.empty.replay (writes ++ more).flatten) := by
    rw [h.persisted]
    exact hrules
  refine ⟨hpersisted, fun snapshot hloaded => ?_⟩
  rcases h.loaded with hsame | ⟨revision, hnew⟩
  · obtain ⟨earlier, hearlier, hreads⟩ := hfaithful.loaded snapshot (hsame.symm.trans hloaded)
    exact ⟨earlier, hearlier.trans (List.prefix_append writes more), hreads⟩
  · -- a new load shows what is persisted, so all of the writes
    cases hnew.symm.trans hloaded
    exact ⟨writes ++ more, List.prefix_refl _, hrules⟩

/-- Nothing is staged that is not persisted, and the next load will get through. -/
structure Settled (fallible : FallibleStore) : Prop where
  quiet : fallible.interference = none
  spares : fallible.Spares .load
  staged_eq : fallible.store.staged = fallible.store.persisted

theorem Settled.of_load (hspares : fallible.Spares .load)
    (hquiet : fallible.interference = none) : fallible.load.2.Settled := by
  have hload := hspares.attempt_eq fun store => ((), store.load)
  have hstaged : fallible.load.2.store.staged = fallible.load.2.store.persisted := by
    rw [load, hload]
    rfl
  exact ⟨(persists_load hquiet).quiet, hspares.attempt .load _, hstaged⟩

theorem Settled.view (h : fallible.Settled) : fallible.view.2.Settled := by
  rw [view_snd_of_quiet h.quiet]
  exact ⟨h.quiet, ArmedFailure.call_ne_of_strike h.spares, h.staged_eq⟩

theorem Settled.submit_load (h : fallible.Settled) (changes : List Change) :
    (fallible.submit changes).2.load.2.Settled := by
  have hquiet : (fallible.submit changes).2.interference = none := by
    rcases fallible.submit_cases changes with ⟨staged, failures, hsubmit⟩ | ⟨failures, hsubmit⟩
    · rw [hsubmit]
      exact h.quiet
    · rw [hsubmit]
      exact h.quiet
  exact .of_load (h.spares.submit changes) hquiet

end FallibleStore

namespace Session

/-! ## Saved writes -/

def Step.failsLoad : Step → Bool
  | .arm failure => failure.call = .load
  | _ => false

variable {session : Session} {time : Timing} {step : Step}

/-- The changes that the step gets persisted, if it is a write whose submission gets through. -/
def saved (session : Session) (step : Step) : Option (List Change) :=
  step.changes?.filter fun changes => (session.enforcer.store.submit changes).1

def savedWrites (session : Session) : List (Timing × Step) → List (List Change)
  | [] => []
  | (time, step) :: rest =>
      (session.saved step).toList ++ savedWrites (session.step time step).2 rest

/-- A step persists the staged rules with the changes that it saves, or it persists nothing. -/
theorem persists_step (hquiet : session.enforcer.store.interference = none)
    (hown : step.isForeign = false) :
    session.enforcer.store.Persists (session.step time step).2.enforcer.store
      (match session.saved step with
        | some changes => session.enforcer.store.store.staged.replay changes
        | none => session.enforcer.store.store.persisted) := by
  have hleaves := session.leaves_step time step
  generalize (session.step time step).2.enforcer = after at hleaves ⊢
  unfold saved
  cases hleaves with
  | write changes hchanges =>
      have hsubmit := FallibleStore.persists_submit_load changes hquiet
      rw [Enforcer.store_write, hchanges]
      cases hsaved : (session.enforcer.store.submit changes).1 with
      | true =>
          rw [hsaved] at hsubmit
          simpa [Option.filter, hsaved] using hsubmit
      | false =>
          rw [hsaved] at hsubmit
          simpa [Option.filter, hsaved] using hsubmit
  | reload hnone =>
      rw [Enforcer.store_reload, hnone]
      exact FallibleStore.persists_load hquiet
  | look hnone email =>
      obtain ⟨cache, hafter⟩ := session.enforcer.effectiveRules_snd time email
      rw [hafter, hnone]
      exact FallibleStore.persists_view hquiet
  | rest hnone cache identity =>
      rw [hnone]
      exact ⟨hquiet, rfl, Or.inl rfl⟩
  | arm failure harm =>
      rw [harm]
      exact ⟨hquiet, rfl, Or.inl rfl⟩
  | foreign hforeign store => simp [hforeign] at hown

theorem failed_of_not_saved {changes : List Change} (hwrite : step.changes? = some changes)
    (hlost : session.saved step = none) :
    ∃ message, (session.step time step).1 = .failed (.store message) := by
  have hsubmit : (session.enforcer.store.submit changes).1 = false := by
    simpa [saved, hwrite, Option.filter] using hlost
  obtain ⟨answer, hstep⟩ := @step_of_changes session time step changes hwrite
  obtain ⟨message, herror⟩ := Enforcer.write_error_of_submit hsubmit
  refine ⟨message, ?_⟩
  rw [hstep, herror]
  rfl

/-! ## Runs -/

/-- No write is saved over staged rules from which it makes what reads as anything else than what
it makes from the persisted ones. -/
def Clean (session : Session) : List (Timing × Step) → Prop
  | [] => True
  | (time, step) :: rest =>
      (∀ changes, session.saved step = some changes →
        (session.enforcer.store.store.staged.replay changes).ReadsAs
          (session.enforcer.store.store.persisted.replay changes)) ∧
        Clean (session.step time step).2 rest

theorem faithful_step_iff (hquiet : session.enforcer.store.interference = none)
    (hown : step.isForeign = false) {writes : List (List Change)}
    (hfaithful : session.enforcer.store.store.Faithful writes) :
    (session.step time step).2.enforcer.store.store.Faithful
        (writes ++ (session.saved step).toList) ↔
      ∀ changes, session.saved step = some changes →
        (session.enforcer.store.store.staged.replay changes).ReadsAs
          (session.enforcer.store.store.persisted.replay changes) := by
  have hstep := @persists_step session time step hquiet hown
  have happend (changes : List Change) :
      (session.enforcer.store.store.persisted.replay changes).ReadsAs
        (RuleSet.empty.replay (writes ++ [changes]).flatten) := by
    rw [List.flatten_append, List.flatten_singleton, RuleSet.replay_append]
    exact hfaithful.persisted.replay changes
  cases hsaved : session.saved step with
  | none =>
      rw [hsaved] at hstep
      constructor
      · intro _ changes hchanges
        exact nomatch hchanges
      · intro _
        apply hstep.faithful hfaithful
        rw [Option.toList_none, List.append_nil]
        exact hfaithful.persisted
  | some changes =>
      rw [hsaved] at hstep
      constructor
      · intro hafter other hother
        cases hother
        -- what is persisted comes from the staged rules, what it should be from the persisted ones
        have hpersisted := hafter.persisted
        rw [hstep.persisted, Option.toList_some] at hpersisted
        exact hpersisted.trans (happend changes).symm
      · intro hsame
        apply hstep.faithful hfaithful
        rw [Option.toList_some]
        exact (hsame changes rfl).trans (happend changes)

theorem faithful_run_iff (session : Session) (steps : List (Timing × Step))
    (hquiet : session.enforcer.store.interference = none)
    (hown : ∀ timed ∈ steps, timed.2.isForeign = false) {writes : List (List Change)}
    (hfaithful : session.enforcer.store.store.Faithful writes) :
    (∀ earlier, earlier <+: steps →
      (session.run earlier).2.enforcer.store.store.Faithful
        (writes ++ session.savedWrites earlier)) ↔ session.Clean steps := by
  induction steps generalizing session writes with
  | nil =>
      constructor
      · intro _
        trivial
      · intro _ earlier hearlier
        rw [List.prefix_nil.mp hearlier, savedWrites, List.append_nil]
        exact hfaithful
  | cons timed rest ih =>
      obtain ⟨time, step⟩ := timed
      have hfirst : step.isForeign = false := hown (time, step) List.mem_cons_self
      have hrest : ∀ timed ∈ rest, timed.2.isForeign = false :=
        fun timed hmem => hown timed (List.mem_cons_of_mem _ hmem)
      have hquiet' := (@persists_step session time step hquiet hfirst).quiet
      have hiff := @faithful_step_iff session time step hquiet hfirst writes hfaithful
      -- a longer start of the run is the first step and then a start of what follows it
      constructor
      · intro hall
        have hafter := hall [(time, step)] ⟨rest, rfl⟩
        simp only [savedWrites, List.append_nil] at hafter
        have hclean : Clean (session.step time step).2 rest := by
          apply (ih _ hquiet' hrest hafter).mp
          intro earlier hearlier
          have hlater := hall ((time, step) :: earlier)
            (List.cons_prefix_cons.mpr ⟨rfl, hearlier⟩)
          rw [savedWrites, ← List.append_assoc] at hlater
          exact hlater
        exact ⟨hiff.mp hafter, hclean⟩
      · intro hclean earlier hearlier
        have hafter := hiff.mpr hclean.1
        cases earlier with
        | nil =>
            rw [savedWrites, List.append_nil]
            exact hfaithful
        | cons first earlier =>
            obtain ⟨rfl, htail⟩ := List.cons_prefix_cons.mp hearlier
            rw [savedWrites, ← List.append_assoc]
            exact (ih _ hquiet' hrest hafter).mpr hclean.2 earlier htail

/-! ## Loads that never fail -/

theorem settled_step (h : session.enforcer.store.Settled) (hown : step.isForeign = false)
    (hload : step.failsLoad = false) :
    (session.step time step).2.enforcer.store.Settled := by
  have hleaves := session.leaves_step time step
  generalize (session.step time step).2.enforcer = after at hleaves ⊢
  cases hleaves with
  | write changes hchanges =>
      rw [Enforcer.store_write]
      exact h.submit_load changes
  | reload hnone =>
      rw [Enforcer.store_reload]
      exact .of_load h.spares h.quiet
  | look hnone email =>
      obtain ⟨cache, hafter⟩ := session.enforcer.effectiveRules_snd time email
      rw [hafter]
      exact h.view
  | rest hnone cache identity => exact h
  | arm failure harm =>
      have hcall : failure.call ≠ .load := by
        rw [harm] at hload
        exact of_decide_eq_false hload
      refine ⟨h.quiet, fun armed hmem => ?_, h.staged_eq⟩
      rcases List.mem_append.mp hmem with hmem | hmem
      · exact h.spares armed hmem
      · rw [List.mem_singleton.mp hmem]
        exact hcall
  | foreign hforeign store => simp [hforeign] at hown

theorem clean_of_settled (session : Session) (steps : List (Timing × Step))
    (h : session.enforcer.store.Settled) (hown : ∀ timed ∈ steps, timed.2.isForeign = false)
    (hloads : ∀ timed ∈ steps, timed.2.failsLoad = false) :
    session.Clean steps := by
  induction steps generalizing session with
  | nil => trivial
  | cons timed rest ih =>
      have hafter := @settled_step session timed.1 timed.2 h (hown timed List.mem_cons_self)
        (hloads timed List.mem_cons_self)
      have hown' : ∀ other ∈ rest, other.2.isForeign = false :=
        fun other hmem => hown other (List.mem_cons_of_mem _ hmem)
      have hloads' : ∀ other ∈ rest, other.2.failsLoad = false :=
        fun other hmem => hloads other (List.mem_cons_of_mem _ hmem)
      constructor
      · intro changes _
        rw [h.staged_eq]
        exact .refl _
      · exact ih _ hafter hown' hloads'

/-! ## Sessions from the start -/

/-- Throughout a session readers see the saved writes, in order and each in full, exactly if the
session is clean; and it is if no load is made to fail. A write that is not saved is answered with
the error of a call that failed. -/
theorem faithful_iff_clean (config : Config) (build : Build) (identity : Identity)
    (steps : List (Timing × Step)) (hown : ∀ timed ∈ steps, timed.2.isForeign = false) :
    ((∀ earlier, earlier <+: steps →
        ((ofConfig config build identity).run earlier).2.enforcer.store.store.Faithful
          ((ofConfig config build identity).savedWrites earlier)) ↔
      (ofConfig config build identity).Clean steps) ∧
    ((∀ timed ∈ steps, timed.2.failsLoad = false) →
      (ofConfig config build identity).Clean steps) ∧
    ∀ earlier time step changes, earlier ++ [(time, step)] <+: steps →
      step.changes? = some changes →
      ((ofConfig config build identity).run earlier).2.saved step = none →
      ∃ message, (((ofConfig config build identity).run earlier).2.step time step).1 =
        .failed (.store message) := by
  have hstart : (ofConfig config build identity).enforcer.store = {} := by
    cases build <;> rfl
  have hsettled : (ofConfig config build identity).enforcer.store.Settled := by
    rw [hstart]
    exact ⟨rfl, fun failure hmem => (nomatch hmem), rfl⟩
  have hfaithful : (ofConfig config build identity).enforcer.store.store.Faithful [] := by
    rw [hstart]
    exact ⟨.refl _, fun snapshot hloaded => nomatch hloaded⟩
  refine ⟨?_, ?_, ?_⟩
  · exact faithful_run_iff _ steps hsettled.quiet hown hfaithful
  · exact clean_of_settled _ steps hsettled hown
  · intro earlier time step changes _ hwrite hlost
    exact failed_of_not_saved hwrite hlost

theorem faithful_of_failed_save :
    let rule : GroupingRule :=
      ⟨.user ⟨"a@b", by decide, by decide, by decide⟩, ⟨.view, .every⟩⟩
    let steps : List (Timing × Step) := clocked
      [.arm ⟨.save, 0, "disk full"⟩, .addGroupings [rule], .reload, .addGroupings [rule]]
    (∀ timed ∈ steps, timed.2.isForeign = false) ∧
      (∀ timed ∈ steps, timed.2.failsLoad = false) ∧
      (∀ earlier, earlier <+: steps →
        ((ofConfig {} .cached none).run earlier).2.enforcer.store.store.Faithful
          ((ofConfig {} .cached none).savedWrites earlier)) ∧
      ((ofConfig {} .cached none).run (steps.take 1)).2.saved (.addGroupings [rule]) = none ∧
      ∃ message, (((ofConfig {} .cached none).run (steps.take 1)).2.step ⟨1, 1⟩
        (.addGroupings [rule])).1 = .failed (.store message) := by
  intro rule steps
  have hown : ∀ timed ∈ steps, timed.2.isForeign = false := by decide
  have hloads : ∀ timed ∈ steps, timed.2.failsLoad = false := by decide
  have hlost : ((ofConfig {} .cached none).run (steps.take 1)).2.saved (.addGroupings [rule]) =
      none := by rfl
  obtain ⟨hiff, hclean, hfails⟩ := faithful_iff_clean {} .cached none steps hown
  exact ⟨hown, hloads, hiff.mpr (hclean hloads), hlost,
    hfails (steps.take 1) ⟨1, 1⟩ (.addGroupings [rule]) _ ⟨_, rfl⟩ rfl hlost⟩

/-- If the load fails that should have dropped the changes of an unsaved write, readers see them
with the next write, and see no choice of the saved writes. -/
theorem abandoned_write_resurfaces :
    let email : Email := ⟨"a@b", by decide, by decide, by decide⟩
    let abandoned : GroupingRule := ⟨.user email, ⟨.admin, .every⟩⟩
    let next : GroupingRule := ⟨.user email, ⟨.view, .every⟩⟩
    let steps : List (Timing × Step) := clocked
      [.arm ⟨.save, 0, "disk full"⟩, .arm ⟨.load, 0, "disk gone"⟩, .addGroupings [abandoned],
        .assign email ⟨.view, .every⟩]
    let session := ofConfig {} .cached none
    (∀ timed ∈ steps, timed.2.isForeign = false) ∧
      (session.run steps).1 =
        [.nothing, .nothing, .failed (.store "disk full"), .flag true] ∧
      session.savedWrites steps = [[.addGrouping next]] ∧
      ∃ snapshot, (session.run steps).2.enforcer.store.store.loaded = some snapshot ∧
        ∀ writes : List (List Change), writes.Sublist (session.savedWrites steps) →
          ¬ snapshot.rules.ReadsAs (RuleSet.empty.replay writes.flatten) := by
  intro email abandoned next steps session
  have hsaved : session.savedWrites steps = [[.addGrouping next]] := by rfl
  refine ⟨by decide, by rfl, hsaved, _, rfl, fun writes hsublist hreads => ?_⟩
  have hroles := hreads.rolesOf_eq (.user email)
  rw [hsaved] at hsublist
  rcases List.sublist_cons_iff.mp hsublist with hnone | ⟨rest, rfl, hrest⟩
  · rw [List.sublist_nil.mp hnone] at hroles
    exact absurd hroles (by decide)
  · rw [List.sublist_nil.mp hrest] at hroles
    exact absurd hroles (by decide)

end Session

end ScopedAccess
