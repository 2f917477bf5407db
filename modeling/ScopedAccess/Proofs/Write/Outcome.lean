import Mathlib.Data.Finset.Sum
import Mathlib.Data.Finset.SymmDiff
import ScopedAccess.Proofs.Check.Reordering
import ScopedAccess.Proofs.Session.Effects

/-!
# How a write ends

A write makes one call for every change, then one to save and one to load. The first of them that
fails decides how the write ends, and if none fails it counts the rules by which the persisted rules
have become others (`writes_end`).
-/

namespace ScopedAccess

/-! ## Counting rules -/

namespace Change

def rule : Change → PolicyRule ⊕ GroupingRule
  | addPolicy rule => .inl rule
  | addGrouping rule => .inr rule
  | removeGrouping rule => .inr rule

def adds : Change → Bool
  | addPolicy _ => true
  | addGrouping _ => true
  | removeGrouping _ => false

end Change

namespace RuleSet

variable {rules : RuleSet} {change : Change} {changes : List Change}

/-- All rules that are stored, of both sorts. -/
def stored (rules : RuleSet) : Finset (PolicyRule ⊕ GroupingRule) :=
  rules.policyList.toFinset.disjSum rules.groupingList.toFinset

/-- The number of rules that only one of the two stores. -/
def difference (rules other : RuleSet) : Nat :=
  (symmDiff rules.stored other.stored).card

@[simp] theorem inl_mem_stored {rule : PolicyRule} :
    Sum.inl rule ∈ rules.stored ↔ rules.HasPolicy rule := by
  simp [stored, mem_policyList]

@[simp] theorem inr_mem_stored {rule : GroupingRule} :
    Sum.inr rule ∈ rules.stored ↔ rules.HasGrouping rule := by
  simp [stored, mem_groupingList]

theorem sameRules_iff_stored_eq {other : RuleSet} :
    rules.SameRules other ↔ rules.stored = other.stored := by
  constructor
  · intro h
    ext stored
    cases stored with
    | inl rule => rw [inl_mem_stored, inl_mem_stored, h.policies]
    | inr rule => rw [inr_mem_stored, inr_mem_stored, h.groupings]
  · intro h
    constructor
    · intro rule
      rw [← inl_mem_stored, h, inl_mem_stored]
    · intro rule
      rw [← inr_mem_stored, h, inr_mem_stored]

theorem stored_change :
    (rules.change change).stored =
      if change.adds then insert change.rule rules.stored else rules.stored.erase change.rule := by
  ext stored
  cases change with
  | addPolicy added =>
      cases stored with
      | inl rule =>
          simp [RuleSet.change, Change.adds, Change.rule, hasPolicy_addPolicy, or_comm]
      | inr rule => simp [RuleSet.change, Change.adds, Change.rule, HasGrouping]
  | addGrouping added =>
      cases stored with
      | inl rule => simp [RuleSet.change, Change.adds, Change.rule, HasPolicy]
      | inr rule =>
          simp [RuleSet.change, Change.adds, Change.rule, hasGrouping_addGrouping, or_comm]
  | removeGrouping removed =>
      cases stored with
      | inl rule => simp [RuleSet.change, Change.adds, Change.rule, HasPolicy]
      | inr rule =>
          simp [RuleSet.change, Change.adds, Change.rule, hasGrouping_removeGrouping, and_comm]

theorem SameRules.replay {other : RuleSet} (h : rules.SameRules other) (changes : List Change) :
    (rules.replay changes).SameRules (other.replay changes) := by
  induction changes generalizing rules other with
  | nil => exact h
  | cons change rest ih =>
      refine ih (sameRules_iff_stored_eq.mpr ?_)
      rw [stored_change, stored_change, sameRules_iff_stored_eq.mp h]

theorem isChanged_eq :
    rules.isChanged change = (decide (change.rule ∈ rules.stored) != change.adds) := by
  cases change with
  | addPolicy rule => simp [isChanged, addPolicy_fst, Change.rule, Change.adds]
  | addGrouping rule => simp [isChanged, addGrouping_fst, Change.rule, Change.adds]
  | removeGrouping rule => simp [isChanged, removeGrouping_fst, Change.rule, Change.adds]

/-- Additions never take a rule away, so each that makes a difference counts for one rule. -/
theorem countChanged_of_adds (h : ∀ change ∈ changes, change.adds = true) :
    rules.stored ⊆ (rules.replay changes).stored ∧
      rules.countChanged changes = ((rules.replay changes).stored \ rules.stored).card := by
  induction changes generalizing rules with
  | nil => simp [countChanged]
  | cons change rest ih =>
      have hadds : change.adds = true := h change List.mem_cons_self
      obtain ⟨hsub, hcount⟩ := @ih (rules.change change) fun other hmem =>
        h other (List.mem_cons_of_mem _ hmem)
      rw [stored_change, if_pos hadds] at hsub hcount
      rw [replay_cons, countChanged, hcount, isChanged_eq, hadds]
      refine ⟨(Finset.subset_insert _ _).trans hsub, ?_⟩
      by_cases hmem : change.rule ∈ rules.stored
      · simp [hmem]
      · -- one rule more than those which the rest adds
        have hnew : change.rule ∈ ((rules.change change).replay rest).stored \ rules.stored :=
          Finset.mem_sdiff.mpr ⟨hsub (Finset.mem_insert_self _ _), hmem⟩
        rw [Finset.sdiff_insert]
        simpa [hmem] using Finset.card_erase_add_one hnew

theorem countChanged_of_removes (h : ∀ change ∈ changes, change.adds = false) :
    (rules.replay changes).stored ⊆ rules.stored ∧
      rules.countChanged changes = (rules.stored \ (rules.replay changes).stored).card := by
  induction changes generalizing rules with
  | nil => simp [countChanged]
  | cons change rest ih =>
      have hremoves : change.adds = false := h change List.mem_cons_self
      obtain ⟨hsub, hcount⟩ := @ih (rules.change change) fun other hmem =>
        h other (List.mem_cons_of_mem _ hmem)
      rw [stored_change, hremoves, if_neg Bool.false_ne_true] at hsub hcount
      rw [replay_cons, countChanged, hcount, isChanged_eq, hremoves]
      refine ⟨hsub.trans (Finset.erase_subset _ _), ?_⟩
      by_cases hmem : change.rule ∈ rules.stored
      · have hgone : change.rule ∈ rules.stored \ ((rules.change change).replay rest).stored :=
          Finset.mem_sdiff.mpr ⟨hmem, fun hin => Finset.notMem_erase _ _ (hsub hin)⟩
        rw [Finset.erase_sdiff_comm]
        simpa [hmem] using Finset.card_erase_add_one hgone
      · simp [hmem]

theorem countChanged_eq_difference
    (h : (∀ change ∈ changes, change.adds = true) ∨ ∀ change ∈ changes, change.adds = false) :
    rules.countChanged changes = rules.difference (rules.replay changes) := by
  unfold difference
  rcases h with hadds | hremoves
  · obtain ⟨hsub, hcount⟩ := @countChanged_of_adds rules changes hadds
    rw [hcount, symmDiff_of_le hsub]
  · obtain ⟨hsub, hcount⟩ := @countChanged_of_removes rules changes hremoves
    rw [hcount, symmDiff_of_ge hsub]

end RuleSet

/-! ## How a write can end -/

def writeCalls (changes : List Change) : List StoreCall :=
  changes.map Change.call ++ [.save, .load]

/-- The changes are persisted on top of what was staged, and nothing else is staged. -/
structure Store.Persisted (before after : Store) (changes : List Change) : Prop where
  persisted_eq : after.persisted = before.staged.replay changes
  staged_eq : after.staged = after.persisted
  sameRules : after.persisted.SameRules (before.persisted.replay changes)
  readsAs : before.staged.ReadsAs before.persisted →
    after.persisted.ReadsAs (before.persisted.replay changes)

theorem Store.persisted_of_eq {before after : Store} {changes : List Change}
    (hclean : before.staged.SameRules before.persisted)
    (hpersisted : after.persisted = before.staged.replay changes)
    (hstaged : after.staged = after.persisted) : before.Persisted after changes where
  persisted_eq := hpersisted
  staged_eq := hstaged
  sameRules := by
    rw [hpersisted]
    exact hclean.replay changes
  readsAs h := by
    rw [hpersisted]
    exact h.replay changes

/-- How a write of the changes can end, with its result and the store as it is then. -/
inductive WriteEnds (before : FallibleStore) (changes : List Change) :
    Except Error Nat → FallibleStore → Prop where
  | done {after : FallibleStore} {count : Nat}
      (through : (ArmedFailure.strikeAll (writeCalls changes) before.failures).1 = none)
      (persisted : before.store.Persisted after.store changes)
      (loaded : after.store.loaded =
        some ⟨before.store.revision + 1, after.store.persisted⟩)
      (counted : count = before.store.persisted.difference after.store.persisted) :
      WriteEnds before changes (.ok count) after
  /-- A call that stages or the one that saves is the first to fail. What was staged is dropped,
  unless the load for that fails too. -/
  | unsaved {after : FallibleStore} {passed : Nat} {message : String}
      (fails : (ArmedFailure.strikeAll (writeCalls changes) before.failures).1 =
        some (passed, message))
      (early : passed ≤ changes.length)
      (persisted : after.store.persisted = before.store.persisted)
      (loaded : after.store.loaded = before.store.loaded ∨
        after.store.staged = before.store.persisted ∧
          after.store.loaded = some ⟨before.store.revision + 1, before.store.persisted⟩) :
      WriteEnds before changes (.error (.store message)) after
  /-- The call that loads is the first to fail. -/
  | unloaded {after : FallibleStore} {message : String}
      (fails : (ArmedFailure.strikeAll (writeCalls changes) before.failures).1 =
        some (changes.length + 1, message))
      (persisted : before.store.Persisted after.store changes)
      (loaded : after.store.loaded = before.store.loaded) :
      WriteEnds before changes (.error (.store message)) after

namespace Enforcer

variable {enforcer : Enforcer} {changes : List Change}

/-- A write whose submission fails is rolled back, as far as the load for that gets through. -/
theorem ends_of_rollback {middle : FallibleStore} {passed : Nat} {message : String}
    (hpersisted : middle.store.persisted = enforcer.store.store.persisted)
    (hloaded : middle.store.loaded = enforcer.store.store.loaded)
    (hfails : (ArmedFailure.strikeAll (writeCalls changes) enforcer.store.failures).1 =
      some (passed, message))
    (hearly : passed ≤ changes.length) :
    WriteEnds enforcer.store changes (.error (.store message)) middle.load.2 := by
  have hrevision : middle.store.revision = enforcer.store.store.revision := by
    rw [Store.revision, Store.revision, hloaded]
  rcases middle.load_cases with ⟨other, failures, hload⟩ | ⟨failures, hload⟩
  · rw [hload]
    exact .unsaved hfails hearly hpersisted (Or.inl hloaded)
  · rw [hload]
    refine .unsaved hfails hearly hpersisted (Or.inr ⟨hpersisted, ?_⟩)
    rw [← hpersisted, ← hrevision, ← Store.nextRevision_eq]
    rfl

/-- Once all changes are staged, the calls that are left are one to save and one to load. -/
theorem ends_commit {left : List ArmedFailure} {count : Nat}
    (hclean : enforcer.store.store.staged.SameRules enforcer.store.store.persisted)
    (hcalls : (ArmedFailure.strikeAll (writeCalls changes) enforcer.store.failures).1 =
      (ArmedFailure.strikeAll [.save, .load] left).1.map fun first =>
        (first.1 + changes.length, first.2))
    (hcount : count = enforcer.store.store.persisted.difference
      (enforcer.store.store.staged.replay changes)) :
    let staged := { enforcer.store.store with
      staged := enforcer.store.store.staged.replay changes }
    let committed := commit { enforcer with
      store := { enforcer.store with store := staged, failures := left } }
    WriteEnds enforcer.store changes (committed.1.map fun _ => count) committed.2.store := by
  unfold commit FallibleStore.save FallibleStore.attempt
  dsimp only
  cases hsave : ArmedFailure.strike .save left with
  | mk message left' =>
      cases message with
      | some message =>
          refine ends_of_rollback rfl rfl ?_ le_rfl
          simp [hcalls, ArmedFailure.strikeAll, hsave]
      | none =>
          -- what is staged is persisted now, whether it is loaded or not
          dsimp only
          unfold reload FallibleStore.load FallibleStore.attempt
          dsimp only
          cases hload : ArmedFailure.strike .load left' with
          | mk message left'' =>
              cases message with
              | some message =>
                  refine .unloaded ?_ (Store.persisted_of_eq hclean rfl rfl) rfl
                  simp [hcalls, ArmedFailure.strikeAll, hsave, hload, Nat.add_comm]
              | none =>
                  refine .done ?_ (Store.persisted_of_eq hclean rfl rfl) ?_ hcount
                  · simp [hcalls, ArmedFailure.strikeAll, hsave, hload]
                  · rw [← Store.nextRevision_eq]
                    rfl

theorem ends_write (hclean : enforcer.store.store.staged.SameRules enforcer.store.store.persisted)
    (hsort : (∀ change ∈ changes, change.adds = true) ∨ ∀ change ∈ changes, change.adds = false) :
    WriteEnds enforcer.store changes (enforcer.write FallibleStore.stage changes).1
      (enforcer.write FallibleStore.stage changes).2.store := by
  have hcalls := ArmedFailure.strikeAll_append (changes.map Change.call) [.save, .load]
    enforcer.store.failures
  rw [List.length_map] at hcalls
  have hcount : enforcer.store.store.staged.countChanged changes =
      enforcer.store.store.persisted.difference (enforcer.store.store.staged.replay changes) := by
    rw [RuleSet.countChanged_eq_difference hsort, RuleSet.difference, RuleSet.difference,
      RuleSet.sameRules_iff_stored_eq.mp hclean]
  unfold write
  rw [FallibleStore.stageAll_eq]
  cases hstage : ArmedFailure.strikeAll (changes.map Change.call) enforcer.store.failures with
  | mk first left =>
      rw [hstage] at hcalls
      cases first with
      | some first =>
          -- only calls that stage were made
          have hlt : first.1 < (changes.map Change.call).length :=
            ArmedFailure.lt_length_of_strikeAll (congrArg Prod.fst hstage)
          rw [List.length_map] at hlt
          exact ends_of_rollback rfl rfl (congrArg Prod.fst hcalls) hlt.le
      | none => exact ends_commit hclean (congrArg Prod.fst hcalls) hcount

/-- If the rules that are staged are the persisted ones, in whatever order, every write ends as the
first of its calls that fails says. Default rules that cannot be generated change nothing. -/
theorem writes_end (enforcer : Enforcer)
    (hclean : enforcer.store.store.staged.SameRules enforcer.store.store.persisted) :
    (∀ groups, WriteEnds enforcer.store ((groups.flatMap RuleGroup.installable).map .addPolicy)
      (enforcer.install groups).1 (enforcer.install groups).2.store) ∧
    (∀ rules, WriteEnds enforcer.store (rules.map .addGrouping)
      (enforcer.addGroupings rules).1 (enforcer.addGroupings rules).2.store) ∧
    (∀ rules, WriteEnds enforcer.store (rules.map .removeGrouping)
      (enforcer.removeGroupings rules).1 (enforcer.removeGroupings rules).2.store) ∧
    ∀ team entity environment fault,
      DefaultRules.generateAll team entity environment = .error fault →
      enforcer.installDefaults team entity environment =
        (.error (.generation fault), enforcer) := by
  refine ⟨fun groups => ?_, fun rules => ?_, fun rules => ?_, ?_⟩
  · rw [install_eq]
    exact ends_write hclean (Or.inl (List.forall_mem_map.mpr fun _ _ => rfl))
  · rw [addGroupings_eq]
    exact ends_write hclean (Or.inl (List.forall_mem_map.mpr fun _ _ => rfl))
  · rw [removeGroupings_eq]
    exact ends_write hclean (Or.inr (List.forall_mem_map.mpr fun _ _ => rfl))
  · intro team entity environment fault hgenerate
    unfold installDefaults
    rw [hgenerate]

theorem writes_end_when_calls_fail :
    let email : Email := ⟨"a@b", by decide, by decide, by decide⟩
    let old : GroupingRule := ⟨.user email, ⟨.view, .every⟩⟩
    let other : GroupingRule := ⟨.user email, ⟨.manager, .every⟩⟩
    let new : GroupingRule := ⟨.user email, ⟨.admin, .every⟩⟩
    let group : RuleGroup :=
      ⟨⟨.view, .every⟩, [⟨⟨.view, .every⟩, .team, .get, .parse "dev", .allow⟩]⟩
    let persisted := ((RuleSet.empty.addGrouping old).2.addGrouping other).2
    let staged := ((persisted.removeGrouping old).2.addGrouping old).2
    let store : Store := { staged, persisted }
    let calm : Enforcer := { store := { store } }
    let unsavable : Enforcer := { store := { store, failures := [⟨.save, 0, "disk full"⟩] } }
    let unloadable : Enforcer := { store := { store, failures := [⟨.load, 0, "offline"⟩] } }
    staged ≠ persisted ∧ staged.SameRules persisted ∧
      WriteEnds calm.store ([new, old, new].map .addGrouping) (.ok 1)
        (calm.addGroupings [new, old, new]).2.store ∧
      WriteEnds unsavable.store (([group].flatMap RuleGroup.installable).map .addPolicy)
        (.error (.store "disk full")) (unsavable.install [group]).2.store ∧
      WriteEnds unloadable.store ([old].map .removeGrouping)
        (.error (.store "offline")) (unloadable.removeGroupings [old]).2.store := by
  intro email old other new group persisted staged store calm unsavable unloadable
  have hsame : staged.SameRules persisted := RuleSet.sameRules_readd (by decide)
  have hadded : (calm.addGroupings [new, old, new]).1 = .ok 1 := by
    dsimp only [calm, store, staged, persisted, new, other, old, email]
    cbv
  have hinstalled : (unsavable.install [group]).1 = .error (.store "disk full") := by
    dsimp only [unsavable, store, staged, persisted, group, other, old, email]
    cbv
  have hremoved : (unloadable.removeGroupings [old]).1 = .error (.store "offline") := by
    dsimp only [unloadable, store, staged, persisted, other, old, email]
    cbv
  refine ⟨by decide, hsame, ?_, ?_, ?_⟩
  · rw [← hadded]
    exact (writes_end calm hsame).2.1 [new, old, new]
  · rw [← hinstalled]
    exact (writes_end unsavable hsame).1 [group]
  · rw [← hremoved]
    exact (writes_end unloadable hsame).2.2.1 [old]

end Enforcer

end ScopedAccess
