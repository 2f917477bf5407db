import Mathlib.Data.List.Nodup
import ScopedAccess.Proofs.Write.History

/-!
# Stores as lists of rules

A store behaves as three pairs of lists, of the staged, the persisted and the loaded rules. Each
list has its rules in the order in which they were added, and each of them once. A store answers
every operation as the lists do, and its readers find the rows of the loaded lists (`run_refines`).
-/

namespace ScopedAccess

/-! ## Lists of rules -/

section AppendNew

variable {α : Type} [DecidableEq α] {items : List α} {item : α}

def appendNew (items : List α) (item : α) : List α :=
  if item ∈ items then items else items ++ [item]

theorem nodup_appendNew (h : items.Nodup) : (appendNew items item).Nodup := by
  unfold appendNew
  split
  · exact h
  · next hnew => exact List.nodup_append_comm.mp (List.nodup_cons.mpr ⟨hnew, h⟩)

theorem filter_appendNew (p : α → Bool) :
    (appendNew items item).filter p =
      if p item = true ∧ item ∉ items then items.filter p ++ [item] else items.filter p := by
  unfold appendNew
  by_cases hmem : item ∈ items
  · simp [hmem]
  · by_cases hp : p item = true
    · simp [hmem, hp]
    · simp [hmem, hp]

end AppendNew

/-- The policy rules and the grouping rules, in the order in which they were added. -/
structure RuleListing where
  policies : List PolicyRule
  groupings : List GroupingRule
  policies_nodup : policies.Nodup
  groupings_nodup : groupings.Nodup

namespace RuleListing

def empty : RuleListing :=
  ⟨[], [], .nil, .nil⟩

def addPolicy (listing : RuleListing) (rule : PolicyRule) : Bool × RuleListing :=
  (rule ∉ listing.policies, { listing with
    policies := appendNew listing.policies rule
    policies_nodup := nodup_appendNew listing.policies_nodup })

def addGrouping (listing : RuleListing) (rule : GroupingRule) : Bool × RuleListing :=
  (rule ∉ listing.groupings, { listing with
    groupings := appendNew listing.groupings rule
    groupings_nodup := nodup_appendNew listing.groupings_nodup })

def removeGrouping (listing : RuleListing) (rule : GroupingRule) : Bool × RuleListing :=
  (rule ∈ listing.groupings, { listing with
    groupings := listing.groupings.erase rule
    groupings_nodup := listing.groupings_nodup.erase rule })

def rolesOf (listing : RuleListing) (member : Member) : List RoleSubject :=
  (listing.groupings.filter fun rule => rule.member = member).map GroupingRule.role

def rulesOf (listing : RuleListing) (role : RoleSubject) : List PolicyRule :=
  listing.policies.filter fun rule => rule.subject = role

variable {listing : RuleListing}

theorem rulesOf_addPolicy {rule : PolicyRule} {role : RoleSubject} :
    (listing.addPolicy rule).2.rulesOf role =
      if role = rule.subject ∧ rule ∉ listing.policies then listing.rulesOf role ++ [rule]
      else listing.rulesOf role := by
  unfold rulesOf addPolicy
  dsimp only
  rw [filter_appendNew]
  simp only [decide_eq_true_eq, @eq_comm _ rule.subject role]

theorem rolesOf_addGrouping {rule : GroupingRule} {member : Member} :
    (listing.addGrouping rule).2.rolesOf member =
      if member = rule.member ∧ rule ∉ listing.groupings then
        listing.rolesOf member ++ [rule.role]
      else listing.rolesOf member := by
  unfold rolesOf addGrouping
  dsimp only
  rw [filter_appendNew]
  simp only [decide_eq_true_eq, @eq_comm _ rule.member member]
  split
  · rw [List.map_append]
    rfl
  · rfl

theorem rolesOf_removeGrouping {rule : GroupingRule} {member : Member} :
    (listing.removeGrouping rule).2.rolesOf member =
      if member = rule.member then (listing.rolesOf member).filter fun role => role ≠ rule.role
      else listing.rolesOf member := by
  unfold rolesOf removeGrouping
  dsimp only
  rw [listing.groupings_nodup.erase_eq_filter, List.filter_filter]
  split
  · next hmember =>
      -- of this member's rules, the one for that role is the one that is removed
      subst hmember
      rw [List.filter_map, List.filter_filter]
      congr 1
      apply List.filter_congr
      intro other _
      have heq : other = rule ↔ other.member = rule.member ∧ other.role = rule.role := by
        cases other
        cases rule
        simp
      by_cases hother : other.member = rule.member
      · simp [heq, hother, bne, Bool.beq_eq_decide_eq]
      · simp [hother]
  · next hmember =>
      congr 1
      apply List.filter_congr
      intro other _
      by_cases hother : other.member = member
      · have hne : other ≠ rule := fun heq => hmember (hother.symm.trans (heq ▸ rfl))
        simp [hother, hne]
      · simp [hother]

end RuleListing

/-! ## The rows of a rule set -/

/-- The rules of the set are those of the lists, in the same order for every role and member. -/
structure RuleSet.Lists (rules : RuleSet) (listing : RuleListing) : Prop where
  rolesOf_eq : ∀ member, rules.rolesOf member = listing.rolesOf member
  rulesOf_eq : ∀ role, rules.rulesOf role = listing.rulesOf role

namespace RuleSet

variable {rules : RuleSet} {listing : RuleListing}

theorem lists_empty : empty.Lists .empty :=
  ⟨fun _ => rfl, fun _ => rfl⟩

theorem Lists.hasPolicy_iff (h : rules.Lists listing) {rule : PolicyRule} :
    rules.HasPolicy rule ↔ rule ∈ listing.policies := by
  simp [HasPolicy, h.rulesOf_eq, RuleListing.rulesOf]

theorem Lists.hasGrouping_iff (h : rules.Lists listing) {rule : GroupingRule} :
    rules.HasGrouping rule ↔ rule ∈ listing.groupings := by
  simp only [HasGrouping, h.rolesOf_eq, RuleListing.rolesOf, List.mem_map, List.mem_filter,
    decide_eq_true_eq]
  constructor
  · rintro ⟨other, ⟨hmem, hmember⟩, hrole⟩
    have heq : other = rule := by
      cases other
      cases rule
      simp_all
    exact heq ▸ hmem
  · exact fun hmem => ⟨rule, ⟨hmem, rfl⟩, rfl⟩

theorem Lists.addPolicy (h : rules.Lists listing) (rule : PolicyRule) :
    (rules.addPolicy rule).1 = (listing.addPolicy rule).1 ∧
      (rules.addPolicy rule).2.Lists (listing.addPolicy rule).2 := by
  refine ⟨?_, h.rolesOf_eq, fun role => ?_⟩
  · rw [addPolicy_fst]
    simp only [RuleListing.addPolicy, h.hasPolicy_iff]
  · simp only [rulesOf_addPolicy, RuleListing.rulesOf_addPolicy, h.rulesOf_eq, h.hasPolicy_iff]

theorem Lists.addGrouping (h : rules.Lists listing) (rule : GroupingRule) :
    (rules.addGrouping rule).1 = (listing.addGrouping rule).1 ∧
      (rules.addGrouping rule).2.Lists (listing.addGrouping rule).2 := by
  refine ⟨?_, fun member => ?_, h.rulesOf_eq⟩
  · rw [addGrouping_fst]
    simp only [RuleListing.addGrouping, h.hasGrouping_iff]
  · simp only [rolesOf_addGrouping, RuleListing.rolesOf_addGrouping, h.rolesOf_eq,
      h.hasGrouping_iff]

theorem Lists.removeGrouping (h : rules.Lists listing) (rule : GroupingRule) :
    (rules.removeGrouping rule).1 = (listing.removeGrouping rule).1 ∧
      (rules.removeGrouping rule).2.Lists (listing.removeGrouping rule).2 := by
  refine ⟨?_, fun member => ?_, h.rulesOf_eq⟩
  · rw [removeGrouping_fst]
    simp only [RuleListing.removeGrouping, h.hasGrouping_iff]
  · rw [rolesOf_removeGrouping, RuleListing.rolesOf_removeGrouping, h.rolesOf_eq]

end RuleSet

/-! ## Stores of lists -/

inductive StoreOperation where
  | addPolicy (rule : PolicyRule)
  | addGrouping (rule : GroupingRule)
  | removeGrouping (rule : GroupingRule)
  | save
  | load
  deriving DecidableEq

def performAll {σ : Type} (perform : StoreOperation → σ → Option Bool × σ) :
    List StoreOperation → σ → List (Option Bool) × σ
  | [], state => ([], state)
  | operation :: rest, state =>
      let done := perform operation state
      let after := performAll perform rest done.2
      (done.1 :: after.1, after.2)

def Store.perform (operation : StoreOperation) (store : Store) : Option Bool × Store :=
  match operation with
  | .addPolicy rule => (some (store.addPolicy rule).1, (store.addPolicy rule).2)
  | .addGrouping rule => (some (store.addGrouping rule).1, (store.addGrouping rule).2)
  | .removeGrouping rule => (some (store.removeGrouping rule).1, (store.removeGrouping rule).2)
  | .save => (none, store.save)
  | .load => (none, store.load)

/-- What a store is to its users: the lists of rules in its three places. -/
structure ListedStore where
  staged : RuleListing := .empty
  persisted : RuleListing := .empty
  loaded : Option RuleListing := none

/-- Rules are added and removed in the staged lists. To save copies these to the persisted lists,
to load copies the persisted lists to the staged and the loaded ones. -/
def ListedStore.perform (operation : StoreOperation) (store : ListedStore) :
    Option Bool × ListedStore :=
  match operation with
  | .addPolicy rule =>
      (some (store.staged.addPolicy rule).1,
        { store with staged := (store.staged.addPolicy rule).2 })
  | .addGrouping rule =>
      (some (store.staged.addGrouping rule).1,
        { store with staged := (store.staged.addGrouping rule).2 })
  | .removeGrouping rule =>
      (some (store.staged.removeGrouping rule).1,
        { store with staged := (store.staged.removeGrouping rule).2 })
  | .save => (none, { store with persisted := store.staged })
  | .load => (none, { store with staged := store.persisted, loaded := some store.persisted })

namespace Store

/-- The rules in each place of the store are those of the lists in the same place. -/
structure Refines (store : Store) (listed : ListedStore) : Prop where
  staged : store.staged.Lists listed.staged
  persisted : store.persisted.Lists listed.persisted
  loaded : Option.Rel (fun snapshot listing => snapshot.rules.Lists listing)
    store.loaded listed.loaded

variable {store : Store} {listed : ListedStore}

theorem refines_empty : empty.Refines {} :=
  ⟨RuleSet.lists_empty, RuleSet.lists_empty, .none⟩

theorem Refines.perform (h : store.Refines listed) (operation : StoreOperation) :
    (store.perform operation).1 = (listed.perform operation).1 ∧
      (store.perform operation).2.Refines (listed.perform operation).2 := by
  cases operation with
  | addPolicy rule =>
      obtain ⟨hanswer, hstaged⟩ := h.staged.addPolicy rule
      exact ⟨congrArg some hanswer, hstaged, h.persisted, h.loaded⟩
  | addGrouping rule =>
      obtain ⟨hanswer, hstaged⟩ := h.staged.addGrouping rule
      exact ⟨congrArg some hanswer, hstaged, h.persisted, h.loaded⟩
  | removeGrouping rule =>
      obtain ⟨hanswer, hstaged⟩ := h.staged.removeGrouping rule
      exact ⟨congrArg some hanswer, hstaged, h.persisted, h.loaded⟩
  | save => exact ⟨rfl, h.staged, h.staged, h.loaded⟩
  | load => exact ⟨rfl, h.persisted, h.persisted, .some h.persisted⟩

theorem refines_performAll (h : store.Refines listed) (operations : List StoreOperation) :
    (performAll Store.perform operations store).1 =
        (performAll ListedStore.perform operations listed).1 ∧
      (performAll Store.perform operations store).2.Refines
        (performAll ListedStore.perform operations listed).2 := by
  induction operations generalizing store listed with
  | nil => exact ⟨rfl, h⟩
  | cons operation rest ih =>
      obtain ⟨hanswer, hstep⟩ := h.perform operation
      obtain ⟨hanswers, hrest⟩ := ih hstep
      exact ⟨congrArg₂ List.cons hanswer hanswers, hrest⟩

theorem revision_perform (operation : StoreOperation) (store : Store) :
    (store.perform operation).2.revision =
      store.revision + if operation = .load then 1 else 0 := by
  cases operation with
  | load => exact store.nextRevision_eq
  | _ => rfl

theorem revision_performAll (operations : List StoreOperation) (store : Store) :
    (performAll Store.perform operations store).2.revision =
      store.revision + operations.count .load := by
  induction operations generalizing store with
  | nil => rfl
  | cons operation rest ih =>
      have hrest := ih (store.perform operation).2
      rw [revision_perform] at hrest
      rw [List.count_cons]
      simp only [performAll, hrest, beq_iff_eq]
      omega

theorem removeGrouping_addGrouping {rule : GroupingRule} (h : (store.addGrouping rule).1 = true) :
    ((store.addGrouping rule).2.removeGrouping rule).2 = store := by
  have hstaged := RuleSet.removeGrouping_addGrouping h
  simp only [addGrouping, removeGrouping, hstaged]

end Store

/-- Readers of the snapshot find the rows of the lists, without repetition. -/
structure Snapshot.Shows (snapshot : Snapshot) (listing : RuleListing) : Prop where
  userRoles_eq : ∀ email, snapshot.userRoles email = listing.rolesOf (.user email)
  parentRoles_eq : ∀ role, snapshot.parentRoles role = listing.rolesOf (.role role)
  rulesOf_eq : ∀ role, snapshot.rulesOf role = listing.rulesOf role
  nodup_userRoles : ∀ email, (snapshot.userRoles email).Nodup
  nodup_parentRoles : ∀ role, (snapshot.parentRoles role).Nodup
  nodup_rulesOf : ∀ role, (snapshot.rulesOf role).Nodup

theorem RuleSet.Lists.shows {snapshot : Snapshot} {listing : RuleListing}
    (h : snapshot.rules.Lists listing) : snapshot.Shows listing where
  userRoles_eq email := h.rolesOf_eq (.user email)
  parentRoles_eq role := h.rolesOf_eq (.role role)
  rulesOf_eq role := h.rulesOf_eq role
  nodup_userRoles email := snapshot.rules.nodup_rolesOf (.user email)
  nodup_parentRoles role := snapshot.rules.nodup_rolesOf (.role role)
  nodup_rulesOf role := snapshot.rules.nodup_rulesOf role

/-- After any operations on the empty store, it has answered as the lists do and has the rules of
the lists, in all three places. The revision is the number of loads, and readers see the rows of
the loaded lists. To remove a grouping rule that was just added leaves the store as it was. -/
theorem run_refines (operations : List StoreOperation) :
    let done := performAll Store.perform operations .empty
    let listed := performAll ListedStore.perform operations {}
    done.1 = listed.1 ∧ done.2.Refines listed.2 ∧
      done.2.revision = operations.count .load ∧
      (∀ snapshot, done.2.loaded = some snapshot →
        snapshot.revision = operations.count .load ∧
          ∃ listing, listed.2.loaded = some listing ∧ snapshot.Shows listing) ∧
      ∀ rule, (done.2.addGrouping rule).1 = true →
        ((done.2.addGrouping rule).2.removeGrouping rule).2 = done.2 := by
  intro done listed
  obtain ⟨hanswers, hrefines⟩ := Store.refines_performAll Store.refines_empty operations
  have hrevision : done.2.revision = operations.count .load := by
    rw [Store.revision_performAll]
    exact Nat.zero_add _
  refine ⟨hanswers, hrefines, hrevision, fun snapshot hloaded => ⟨?_, ?_⟩, ?_⟩
  · rw [← hrevision, Store.revision, hloaded]
    rfl
  · have hrows := hrefines.loaded
    rw [hloaded] at hrows
    generalize listed.2.loaded = found at hrows
    cases hrows with
    | some hlists => exact ⟨_, rfl, hlists.shows⟩
  · exact fun rule hnew => Store.removeGrouping_addGrouping hnew

theorem run_refines_readding_first :
    let email : Email := ⟨"a@b", by decide, by decide, by decide⟩
    let first : GroupingRule := ⟨.user email, ⟨.view, .every⟩⟩
    let second : GroupingRule := ⟨.user email, ⟨.admin, .every⟩⟩
    let third : GroupingRule := ⟨.role ⟨.view, .every⟩, ⟨.trigger, .every⟩⟩
    let operations : List StoreOperation := [.addGrouping first, .addGrouping second,
      .removeGrouping first, .addGrouping first, .save, .load]
    let store := (performAll Store.perform operations .empty).2
    (∃ snapshot listing, store.loaded = some snapshot ∧ snapshot.revision = 1 ∧
      snapshot.Shows listing ∧ listing.groupings = [second, first]) ∧
    (store.addGrouping third).1 = true ∧
      ((store.addGrouping third).2.removeGrouping third).2 = store := by
  intro email first second third operations store
  obtain ⟨-, -, -, hloaded, hrestored⟩ := run_refines operations
  have hsome : store.loaded.isSome = true := by decide
  obtain ⟨snapshot, hsnapshot⟩ := Option.isSome_iff_exists.mp hsome
  obtain ⟨hrevision, listing, hlisting, hshows⟩ := hloaded snapshot hsnapshot
  have hgroupings : (performAll ListedStore.perform operations {}).2.loaded.map
      RuleListing.groupings = some [second, first] := by decide
  rw [hlisting] at hgroupings
  have hnew : (store.addGrouping third).1 = true := by decide
  exact ⟨⟨snapshot, listing, hsnapshot, hrevision, hshows, Option.some.inj hgroupings⟩, hnew,
    hrestored third hnew⟩

end ScopedAccess
