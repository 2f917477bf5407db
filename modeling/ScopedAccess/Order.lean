/-!
# Sorted lists

The form in which a collection of identifiers, rules or objects is shown: ascending in the order
of its type, and each member once where the collection is a set (`pairwise_lt_sortedDistinct`).
-/

namespace ScopedAccess

/-- Of every run of equal neighbours, the first. -/
def dropRepeats {α : Type} [DecidableEq α] : List α → List α
  | [] => []
  | a :: rest =>
      match dropRepeats rest with
      | [] => [a]
      | b :: others => if a = b then a :: others else a :: b :: others

def sorted {α : Type} [Ord α] (items : List α) : List α :=
  items.mergeSort fun a b => (compare a b).isLE

def sortedDistinct {α : Type} [Ord α] [DecidableEq α] (items : List α) : List α :=
  dropRepeats (sorted items)

theorem mem_dropRepeats {α : Type} [DecidableEq α] {items : List α} {x : α} :
    x ∈ dropRepeats items ↔ x ∈ items := by
  induction items with
  | nil => simp [dropRepeats]
  | cons a rest ih =>
      unfold dropRepeats
      cases hrest : dropRepeats rest with
      | nil =>
          rw [hrest] at ih
          simp [← ih]
      | cons b others =>
          rw [hrest] at ih
          by_cases hab : a = b
          · simp [hab, ← ih]
          · simp [hab, ← ih]

@[simp] theorem mem_sortedDistinct {α : Type} [Ord α] [DecidableEq α] {items : List α} {x : α} :
    x ∈ sortedDistinct items ↔ x ∈ items := by
  rw [sortedDistinct, mem_dropRepeats, sorted, List.mem_mergeSort]

theorem pairwise_sorted {α : Type} [Ord α] [Std.TransOrd α] (items : List α) :
    (sorted items).Pairwise fun a b => (compare a b).isLE = true := by
  have htotal (a b : α) : ((compare a b).isLE || (compare b a).isLE) = true := by
    rw [@Std.OrientedCmp.eq_swap α compare _ b a]
    cases compare a b <;> rfl
  exact List.pairwise_mergeSort (fun a b c => Std.TransCmp.isLE_trans) htotal items

section Ascending

variable {α : Type} [Ord α] [Std.TransOrd α] [Std.LawfulEqOrd α] [DecidableEq α] {items : List α}

theorem pairwise_lt_dropRepeats (h : items.Pairwise fun a b => (compare a b).isLE = true) :
    (dropRepeats items).Pairwise fun a b => compare a b = .lt := by
  induction items with
  | nil => exact .nil
  | cons a rest ih =>
      obtain ⟨hfirst, hrest⟩ := List.pairwise_cons.mp h
      have hstrict := ih hrest
      have hmem : ∀ b, b ∈ dropRepeats rest → (compare a b).isLE = true :=
        fun b hb => hfirst b (mem_dropRepeats.mp hb)
      unfold dropRepeats
      cases hdrop : dropRepeats rest with
      | nil => exact List.pairwise_singleton _ a
      | cons b others =>
          rw [hdrop] at hstrict hmem
          by_cases hab : a = b
          · simpa [hab] using hstrict
          · have hlt : compare a b = .lt := by
              have hle := hmem b List.mem_cons_self
              cases hcompare : compare a b with
              | lt => rfl
              | eq => exact (hab (Std.LawfulEqCmp.eq_of_compare hcompare)).elim
              | gt => simp [hcompare] at hle
            simp only [if_neg hab]
            refine List.pairwise_cons.mpr ⟨fun c hc => ?_, hstrict⟩
            rcases List.mem_cons.mp hc with rfl | hc
            · exact hlt
            · exact Std.TransCmp.lt_trans hlt ((List.pairwise_cons.mp hstrict).1 c hc)

theorem pairwise_lt_sortedDistinct (items : List α) :
    (sortedDistinct items).Pairwise fun a b => compare a b = .lt :=
  pairwise_lt_dropRepeats (pairwise_sorted items)

end Ascending

end ScopedAccess
