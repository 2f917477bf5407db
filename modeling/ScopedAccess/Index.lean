/-!
# Indexes

A relation between keys and items, kept as one row of items for every key that has any. A row
lists its items in the order in which they were inserted, without repetition. What an operation
does is said through the rows: `get_insert` and `get_erase`.
-/

namespace ScopedAccess

namespace Index

variable {κ α : Type}

/-- One row for a key, and every row has items, each of them once. -/
structure Valid (rows : List (κ × List α)) : Prop where
  keys_nodup : (rows.map Prod.fst).Nodup
  ne_nil : ∀ row ∈ rows, row.2 ≠ []
  nodup : ∀ row ∈ rows, row.2.Nodup

theorem Valid.tail {row : κ × List α} {rows : List (κ × List α)} (h : Valid (row :: rows)) :
    Valid rows :=
  ⟨(List.nodup_cons.mp h.keys_nodup).2, fun other hmem => h.ne_nil other (by simp [hmem]),
    fun other hmem => h.nodup other (by simp [hmem])⟩

variable [DecidableEq κ]

def rowOf (rows : List (κ × List α)) (key : κ) : List α :=
  (rows.lookup key).getD []

def insertRow (key : κ) (item : α) : List (κ × List α) → List (κ × List α)
  | [] => [(key, [item])]
  | row :: rest =>
      if row.1 = key then (row.1, row.2 ++ [item]) :: rest
      else row :: insertRow key item rest

theorem rowOf_cons (row : κ × List α) (rows : List (κ × List α)) (key : κ) :
    rowOf (row :: rows) key = if row.1 = key then row.2 else rowOf rows key := by
  cases row with
  | mk first items =>
      by_cases h : first = key
      · simp [rowOf, h]
      · have hkey : (key == first) = false := by simpa using Ne.symm h
        simp [rowOf, List.lookup_cons, h, hkey]

theorem rowOf_eq_nil {rows : List (κ × List α)} {key : κ} (h : key ∉ rows.map Prod.fst) :
    rowOf rows key = [] := by
  induction rows with
  | nil => rfl
  | cons row rest ih =>
      simp only [List.map_cons, List.mem_cons, not_or] at h
      rw [rowOf_cons, if_neg (Ne.symm h.1), ih h.2]

theorem mem_of_mem_rowOf {rows : List (κ × List α)} {key : κ} {item : α}
    (h : item ∈ rowOf rows key) : ∃ items, (key, items) ∈ rows ∧ item ∈ items := by
  induction rows with
  | nil => simp [rowOf] at h
  | cons row rest ih =>
      rw [rowOf_cons] at h
      split at h
      · next heq => exact ⟨row.2, by simp [← heq], h⟩
      · obtain ⟨items, hmem, hitem⟩ := ih h
        exact ⟨items, List.mem_cons_of_mem _ hmem, hitem⟩

theorem nodup_rowOf {rows : List (κ × List α)} (h : Valid rows) (key : κ) :
    (rowOf rows key).Nodup := by
  induction rows with
  | nil => simp [rowOf]
  | cons row rest ih =>
      rw [rowOf_cons]
      split
      · exact h.nodup row (by simp)
      · exact ih h.tail

theorem rowOf_insertRow (key : κ) (item : α) (rows : List (κ × List α)) (other : κ) :
    rowOf (insertRow key item rows) other =
      if other = key then rowOf rows key ++ [item] else rowOf rows other := by
  induction rows with
  | nil =>
      simp only [insertRow, rowOf_cons]
      by_cases h : other = key
      · simp [h, rowOf]
      · simp [h, Ne.symm h]
  | cons row rest ih =>
      unfold insertRow
      by_cases hrow : row.1 = key
      · rw [if_pos hrow, rowOf_cons, rowOf_cons, rowOf_cons]
        by_cases h : other = key
        · simp [h, hrow]
        · have hother : ¬ row.1 = other := fun heq => h (heq.symm.trans hrow)
          simp [h, hother]
      · rw [if_neg hrow, rowOf_cons, rowOf_cons, rowOf_cons, ih]
        by_cases h : other = key
        · simp [h, hrow]
        · simp [h]

theorem keys_insertRow (key : κ) (item : α) (rows : List (κ × List α)) :
    (insertRow key item rows).map Prod.fst =
      if key ∈ rows.map Prod.fst then rows.map Prod.fst else rows.map Prod.fst ++ [key] := by
  induction rows with
  | nil => simp [insertRow]
  | cons row rest ih =>
      unfold insertRow
      by_cases hrow : row.1 = key
      · simp [hrow]
      · rw [if_neg hrow, List.map_cons, ih]
        by_cases hmem : key ∈ rest.map Prod.fst
        · rw [if_pos hmem, if_pos (by simp only [List.map_cons]; exact List.mem_cons_of_mem _ hmem)]
          rfl
        · have hnot : key ∉ (row :: rest).map Prod.fst := by
            simp only [List.map_cons, List.mem_cons, not_or]
            exact ⟨Ne.symm hrow, hmem⟩
          rw [if_neg hmem, if_neg hnot]
          rfl

theorem mem_insertRow {key : κ} {item : α} {rows : List (κ × List α)} {row : κ × List α}
    (h : row ∈ insertRow key item rows) :
    row ∈ rows ∨ row = (key, [item]) ∨
      ∃ items, (key, items) ∈ rows ∧ row = (key, items ++ [item]) := by
  induction rows with
  | nil =>
      simp only [insertRow, List.mem_singleton] at h
      exact Or.inr (Or.inl h)
  | cons first rest ih =>
      unfold insertRow at h
      split at h
      · next hfirst =>
          rcases List.mem_cons.mp h with rfl | h
          · exact Or.inr (Or.inr ⟨first.2, by simp [← hfirst], by simp [hfirst]⟩)
          · exact Or.inl (List.mem_cons_of_mem _ h)
      · rcases List.mem_cons.mp h with rfl | h
        · exact Or.inl (by simp)
        · rcases ih h with h | h | ⟨items, hmem, rfl⟩
          · exact Or.inl (List.mem_cons_of_mem _ h)
          · exact Or.inr (Or.inl h)
          · exact Or.inr (Or.inr ⟨items, List.mem_cons_of_mem _ hmem, rfl⟩)

theorem rowOf_of_mem {rows : List (κ × List α)} (h : Valid rows) {key : κ} {items : List α}
    (hmem : (key, items) ∈ rows) : rowOf rows key = items := by
  induction rows with
  | nil => simp at hmem
  | cons row rest ih =>
      rw [rowOf_cons]
      rcases List.mem_cons.mp hmem with heq | hrest
      · rw [← heq, if_pos rfl]
      · have hnot : ¬ row.1 = key := by
          intro heq
          have hin : key ∈ rest.map Prod.fst := List.mem_map.mpr ⟨(key, items), hrest, rfl⟩
          exact (List.nodup_cons.mp h.keys_nodup).1 (heq ▸ hin)
        rw [if_neg hnot]
        exact ih h.tail hrest

theorem Valid.insertRow {rows : List (κ × List α)} (h : Valid rows) {key : κ} {item : α}
    (habsent : item ∉ rowOf rows key) : Valid (insertRow key item rows) := by
  constructor
  · rw [keys_insertRow]
    split
    · exact h.keys_nodup
    · next hnot =>
        rw [List.nodup_append]
        refine ⟨h.keys_nodup, by simp, ?_⟩
        intro a ha b hb heq
        rw [List.mem_singleton] at hb
        exact hnot (hb ▸ heq ▸ ha)
  · intro row hrow
    rcases mem_insertRow hrow with hrow | rfl | ⟨items, hmem, rfl⟩
    · exact h.ne_nil row hrow
    · simp
    · simp
  · intro row hrow
    rcases mem_insertRow hrow with hrow | rfl | ⟨items, hmem, rfl⟩
    · exact h.nodup row hrow
    · simp
    · rw [rowOf_of_mem h hmem] at habsent
      rw [List.nodup_append]
      refine ⟨h.nodup _ hmem, by simp, ?_⟩
      intro a ha b hb heq
      rw [List.mem_singleton] at hb
      exact habsent (hb ▸ heq ▸ ha)

variable [DecidableEq α]

/-- Take `item` out of the row of `key`, and the row away if it has no other item. -/
def eraseRow (key : κ) (item : α) : List (κ × List α) → List (κ × List α)
  | [] => []
  | row :: rest =>
      if row.1 = key then
        if row.2.filter (fun other => other ≠ item) = [] then rest
        else (row.1, row.2.filter fun other => other ≠ item) :: rest
      else row :: eraseRow key item rest

theorem keys_eraseRow (key : κ) (item : α) (rows : List (κ × List α)) :
    ((eraseRow key item rows).map Prod.fst).Sublist (rows.map Prod.fst) := by
  induction rows with
  | nil => simp [eraseRow]
  | cons row rest ih =>
      unfold eraseRow
      split
      · split
        · simp
        · simp
      · simpa using ih

theorem rowOf_eraseRow {rows : List (κ × List α)} (h : Valid rows) (key : κ) (item : α)
    (other : κ) :
    rowOf (eraseRow key item rows) other =
      if other = key then (rowOf rows key).filter fun x => x ≠ item else rowOf rows other := by
  induction rows with
  | nil => simp [eraseRow, rowOf]
  | cons row rest ih =>
      unfold eraseRow
      by_cases hrow : row.1 = key
      · have hnot : key ∉ rest.map Prod.fst := hrow ▸ (List.nodup_cons.mp h.keys_nodup).1
        rw [if_pos hrow, rowOf_cons, rowOf_cons]
        by_cases hother : other = key
        · subst hother
          split
          -- the row is gone, and no later row has the key
          · next hnil => simpa [rowOf_eq_nil hnot, hrow] using hnil.symm
          · rw [rowOf_cons]
            simp [hrow]
        · have hne : ¬ row.1 = other := fun heq => hother (heq.symm.trans hrow)
          rw [if_neg hother, if_neg hne]
          split
          · rfl
          · rw [rowOf_cons, if_neg hne]
      · rw [if_neg hrow, rowOf_cons, rowOf_cons, rowOf_cons, ih h.tail]
        by_cases hother : other = key
        · simp [hother, hrow]
        · simp [hother]

theorem mem_eraseRow {key : κ} {item : α} {rows : List (κ × List α)} {row : κ × List α}
    (h : row ∈ eraseRow key item rows) :
    row ∈ rows ∨ ∃ items, (key, items) ∈ rows ∧ row.2 ≠ [] ∧
      row = (key, items.filter fun x => x ≠ item) := by
  induction rows with
  | nil => simp [eraseRow] at h
  | cons first rest ih =>
      unfold eraseRow at h
      split at h
      · next hfirst =>
          split at h
          · exact Or.inl (List.mem_cons_of_mem _ h)
          · next hne =>
              rcases List.mem_cons.mp h with rfl | h
              · exact Or.inr ⟨first.2, by simp [← hfirst], hne, by simp [hfirst]⟩
              · exact Or.inl (List.mem_cons_of_mem _ h)
      · rcases List.mem_cons.mp h with rfl | h
        · exact Or.inl (by simp)
        · rcases ih h with h | ⟨items, hmem, hne, heq⟩
          · exact Or.inl (List.mem_cons_of_mem _ h)
          · exact Or.inr ⟨items, List.mem_cons_of_mem _ hmem, hne, heq⟩

theorem eraseRow_insertRow {rows : List (κ × List α)} (h : Valid rows) {key : κ} {item : α}
    (habsent : item ∉ rowOf rows key) : eraseRow key item (insertRow key item rows) = rows := by
  induction rows with
  | nil => simp [insertRow, eraseRow]
  | cons row rest ih =>
      rw [rowOf_cons] at habsent
      unfold insertRow
      split
      · next hrow =>
          rw [if_pos hrow] at habsent
          have hkept : (row.2 ++ [item]).filter (fun other => other ≠ item) = row.2 := by
            have hold : row.2.filter (fun other => other ≠ item) = row.2 :=
              List.filter_eq_self.mpr fun other hmem =>
                decide_eq_true fun heq => habsent (heq ▸ hmem)
            simpa using hold
          unfold eraseRow
          rw [if_pos hrow, hkept, if_neg (h.ne_nil row List.mem_cons_self)]
      · next hrow =>
          rw [if_neg hrow] at habsent
          unfold eraseRow
          rw [if_neg hrow, ih h.tail habsent]

theorem Valid.eraseRow {rows : List (κ × List α)} (h : Valid rows) (key : κ) (item : α) :
    Valid (eraseRow key item rows) := by
  constructor
  · exact (keys_eraseRow key item rows).nodup h.keys_nodup
  · intro row hrow
    rcases mem_eraseRow hrow with hrow | ⟨items, hmem, hne, rfl⟩
    · exact h.ne_nil row hrow
    · exact hne
  · intro row hrow
    rcases mem_eraseRow hrow with hrow | ⟨items, hmem, hne, rfl⟩
    · exact h.nodup row hrow
    · exact (h.nodup _ hmem).filter _

end Index

structure Index (κ α : Type) where
  rows : List (κ × List α)
  valid : Index.Valid rows
  deriving DecidableEq

namespace Index

variable {κ α : Type}

def empty : Index κ α :=
  ⟨[], by simp, by simp, by simp⟩

def toList (index : Index κ α) : List (κ × α) :=
  index.rows.flatMap fun row => row.2.map fun item => (row.1, item)

variable [DecidableEq κ]

def get (index : Index κ α) (key : κ) : List α :=
  rowOf index.rows key

@[simp] theorem get_empty (key : κ) : (empty : Index κ α).get key = [] :=
  rfl

theorem nodup_get (index : Index κ α) (key : κ) : (index.get key).Nodup :=
  nodup_rowOf index.valid key

theorem mem_toList {index : Index κ α} {key : κ} {item : α} :
    (key, item) ∈ index.toList ↔ item ∈ index.get key := by
  simp only [toList, List.mem_flatMap, List.mem_map, Prod.mk.injEq]
  constructor
  · rintro ⟨row, hrow, x, hx, rfl, rfl⟩
    have hget : index.get row.1 = row.2 := rowOf_of_mem index.valid hrow
    rw [hget]
    exact hx
  · intro h
    obtain ⟨items, hmem, hitem⟩ := mem_of_mem_rowOf h
    exact ⟨(key, items), hmem, item, hitem, rfl, rfl⟩

variable [DecidableEq α]

/-- Insert an item at the end of its row, unless it is there. Says whether it was inserted. -/
def insert (index : Index κ α) (key : κ) (item : α) : Bool × Index κ α :=
  if h : item ∈ index.get key then (false, index)
  else (true, ⟨insertRow key item index.rows, index.valid.insertRow h⟩)

def erase (index : Index κ α) (key : κ) (item : α) : Bool × Index κ α :=
  (item ∈ index.get key, ⟨eraseRow key item index.rows, index.valid.eraseRow key item⟩)

theorem insert_fst (index : Index κ α) (key : κ) (item : α) :
    (index.insert key item).1 = decide (item ∉ index.get key) := by
  unfold insert
  split
  · next h => simp [h]
  · next h => simp [h]

theorem get_insert (index : Index κ α) (key : κ) (item : α) (other : κ) :
    (index.insert key item).2.get other =
      if other = key ∧ item ∉ index.get key then index.get key ++ [item]
      else index.get other := by
  unfold insert
  split
  · next h => simp [h]
  · next h =>
      show rowOf (insertRow key item index.rows) other = _
      rw [rowOf_insertRow]
      simp only [get] at h ⊢
      simp [h]

theorem insert_of_mem {index : Index κ α} {key : κ} {item : α} (h : item ∈ index.get key) :
    index.insert key item = (false, index) :=
  dif_pos h

theorem erase_insert {index : Index κ α} {key : κ} {item : α}
    (h : (index.insert key item).1 = true) :
    ((index.insert key item).2.erase key item).2 = index := by
  have habsent : item ∉ index.get key := by
    rw [insert_fst] at h
    exact of_decide_eq_true h
  unfold insert erase
  simp only [dif_neg habsent, eraseRow_insertRow index.valid habsent]

theorem erase_fst (index : Index κ α) (key : κ) (item : α) :
    (index.erase key item).1 = decide (item ∈ index.get key) :=
  rfl

theorem get_erase (index : Index κ α) (key : κ) (item : α) (other : κ) :
    (index.erase key item).2.get other =
      if other = key then (index.get key).filter fun x => x ≠ item else index.get other :=
  rowOf_eraseRow index.valid key item other

end Index

end ScopedAccess
