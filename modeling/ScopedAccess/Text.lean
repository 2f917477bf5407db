/-!
# Texts

What readers do to a text before they look at its words: strip the blank characters at both ends,
lower the ASCII letters (`normalize`), and split it at a separator (`fields`) or behind a fixed lead
(`after?`).
-/

namespace ScopedAccess

/-! ## Blank characters -/

namespace Text

/-- First and last code point of every run of blank characters. -/
def blankRanges : List (Nat × Nat) :=
  [(0x09, 0x0D), (0x20, 0x20), (0x85, 0x85), (0xA0, 0xA0), (0x1680, 0x1680),
    (0x2000, 0x200A), (0x2028, 0x2029), (0x202F, 0x202F), (0x205F, 0x205F), (0x3000, 0x3000)]

example : (blankRanges.map fun range => range.2 + 1 - range.1).sum = 25 := by decide

def isBlank (c : Char) : Bool :=
  blankRanges.any fun range => range.1 ≤ c.toNat && c.toNat ≤ range.2

/-! ## Normal texts -/

def trimChars (chars : List Char) : List Char :=
  ((chars.dropWhile isBlank).reverse.dropWhile isBlank).reverse

def trim (text : String) : String :=
  String.ofList (trimChars text.toList)

/-- Lower the letters `A` to `Z`. All other characters keep their case. -/
def lower (text : String) : String :=
  String.ofList (text.toList.map Char.toLower)

def normalize (text : String) : String :=
  String.ofList ((trimChars text.toList).map Char.toLower)

@[simp] theorem toList_trim (text : String) :
    (trim text).toList = trimChars text.toList := by
  simp [trim]

@[simp] theorem toList_lower (text : String) :
    (lower text).toList = text.toList.map Char.toLower := by
  simp [lower]

@[simp] theorem toList_normalize (text : String) :
    (normalize text).toList = (trimChars text.toList).map Char.toLower := by
  simp [normalize]

theorem normalize_eq_lower_trim (text : String) : normalize text = lower (trim text) := by
  apply String.toList_inj.mp
  simp

theorem toNat_toLower_of_capital {c : Char} (hlow : 65 ≤ c.toNat) (hhigh : c.toNat ≤ 90) :
    c.toLower.toNat = c.toNat + 32 := by
  have h : c.val ≥ 'A'.val ∧ c.val ≤ 'Z'.val := ⟨hlow, hhigh⟩
  unfold Char.toLower
  rw [dif_pos h]
  show (c.val + 32).toNat = c.val.toNat + 32
  have hsmall : c.val.toNat ≤ 90 := hhigh
  rw [UInt32.toNat_add]
  have hconst : (32 : UInt32).toNat = 32 := rfl
  rw [hconst]
  omega

theorem toLower_cases (c : Char) :
    c.toLower = c ∨
      (65 ≤ c.toNat ∧ c.toNat ≤ 90 ∧ c.toLower.toNat = c.toNat + 32) := by
  by_cases h : c.val ≥ 'A'.val ∧ c.val ≤ 'Z'.val
  · exact Or.inr ⟨h.1, h.2, toNat_toLower_of_capital h.1 h.2⟩
  · left
    unfold Char.toLower
    rw [dif_neg h]

theorem toLower_toLower (c : Char) : c.toLower.toLower = c.toLower := by
  rcases toLower_cases c with h | ⟨hlow, hhigh, hval⟩
  · rw [h, h]
  · rcases toLower_cases c.toLower with h | h
    · exact h
    · omega

theorem isBlank_toLower (c : Char) : isBlank c.toLower = isBlank c := by
  rcases toLower_cases c with h | ⟨hlow, hhigh, hval⟩
  · rw [h]
  · -- neither the capital letters nor the small ones are blank
    have hbefore : isBlank c = false := by
      simp [isBlank, blankRanges]
      omega
    have hafter : isBlank c.toLower = false := by
      simp [isBlank, blankRanges, hval]
      omega
    rw [hbefore, hafter]

theorem dropWhile_eq_self_of_head {p : Char → Bool} {chars : List Char}
    (h : ∀ c ∈ chars.head?, p c = false) : chars.dropWhile p = chars := by
  cases chars with
  | nil => rfl
  | cons c rest =>
      have hc : p c = false := h c (by simp)
      simp [hc]

theorem head_dropWhile {p : Char → Bool} {chars : List Char} :
    ∀ c ∈ (chars.dropWhile p).head?, p c = false := by
  induction chars with
  | nil => simp
  | cons c rest ih =>
      by_cases hc : p c = true
      · simpa [List.dropWhile_cons, hc] using ih
      · simp [hc]

/-- Neither end of the characters is blank. -/
def TightChars (chars : List Char) : Prop :=
  (∀ c ∈ chars.head?, isBlank c = false) ∧ ∀ c ∈ chars.getLast?, isBlank c = false

theorem trimChars_eq_self {chars : List Char} (h : TightChars chars) :
    trimChars chars = chars := by
  unfold trimChars
  rw [dropWhile_eq_self_of_head h.1, dropWhile_eq_self_of_head, List.reverse_reverse]
  simpa using h.2

theorem head?_dropWhile_reverse {chars : List Char}
    (h : ∀ c ∈ chars.head?, isBlank c = false) :
    ∀ c ∈ (chars.reverse.dropWhile isBlank).reverse.head?, isBlank c = false := by
  cases chars with
  | nil => simp
  | cons c rest =>
      have hc : isBlank c = false := h c (by simp)
      have hkeep : (rest.reverse ++ [c]).dropWhile isBlank =
          rest.reverse.dropWhile isBlank ++ [c] := by
        rw [List.dropWhile_append]
        split
        · next hnil =>
            simp only [List.isEmpty_iff] at hnil
            simp [hnil, hc]
        · rfl
      simp [hkeep, hc]

theorem tightChars_trimChars (chars : List Char) : TightChars (trimChars chars) := by
  constructor
  · exact head?_dropWhile_reverse head_dropWhile
  · unfold trimChars
    rw [List.getLast?_reverse]
    exact head_dropWhile

theorem tightChars_map_toLower {chars : List Char} (h : TightChars chars) :
    TightChars (chars.map Char.toLower) := by
  constructor
  · intro c hc
    simp only [List.head?_map, Option.mem_def, Option.map_eq_some_iff] at hc
    obtain ⟨d, hd, rfl⟩ := hc
    rw [isBlank_toLower]
    exact h.1 d hd
  · intro c hc
    simp only [List.getLast?_map, Option.mem_def, Option.map_eq_some_iff] at hc
    obtain ⟨d, hd, rfl⟩ := hc
    rw [isBlank_toLower]
    exact h.2 d hd

theorem normalize_normalize (text : String) :
    normalize (normalize text) = normalize text := by
  apply String.toList_inj.mp
  rw [toList_normalize, toList_normalize,
    trimChars_eq_self (tightChars_map_toLower (tightChars_trimChars text.toList)), List.map_map]
  exact List.map_congr_left fun c _ => toLower_toLower c

theorem normalize_eq_self {text : String} (htight : TightChars text.toList)
    (hlow : ∀ c ∈ text.toList, c.toLower = c) : normalize text = text := by
  apply String.toList_inj.mp
  rw [toList_normalize, trimChars_eq_self htight]
  exact (List.map_congr_left hlow).trans (List.map_id _)

theorem normalize_eq_self_iff {text : String} :
    normalize text = text ↔ TightChars text.toList ∧ ∀ c ∈ text.toList, c.toLower = c := by
  constructor
  · intro h
    rw [← h, toList_normalize]
    refine ⟨tightChars_map_toLower (tightChars_trimChars text.toList), ?_⟩
    exact List.forall_mem_map.mpr fun c _ => toLower_toLower c
  · rintro ⟨htight, hlow⟩
    exact normalize_eq_self htight hlow

/-- Neither blank nor a capital letter. -/
def isPlain (c : Char) : Bool :=
  !isBlank c && c.toLower == c

theorem isPlain_iff {c : Char} :
    isPlain c = true ↔ isBlank c = false ∧ c.toLower = c := by
  simp [isPlain]

theorem normalize_eq_self_of_isPlain {text : String}
    (h : ∀ c ∈ text.toList, isPlain c = true) : normalize text = text :=
  normalize_eq_self
    ⟨fun c hc => (isPlain_iff.mp (h c (List.mem_of_mem_head? hc))).1,
      fun c hc => (isPlain_iff.mp (h c (List.mem_of_mem_getLast? hc))).1⟩
    fun c hc => (isPlain_iff.mp (h c hc)).2

/-! ## Fields -/

def fieldChars (sep : Char) : List Char → List (List Char)
  | [] => [[]]
  | c :: rest =>
      if c = sep then
        [] :: fieldChars sep rest
      else
        match fieldChars sep rest with
        | [] => [[c]]
        | field :: others => (c :: field) :: others

/-- The fields of `text` between the occurrences of `sep`, in order. -/
def fields (sep : Char) (text : String) : List String :=
  (fieldChars sep text.toList).map String.ofList

theorem fieldChars_ne_nil (sep : Char) (chars : List Char) :
    fieldChars sep chars ≠ [] := by
  induction chars with
  | nil => simp [fieldChars]
  | cons c rest ih =>
      unfold fieldChars
      split
      · simp
      · split <;> simp

theorem length_fieldChars (sep : Char) (chars : List Char) :
    (fieldChars sep chars).length = chars.count sep + 1 := by
  induction chars with
  | nil => simp [fieldChars]
  | cons c rest ih =>
      unfold fieldChars
      split
      · next h => simp [h, ih]
      · next h =>
          split
          · next hnil => exact absurd hnil (fieldChars_ne_nil sep rest)
          · next field others hcons =>
              rw [hcons] at ih
              simpa [List.count_cons, h] using ih

theorem not_mem_of_mem_fieldChars {sep : Char} {chars field : List Char}
    (h : field ∈ fieldChars sep chars) : sep ∉ field := by
  induction chars generalizing field with
  | nil =>
      simp only [fieldChars, List.mem_singleton] at h
      simp [h]
  | cons c rest ih =>
      unfold fieldChars at h
      split at h
      · rcases List.mem_cons.mp h with rfl | h
        · simp
        · exact ih h
      · next hc =>
          split at h
          · next hnil => exact absurd hnil (fieldChars_ne_nil sep rest)
          · next first others hcons =>
              rcases List.mem_cons.mp h with rfl | h
              · have hfirst : sep ∉ first := ih (by simp [hcons])
                simp [hfirst, Ne.symm hc]
              · exact ih (by simp [hcons, h])

theorem fieldChars_append_cons {sep : Char} {field rest : List Char} (h : sep ∉ field) :
    fieldChars sep (field ++ sep :: rest) = field :: fieldChars sep rest := by
  induction field with
  | nil => simp [fieldChars]
  | cons c field ih =>
      simp only [List.mem_cons, not_or] at h
      simp [fieldChars, Ne.symm h.1, ih h.2]

theorem fieldChars_of_not_mem {sep : Char} {field : List Char} (h : sep ∉ field) :
    fieldChars sep field = [field] := by
  induction field with
  | nil => rfl
  | cons c field ih =>
      simp only [List.mem_cons, not_or] at h
      simp [fieldChars, Ne.symm h.1, ih h.2]

theorem intercalate_fieldChars (sep : Char) (chars : List Char) :
    [sep].intercalate (fieldChars sep chars) = chars := by
  induction chars with
  | nil => simp [fieldChars]
  | cons c rest ih =>
      unfold fieldChars
      split
      · next hc =>
          cases hfields : fieldChars sep rest with
          | nil => exact absurd hfields (fieldChars_ne_nil sep rest)
          | cons field others =>
              rw [hfields] at ih
              rw [List.intercalate_cons_cons, ih, hc]
              rfl
      · split
        · next hnil => exact absurd hnil (fieldChars_ne_nil sep rest)
        · next field others hcons =>
            rw [hcons] at ih
            cases others with
            | nil =>
                rw [List.intercalate_singleton] at ih ⊢
                rw [ih]
            | cons other others =>
                rw [List.intercalate_cons_cons] at ih ⊢
                simpa using ih

theorem fieldChars_intercalate {sep : Char} {parts : List (List Char)} (hne : parts ≠ [])
    (h : ∀ part ∈ parts, sep ∉ part) : fieldChars sep ([sep].intercalate parts) = parts := by
  induction parts with
  | nil => exact absurd rfl hne
  | cons part rest ih =>
      have hpart : sep ∉ part := h part List.mem_cons_self
      cases rest with
      | nil => rw [List.intercalate_singleton, fieldChars_of_not_mem hpart]
      | cons next rest =>
          have hrest := ih (List.cons_ne_nil next rest) fun other hmem =>
            h other (List.mem_cons_of_mem _ hmem)
          rw [List.intercalate_cons_cons, List.append_assoc, List.singleton_append,
            fieldChars_append_cons hpart, hrest]

/-- The fields are the one way to write the text as parts that are free of the separator. -/
theorem fields_eq_iff {sep : Char} {text : String} {parts : List String} :
    fields sep text = parts ↔
      parts ≠ [] ∧ (∀ part ∈ parts, sep ∉ part.toList) ∧
        [sep].intercalate (parts.map String.toList) = text.toList := by
  constructor
  · rintro rfl
    refine ⟨mt List.map_eq_nil_iff.mp (fieldChars_ne_nil sep _), ?_, ?_⟩
    · intro part hpart
      obtain ⟨field, hfield, rfl⟩ := List.mem_map.mp hpart
      rw [String.toList_ofList]
      exact not_mem_of_mem_fieldChars hfield
    · have hchars : (fields sep text).map String.toList = fieldChars sep text.toList := by
        simp [fields]
      rw [hchars, intercalate_fieldChars]
  · rintro ⟨hne, hsep, htext⟩
    have hparts : fieldChars sep text.toList = parts.map String.toList := by
      rw [← htext]
      exact fieldChars_intercalate (mt List.map_eq_nil_iff.mp hne) (List.forall_mem_map.mpr hsep)
    rw [fields, hparts]
    simp

theorem eq_of_fields_eq_singleton {sep : Char} {text field : String}
    (h : fields sep text = [field]) : text = field := by
  obtain ⟨chars, hchars, rfl⟩ := List.map_eq_singleton_iff.mp h
  have hjoined := intercalate_fieldChars sep text.toList
  rw [hchars, List.intercalate_singleton] at hjoined
  apply String.toList_inj.mp
  rw [String.toList_ofList, hjoined]

def afterChars? : List Char → List Char → Option (List Char)
  | [], rest => some rest
  | _ :: _, [] => none
  | a :: lead, c :: rest => if a = c then afterChars? lead rest else none

/-- What follows `lead` in `text`, if `text` starts with it. -/
def after? (lead text : String) : Option String :=
  (afterChars? lead.toList text.toList).map String.ofList

theorem afterChars?_eq_some_iff {lead chars rest : List Char} :
    afterChars? lead chars = some rest ↔ chars = lead ++ rest := by
  induction lead generalizing chars with
  | nil => simp [afterChars?]
  | cons a lead ih =>
      cases chars with
      | nil => simp [afterChars?]
      | cons c chars =>
          by_cases h : a = c
          · simp [afterChars?, h, ih]
          · simp [afterChars?, h, Ne.symm h]

theorem after?_eq_some_iff {lead text rest : String} :
    after? lead text = some rest ↔ text = lead ++ rest := by
  simp only [after?, Option.map_eq_some_iff, afterChars?_eq_some_iff]
  constructor
  · rintro ⟨chars, htext, rfl⟩
    apply String.toList_inj.mp
    simp [htext]
  · rintro rfl
    exact ⟨rest.toList, by simp, by simp⟩

end Text

end ScopedAccess
