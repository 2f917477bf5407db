import Mathlib.Data.List.Forall2
import ScopedAccess.Identifier
import ScopedAccess.Permission

/-!
# Objects that stand for others

Covering is a partial order of the paths that are not empty, and a path covers another exactly if it
covers every concrete path that the other covers (`covers_iff_subsumes`). Two different names in
place of `*` are enough to tell.
-/

namespace ScopedAccess

/-! ## Texts put together -/

namespace Text

theorem forall_mem_intercalate_iff {p : Char → Prop} {sep : Char} (hsep : p sep)
    {parts : List (List Char)} :
    (∀ c ∈ [sep].intercalate parts, p c) ↔ ∀ part ∈ parts, ∀ c ∈ part, p c := by
  induction parts with
  | nil => simp
  | cons part rest ih =>
      cases rest with
      | nil => simp
      | cons next rest =>
          rw [List.intercalate_cons_cons, List.forall_mem_append, List.forall_mem_append, ih,
            List.forall_mem_singleton, List.forall_mem_cons]
          simp [hsep]

theorem head_intercalate_iff {sep : Char} (hsep : isBlank sep = false)
    {parts : List (List Char)} :
    (∀ c ∈ ([sep].intercalate parts).head?, isBlank c = false) ↔
      ∀ part ∈ parts.head?, ∀ c ∈ part.head?, isBlank c = false := by
  cases parts with
  | nil => simp
  | cons part rest =>
      cases rest with
      | nil => simp
      | cons next rest =>
          rw [List.intercalate_cons_cons]
          cases part with
          | nil => simp [hsep]
          | cons c chars => simp

theorem last_intercalate_iff {sep : Char} (hsep : isBlank sep = false)
    {parts : List (List Char)} :
    (∀ c ∈ ([sep].intercalate parts).getLast?, isBlank c = false) ↔
      ∀ part ∈ parts.getLast?, ∀ c ∈ part.getLast?, isBlank c = false := by
  induction parts with
  | nil => simp
  | cons part rest ih =>
      cases rest with
      | nil => simp
      | cons next rest =>
          rw [List.intercalate_cons_cons, List.getLast?_cons_cons, ← ih, List.getLast?_append]
          cases ([sep].intercalate (next :: rest)).getLast? with
          | none => simp [hsep]
          | some c => simp

end Text

namespace ScopeName

theorem slash_not_mem_text (name : ScopeName) : '/' ∉ name.text.toList := by
  intro h
  exact absurd (List.all_eq_true.mp name.valid.chars '/' h) (by decide)

theorem text_ne_wildcard (name : ScopeName) : name.text ≠ wildcard := by
  intro h
  have hstar : '*' ∈ name.text.toList := by
    rw [h]
    decide
  exact absurd (List.all_eq_true.mp name.valid.chars '*' hstar) (by decide)

theorem isPlain_of_mem_text {name : ScopeName} {c : Char} (h : c ∈ name.text.toList) :
    Text.isPlain c = true :=
  Identifier.isPlain_of_isNameChar (List.all_eq_true.mp name.valid.chars c h)

end ScopeName

namespace ObjectPath

/-! ## Segments -/

theorem segments_eq_iff {path : ObjectPath} {parts : List String} :
    path.segments = parts ↔
      parts ≠ [] ∧ (∀ part ∈ parts, '/' ∉ part.toList) ∧ "/".intercalate parts = path.text := by
  rw [segments, Text.fields_eq_iff, ← String.toList_inj, String.toList_intercalate]
  rfl

theorem toList_text (path : ObjectPath) :
    path.text.toList = ['/'].intercalate (path.segments.map String.toList) :=
  (Text.fields_eq_iff.mp (Eq.refl path.segments)).2.2.symm

theorem segments_injective {path other : ObjectPath} (h : path.segments = other.segments) :
    path = other := by
  obtain ⟨-, -, htext⟩ := segments_eq_iff.mp (Eq.refl path.segments)
  obtain ⟨-, -, htext'⟩ := segments_eq_iff.mp (Eq.refl other.segments)
  have hsame : path.text = other.text := by rw [← htext, ← htext', h]
  cases path
  cases other
  cases hsame
  rfl

theorem text_eq_empty_iff {path : ObjectPath} : path.text = "" ↔ path.segments = [""] := by
  constructor
  · intro h
    rw [segments, h]
    rfl
  · exact Text.eq_of_fields_eq_singleton

theorem text_ne_empty_of_segments {path : ObjectPath} {first second : String}
    {rest : List String} (h : path.segments = first :: second :: rest) : path.text ≠ "" := by
  rw [ne_eq, text_eq_empty_iff, h]
  simp

/-! ## Covering segment by segment -/

/-- A granted segment stands for itself, and `*` for all segments. -/
def StandsFor (granted requested : String) : Prop :=
  granted = wildcard ∨ granted = requested

theorem coversSegments_iff {granted requested : List String} :
    coversSegments granted requested = true ↔ List.Forall₂ StandsFor granted requested := by
  induction granted generalizing requested with
  | nil => cases requested <;> simp [coversSegments]
  | cons segment rest ih =>
      cases requested with
      | nil => simp [coversSegments]
      | cons other others => simp [coversSegments, StandsFor, ih]

theorem covers_iff {granted requested : ObjectPath} :
    granted.covers requested = true ↔ granted.text ≠ "" ∧ requested.text ≠ "" ∧
      List.Forall₂ StandsFor granted.segments requested.segments := by
  simp [covers, isEmpty, coversSegments_iff, and_assoc]

theorem StandsFor.refl (segment : String) : StandsFor segment segment :=
  Or.inr rfl

theorem StandsFor.trans {first middle last : String} (h : StandsFor first middle)
    (h' : StandsFor middle last) : StandsFor first last := by
  rcases h with hstar | rfl
  · exact Or.inl hstar
  · exact h'

theorem StandsFor.antisymm {segment other : String} (h : StandsFor segment other)
    (h' : StandsFor other segment) : segment = other := by
  rcases h with rfl | heq
  · rcases h' with rfl | heq
    · rfl
    · exact heq.symm
  · exact heq

theorem covers_refl {path : ObjectPath} (h : path.text ≠ "") : path.covers path = true :=
  covers_iff.mpr ⟨h, h, List.forall₂_same.mpr fun segment _ => .refl segment⟩

theorem forall₂_standsFor_trans {first middle last : List String}
    (h : List.Forall₂ StandsFor first middle) (h' : List.Forall₂ StandsFor middle last) :
    List.Forall₂ StandsFor first last := by
  induction h generalizing last with
  | nil => exact h'
  | cons hsegment _ ih =>
      obtain ⟨other, others, hother, hothers, rfl⟩ := List.forall₂_cons_left_iff.mp h'
      exact .cons (hsegment.trans hother) (ih hothers)

theorem covers_trans {first middle last : ObjectPath} (h : first.covers middle = true)
    (h' : middle.covers last = true) : first.covers last = true := by
  obtain ⟨hfirst, -, hsegments⟩ := covers_iff.mp h
  obtain ⟨-, hlast, hsegments'⟩ := covers_iff.mp h'
  exact covers_iff.mpr ⟨hfirst, hlast, forall₂_standsFor_trans hsegments hsegments'⟩

theorem covers_antisymm {path other : ObjectPath} (h : path.covers other = true)
    (h' : other.covers path = true) : path = other := by
  obtain ⟨-, -, hsegments⟩ := covers_iff.mp h
  obtain ⟨-, -, hsegments'⟩ := covers_iff.mp h'
  have hequal : List.Forall₂ Eq path.segments other.segments :=
    List.Forall₂.mp (fun _ _ => StandsFor.antisymm) hsegments hsegments'.flip
  rw [List.forall₂_eq_eq_eq] at hequal
  exact segments_injective hequal

/-! ## Names in place of `*` -/

def fillSegment (name : ScopeName) (segment : String) : String :=
  if segment = wildcard then name.text else segment

def fill (path : ObjectPath) (name : ScopeName) : ObjectPath :=
  .parse ("/".intercalate (path.segments.map (fillSegment name)))

def Concrete (path : ObjectPath) : Prop :=
  wildcard ∉ path.segments

section Fill

variable {path : ObjectPath} {name : ScopeName}

theorem fillSegment_cases (name : ScopeName) (segment : String) :
    fillSegment name segment = name.text ∨ fillSegment name segment = segment := by
  unfold fillSegment
  split
  · exact Or.inl rfl
  · exact Or.inr rfl

theorem fillSegment_ne_wildcard (name : ScopeName) (segment : String) :
    fillSegment name segment ≠ wildcard := by
  unfold fillSegment
  split
  · exact name.text_ne_wildcard
  · next hne => exact hne

/-- Names are plain, and between them the text is as normal as it was. -/
theorem normalize_fill (path : ObjectPath) (name : ScopeName) :
    Text.normalize ("/".intercalate (path.segments.map (fillSegment name))) =
      "/".intercalate (path.segments.map (fillSegment name)) := by
  have hslash : Text.isBlank '/' = false := by decide
  obtain ⟨⟨hhead, hlast⟩, hlower⟩ := Text.normalize_eq_self_iff.mp path.normal
  have hblank : ∀ c ∈ name.text.toList, Text.isBlank c = false := fun c hc =>
    (Text.isPlain_iff.mp (name.isPlain_of_mem_text hc)).1
  rw [path.toList_text] at hhead hlast hlower
  rw [Text.head_intercalate_iff hslash] at hhead
  rw [Text.last_intercalate_iff hslash] at hlast
  rw [Text.forall_mem_intercalate_iff (by decide)] at hlower
  rw [Text.normalize_eq_self_iff, String.toList_intercalate]
  -- the first segment, the last one, and all of them
  refine ⟨⟨(Text.head_intercalate_iff hslash).mpr ?_, (Text.last_intercalate_iff hslash).mpr ?_⟩,
    (Text.forall_mem_intercalate_iff (by decide)).mpr ?_⟩
  · simp only [List.head?_map, Option.mem_def, Option.map_eq_some_iff, forall_exists_index,
      and_imp, forall_apply_eq_imp_iff₂] at hhead ⊢
    intro segment hsegment
    rcases fillSegment_cases name segment with h | h
    · rw [h]
      exact fun c hc => hblank c (List.mem_of_mem_head? hc)
    · rw [h]
      exact hhead segment hsegment
  · simp only [List.getLast?_map, Option.mem_def, Option.map_eq_some_iff, forall_exists_index,
      and_imp, forall_apply_eq_imp_iff₂] at hlast ⊢
    intro segment hsegment
    rcases fillSegment_cases name segment with h | h
    · rw [h]
      exact fun c hc => hblank c (List.mem_of_getLast? hc)
    · rw [h]
      exact hlast segment hsegment
  · simp only [List.forall_mem_map] at hlower ⊢
    intro segment hsegment
    rcases fillSegment_cases name segment with h | h
    · rw [h]
      exact fun c hc => (Text.isPlain_iff.mp (name.isPlain_of_mem_text hc)).2
    · rw [h]
      exact hlower segment hsegment

theorem segments_fill : (path.fill name).segments = path.segments.map (fillSegment name) := by
  rw [segments_eq_iff]
  obtain ⟨hne, hslash, -⟩ := segments_eq_iff.mp (Eq.refl path.segments)
  have htext := (normalize_fill path name).symm
  refine ⟨mt List.map_eq_nil_iff.mp hne, List.forall_mem_map.mpr ?_, htext⟩
  intro segment hsegment
  rcases fillSegment_cases name segment with h | h
  · rw [h]
    exact name.slash_not_mem_text
  · rw [h]
    exact hslash segment hsegment

theorem text_fill_ne_empty (hname : name.text ≠ "") (hpath : path.text ≠ "") :
    (path.fill name).text ≠ "" := by
  rw [ne_eq, text_eq_empty_iff, segments_fill, List.map_eq_singleton_iff]
  rintro ⟨segment, hsegments, hempty⟩
  rcases fillSegment_cases name segment with h | h
  · exact hname (h.symm.trans hempty)
  · rw [← h, hempty] at hsegments
    exact hpath (text_eq_empty_iff.mpr hsegments)

theorem concrete_fill (path : ObjectPath) (name : ScopeName) : (path.fill name).Concrete := by
  unfold Concrete
  rw [segments_fill, List.mem_map]
  rintro ⟨segment, -, hstar⟩
  exact fillSegment_ne_wildcard name segment hstar

theorem covers_fill (hname : name.text ≠ "") (hpath : path.text ≠ "") :
    path.covers (path.fill name) = true := by
  refine covers_iff.mpr ⟨hpath, text_fill_ne_empty hname hpath, ?_⟩
  rw [segments_fill, List.forall₂_map_right_iff]
  refine List.forall₂_same.mpr fun segment _ => ?_
  unfold fillSegment
  split
  · next hstar => exact Or.inl hstar
  · exact .refl segment

/-- What stands for both of two names instead of `*` stands for `*`. -/
theorem StandsFor.of_fill {other : ScopeName} (hne : name.text ≠ other.text)
    {segment requested : String} (h : StandsFor segment (fillSegment name requested))
    (h' : StandsFor segment (fillSegment other requested)) : StandsFor segment requested := by
  unfold fillSegment at h h'
  split at h
  · next hstar =>
      rw [if_pos hstar] at h'
      rcases h with h | h
      · exact Or.inl h
      · rcases h' with h' | h'
        · exact Or.inl h'
        · exact absurd (h.symm.trans h') hne
  · exact h

theorem covers_of_fill {other : ScopeName} (hne : name.text ≠ other.text) {granted : ObjectPath}
    (hpath : path.text ≠ "") (h : granted.covers (path.fill name) = true)
    (h' : granted.covers (path.fill other) = true) : granted.covers path = true := by
  obtain ⟨hgranted, -, hsegments⟩ := covers_iff.mp h
  obtain ⟨-, -, hsegments'⟩ := covers_iff.mp h'
  rw [segments_fill, List.forall₂_map_right_iff] at hsegments hsegments'
  have hstands : List.Forall₂ StandsFor granted.segments path.segments :=
    List.Forall₂.mp (fun _ _ => StandsFor.of_fill hne) hsegments hsegments'
  exact covers_iff.mpr ⟨hgranted, hpath, hstands⟩

end Fill

/-! ## Subsumption -/

/-- Every concrete path that the other covers is covered. -/
def Subsumes (granted requested : ObjectPath) : Prop :=
  ∀ path : ObjectPath, path.Concrete → requested.covers path = true →
    granted.covers path = true

theorem covers_of_subsumes {granted requested : ObjectPath} (hrequested : requested.text ≠ "")
    (h : granted.Subsumes requested) : granted.covers requested = true := by
  let first : ScopeName := ⟨"a", by decide, by decide⟩
  let second : ScopeName := ⟨"b", by decide, by decide⟩
  have hfirst : granted.covers (requested.fill first) = true :=
    h _ (concrete_fill requested first) (covers_fill (by decide) hrequested)
  have hsecond : granted.covers (requested.fill second) = true :=
    h _ (concrete_fill requested second) (covers_fill (by decide) hrequested)
  have hne : first.text ≠ second.text := by decide
  exact covers_of_fill hne hrequested hfirst hsecond

/-- A path covers another exactly if neither is empty and, of equally many segments, each of the
first is `*` or that of the other. On the paths that are not empty this is a partial order. It is
also subsumption: what covers a path covers all concrete paths that this covers, and the other way
round; so a requested `*` is covered by a `*` only. -/
theorem covers_iff_subsumes :
    (∀ (path : ObjectPath) (parts : List String), path.segments = parts ↔
      parts ≠ [] ∧ (∀ part ∈ parts, '/' ∉ part.toList) ∧ "/".intercalate parts = path.text) ∧
    (∀ granted requested : ObjectPath, granted.covers requested = true ↔
      granted.text ≠ "" ∧ requested.text ≠ "" ∧
        List.Forall₂ (fun segment other => segment = wildcard ∨ segment = other)
          granted.segments requested.segments) ∧
    ((∀ path : ObjectPath, path.text ≠ "" → path.covers path = true) ∧
      (∀ first middle last : ObjectPath, first.covers middle = true →
        middle.covers last = true → first.covers last = true) ∧
      ∀ path other : ObjectPath, path.covers other = true → other.covers path = true →
        path = other) ∧
    (∀ granted requested : ObjectPath, requested.text ≠ "" →
      (granted.covers requested = true ↔ granted.Subsumes requested)) ∧
    ∀ granted requested : ObjectPath, granted.covers requested = true →
      List.Forall₂ (fun segment other => other = wildcard → segment = wildcard)
        granted.segments requested.segments := by
  refine ⟨fun path parts => segments_eq_iff, fun granted requested => covers_iff,
    ⟨fun path => covers_refl, fun first middle last => covers_trans,
      fun path other => covers_antisymm⟩, ?_, ?_⟩
  · intro granted requested hrequested
    constructor
    · intro hcovers path _ hpath
      exact covers_trans hcovers hpath
    · exact covers_of_subsumes hrequested
  · intro granted requested hcovers
    obtain ⟨-, -, hsegments⟩ := covers_iff.mp hcovers
    refine hsegments.imp fun segment other hstands hstar => ?_
    rcases hstands with h | h
    · exact h
    · exact h.trans hstar

theorem covers_iff_subsumes_in_team :
    let every : ObjectPath := .parse "*/*"
    let team : ObjectPath := .parse "Dev/*"
    team.text ≠ "" ∧ every.Subsumes team ∧ ¬ team.Subsumes every := by
  intro every team
  have hevery : every.text ≠ "" := by decide
  have hteam : team.text ≠ "" := by decide
  have hiff := covers_iff_subsumes.2.2.2.1
  exact ⟨hteam, (hiff every team hteam).mp (by decide), mt (hiff team every hevery).mpr (by decide)⟩

end ObjectPath

end ScopedAccess
