import Mathlib.Data.String.Basic
import Mathlib.Data.List.Basic
import ScopedAccess.Rule

/-!
# The grammar of role subjects

Which texts are read as a role, said of the text alone (`RoleSubject.parse_iff_spells`): trimmed and
lowered, it is `role:` and four fields with `_` between them, of which the first is the word of a
kind and the others are names. Each step that fails says what the text lacks.
-/

namespace ScopedAccess

namespace Text

theorem utf8Size_toLower (c : Char) : c.toLower.utf8Size = c.utf8Size := by
  have hone {d : Char} (h : d.toNat ≤ 127) : d.utf8Size = 1 :=
    Char.utf8Size_eq_one_iff.mpr (UInt32.le_iff_toNat_le.mpr h)
  rcases toLower_cases c with hsame | ⟨hlow, hhigh, hval⟩
  · rw [hsame]
  · rw [hone (by omega), hone (by omega)]

theorem utf8Len_map_toLower (chars : List Char) :
    String.utf8Len (chars.map Char.toLower) = String.utf8Len chars := by
  induction chars with
  | nil => rfl
  | cons c rest ih =>
      rw [List.map_cons, String.utf8Len_cons, String.utf8Len_cons, ih, utf8Size_toLower]

theorem utf8ByteSize_lower (text : String) : (lower text).utf8ByteSize = text.utf8ByteSize := by
  rw [lower, String.utf8ByteSize_ofList, utf8Len_map_toLower, ← String.utf8ByteSize_ofList,
    String.ofList_toList]

theorem normalize_eq_trim {text : String} (h : ∀ c ∈ text.toList, c.toLower = c) :
    normalize text = trim text := by
  have hmem {c : Char} (hc : c ∈ trimChars text.toList) : c ∈ text.toList := by
    have hback := List.mem_reverse.mp hc
    have hfront := (List.dropWhile_suffix isBlank).subset hback
    exact (List.dropWhile_suffix isBlank).subset (List.mem_reverse.mp hfront)
  apply String.toList_inj.mp
  rw [toList_normalize, toList_trim]
  exact (List.map_congr_left fun c hc => h c (hmem hc)).trans (List.map_id _)

end Text

/-! ## Names -/

def InName (c : Char) : Prop :=
  c.isAlphanum = true ∨ c = '-' ∨ c = '.'

instance : DecidablePred InName := fun c =>
  inferInstanceAs (Decidable (c.isAlphanum = true ∨ c = '-' ∨ c = '.'))

structure IsName (text : String) : Prop where
  bytes_le : text.utf8ByteSize ≤ 128
  chars : ∀ c ∈ text.toList, InName c

instance : DecidablePred IsName := fun text =>
  decidable_of_iff (text.utf8ByteSize ≤ 128 ∧ text.toList.all fun c => InName c)
    ⟨fun h => ⟨h.1, by simpa using h.2⟩, fun h => ⟨h.bytes_le, by simpa using h.chars⟩⟩

/-- Why a text is no name: it is too long or, if it is not, it has a character of no name. -/
inductive NotName (dimension : Dimension) (text : String) : IdentifierFault → Prop where
  | long (h : 128 < text.utf8ByteSize) : NotName dimension text (.longName dimension)
  | chars (hbytes : text.utf8ByteSize ≤ 128) {c : Char} (hmem : c ∈ text.toList)
      (hc : ¬ InName c) : NotName dimension text (.nameCharacters dimension)

theorem NotName.not_isName {dimension : Dimension} {text : String} {fault : IdentifierFault}
    (h : NotName dimension text fault) : ¬ IsName text := by
  intro hname
  cases h with
  | long hlong => exact absurd hname.bytes_le (Nat.not_le.mpr hlong)
  | chars _ hmem hc => exact hc (hname.chars _ hmem)

theorem isAlphanum_iff {c : Char} : c.isAlphanum = true ↔
    (65 ≤ c.toNat ∧ c.toNat ≤ 90) ∨ (97 ≤ c.toNat ∧ c.toNat ≤ 122) ∨
      48 ≤ c.toNat ∧ c.toNat ≤ 57 := by
  have hcodes : c.isAlphanum = (decide (65 ≤ c.toNat ∧ c.toNat ≤ 90) ||
      (decide (97 ≤ c.toNat) && decide (c.toNat ≤ 122)) ||
      (decide (48 ≤ c.toNat) && decide (c.toNat ≤ 57))) := rfl
  simp only [hcodes, Bool.or_eq_true, Bool.and_eq_true, decide_eq_true_eq, or_assoc]

/-- Names are stored in lower case, so capital letters may be written in them. -/
theorem isNameChar_toLower {c : Char} : Identifier.isNameChar c.toLower = true ↔ InName c := by
  simp only [Identifier.isNameChar, Identifier.between, Bool.or_eq_true, Bool.and_eq_true,
    decide_eq_true_eq, beq_iff_eq, Char.reduceToNat, InName, isAlphanum_iff, or_assoc]
  rcases Text.toLower_cases c with hsame | ⟨hlow, hhigh, hval⟩
  · have hcapital : ¬ (65 ≤ c.toNat ∧ c.toNat ≤ 90) := fun h => by
      have hval := Text.toNat_toLower_of_capital h.1 h.2
      rw [hsame] at hval
      omega
    rw [hsame, or_iff_right hcapital]
  · exact iff_of_true (Or.inl (by omega)) (Or.inl ⟨hlow, hhigh⟩)

theorem ScopeName.valid_lower_iff {text : String} :
    ScopeName.Valid (Text.lower text) ↔ IsName text := by
  have hchars : (Text.lower text).toList.all Identifier.isNameChar = true ↔
      ∀ c ∈ text.toList, InName c := by
    simp only [Text.toList_lower, List.all_map, List.all_eq_true, Function.comp_apply,
      isNameChar_toLower]
  have hbytes := Text.utf8ByteSize_lower text
  constructor
  · intro h
    exact ⟨hbytes ▸ h.bytes_le, hchars.mp h.chars⟩
  · intro h
    exact ⟨hbytes.symm ▸ h.bytes_le, hchars.mpr h.chars⟩

theorem ScopeName.parse_cases (dimension : Dimension) (raw : String) :
    (∃ name, ScopeName.parse dimension raw = .ok name ∧ IsName (Text.trim raw)) ∨
      ∃ fault, ScopeName.parse dimension raw = .error fault ∧
        NotName dimension (Text.trim raw) fault := by
  have hbytes : (Text.normalize raw).utf8ByteSize = (Text.trim raw).utf8ByteSize := by
    rw [Text.normalize_eq_lower_trim, Text.utf8ByteSize_lower]
  unfold ScopeName.parse
  dsimp only
  split
  · next hlong => exact Or.inr ⟨_, rfl, .long (hbytes ▸ hlong)⟩
  · next hshort =>
      have hle : (Text.normalize raw).utf8ByteSize ≤ 128 := Nat.le_of_not_lt hshort
      split
      · next hchars =>
          have hvalid : ScopeName.Valid (Text.normalize raw) := ⟨hle, hchars⟩
          rw [Text.normalize_eq_lower_trim] at hvalid
          exact Or.inl ⟨_, rfl, valid_lower_iff.mp hvalid⟩
      · next hchars =>
          simp only [Text.normalize_eq_lower_trim, Text.toList_lower, List.all_map,
            List.all_eq_true, Function.comp_apply, isNameChar_toLower, not_forall] at hchars
          obtain ⟨c, hmem, hc⟩ := hchars
          exact Or.inr ⟨_, rfl, .chars (hbytes ▸ hle) hmem hc⟩

/-- The first of the texts that, trimmed, is no name is refused for this reason. -/
inductive FirstFault (fault : IdentifierFault) : List (Dimension × String) → Prop where
  | here {dimension : Dimension} {raw : String} {rest : List (Dimension × String)}
      (h : NotName dimension (Text.trim raw) fault) : FirstFault fault ((dimension, raw) :: rest)
  | later {dimension : Dimension} {raw : String} {rest : List (Dimension × String)}
      (hname : IsName (Text.trim raw)) (h : FirstFault fault rest) :
      FirstFault fault ((dimension, raw) :: rest)

theorem FirstFault.exists_not_isName {fault : IdentifierFault} {named : List (Dimension × String)}
    (h : FirstFault fault named) : ∃ raw ∈ named.map Prod.snd, ¬ IsName (Text.trim raw) := by
  induction h with
  | here h => exact ⟨_, List.mem_cons_self, h.not_isName⟩
  | later hname h ih =>
      obtain ⟨raw, hmem, hraw⟩ := ih
      exact ⟨raw, List.mem_cons_of_mem _ hmem, hraw⟩

theorem Scope.parse_cases (team environment entity : String) :
    (∃ scope, Scope.parse team environment entity = .ok scope ∧
      ∀ raw ∈ [team, environment, entity], IsName (Text.trim raw)) ∨
    ∃ fault, Scope.parse team environment entity = .error fault ∧
      FirstFault fault [(.team, team), (.environment, environment), (.entity, entity)] := by
  unfold Scope.parse
  rcases ScopeName.parse_cases .team team with ⟨first, hfirst, hteam⟩ | ⟨fault, hfault, hteam⟩
  case inr => exact Or.inr ⟨fault, by rw [hfault]; rfl, .here hteam⟩
  rcases ScopeName.parse_cases .environment environment with
    ⟨second, hsecond, henvironment⟩ | ⟨fault, hfault, henvironment⟩
  case inr => exact Or.inr ⟨fault, by rw [hfirst, hfault]; rfl, .later hteam (.here henvironment)⟩
  rcases ScopeName.parse_cases .entity entity with
    ⟨third, hthird, hentity⟩ | ⟨fault, hfault, hentity⟩
  case inr =>
    exact Or.inr ⟨fault, by rw [hfirst, hsecond, hfault]; rfl,
      .later hteam (.later henvironment (.here hentity))⟩
  refine Or.inl ⟨⟨first, second, third⟩, by rw [hfirst, hsecond, hthird]; rfl, ?_⟩
  simp only [List.mem_cons, List.not_mem_nil, or_false, forall_eq_or_imp, forall_eq]
  exact ⟨hteam, henvironment, hentity⟩

/-! ## Kinds -/

def kindWords : List String :=
  ["manager", "admin", "trigger", "view"]

theorem mem_kindWords_iff {word : String} :
    word ∈ kindWords ↔ ∃ kind : RoleKind, kind.text = word := by
  have hwords : kindWords = RoleKind.all.map RoleKind.text := rfl
  rw [hwords, List.mem_map]
  exact exists_congr fun kind => and_iff_right (Keyword.mem_all kind)

theorem RoleKind.parse_cases (raw : String) :
    (∃ kind, RoleKind.parse raw = .ok kind ∧ kind.text = Text.normalize raw) ∨
      RoleKind.parse raw = .error (.unknownKind (Text.normalize raw)) ∧
        Text.normalize raw ∉ kindWords := by
  rw [RoleKind.parse, RoleKind.ofWord?_normalize]
  cases hkind : (Keyword.parse? raw : Option RoleKind) with
  | some kind => exact Or.inl ⟨kind, rfl, Keyword.parse?_eq_some_iff.mp hkind⟩
  | none =>
      refine Or.inr ⟨rfl, fun hmem => ?_⟩
      obtain ⟨kind, hword⟩ := mem_kindWords_iff.mp hmem
      have hsome : Keyword.parse? raw = some kind := Keyword.parse?_eq_some_iff.mpr hword
      rw [hkind] at hsome
      cases hsome

namespace RoleSubject

/-! ## Fields -/

/-- Trimmed and lowered, the text is `role:` and these four fields with `_` between them. -/
structure FourFields (raw kind team environment entity : String) : Prop where
  text_eq : Text.lower (Text.trim raw) =
    "role:" ++ (kind ++ "_" ++ team ++ "_" ++ environment ++ "_" ++ entity)
  not_mem : ∀ field ∈ [kind, team, environment, entity], '_' ∉ field.toList

structure Spells (raw kind team environment entity : String) : Prop
    extends FourFields raw kind team environment entity where
  kind_mem : Text.trim kind ∈ kindWords
  isName : ∀ field ∈ [team, environment, entity], IsName (Text.trim field)

end RoleSubject

/-- What a text lacks that is refused as a role subject for this reason. -/
def RoleFault.Explains (raw : String) : RoleFault → Prop
  | missingLead text => text = Text.lower (Text.trim raw) ∧ ∀ body, text ≠ "role:" ++ body
  | fieldCount text => text = Text.lower (Text.trim raw) ∧
      ∃ body, text = "role:" ++ body ∧ body.toList.count '_' ≠ 3
  | unknownKind word => ∃ kind team environment entity,
      RoleSubject.FourFields raw kind team environment entity ∧ Text.trim kind = word ∧
        word ∉ kindWords
  | scope fault => ∃ kind team environment entity,
      RoleSubject.FourFields raw kind team environment entity ∧ Text.trim kind ∈ kindWords ∧
        FirstFault fault [(.team, team), (.environment, environment), (.entity, entity)]

namespace RoleSubject

variable {raw kind team environment entity : String}

theorem FourFields.normalize_eq_trim (h : FourFields raw kind team environment entity)
    {field : String} (hfield : field ∈ [kind, team, environment, entity]) :
    Text.normalize field = Text.trim field := by
  apply Text.normalize_eq_trim
  intro c hc
  have hmem : c ∈ (Text.lower (Text.trim raw)).toList := by
    rw [h.text_eq]
    simp only [List.mem_cons, List.not_mem_nil, or_false] at hfield
    simp only [String.toList_append, List.mem_append]
    rcases hfield with rfl | rfl | rfl | rfl <;> tauto
  rw [Text.toList_lower] at hmem
  obtain ⟨d, -, rfl⟩ := List.mem_map.mp hmem
  exact Text.toLower_toLower d

theorem fourFields_iff : FourFields raw kind team environment entity ↔
    ∃ body, Text.after? roleLead (Text.normalize raw) = some body ∧
      Text.fields '_' body = [kind, team, environment, entity] := by
  simp only [Text.after?_eq_some_iff, Text.normalize_eq_lower_trim, Text.fields_eq_iff]
  constructor
  · intro h
    refine ⟨_, h.text_eq, List.cons_ne_nil _ _, h.not_mem, ?_⟩
    simp [List.intercalate]
  · rintro ⟨body, htext, -, hbars, hbody⟩
    obtain rfl : body = kind ++ "_" ++ team ++ "_" ++ environment ++ "_" ++ entity := by
      apply String.toList_inj.mp
      rw [← hbody]
      simp [List.intercalate]
    exact ⟨htext, hbars⟩

theorem FourFields.parse_eq (h : FourFields raw kind team environment entity) :
    parse raw = (do
      let kind ← RoleKind.parse kind
      let scope ← (Scope.parse team environment entity).mapError .scope
      return ⟨kind, scope⟩) := by
  obtain ⟨body, hbody, hfields⟩ := fourFields_iff.mp h
  unfold parse
  dsimp only
  rw [hbody]
  dsimp only
  rw [hfields]

theorem parse_of_not_fourFields
    (h : ¬ ∃ kind team environment entity, FourFields raw kind team environment entity) :
    ∃ fault, parse raw = .error fault ∧ fault.Explains raw := by
  have htext := Text.normalize_eq_lower_trim raw
  unfold parse
  dsimp only
  cases hlead : Text.after? roleLead (Text.normalize raw) with
  | none =>
      refine ⟨_, rfl, htext, fun body hbody => ?_⟩
      -- a text that starts with the lead has something behind it
      have hsome : Text.after? roleLead (Text.normalize raw) = some body :=
        Text.after?_eq_some_iff.mpr hbody
      exact nomatch hlead.symm.trans hsome
  | some body =>
      dsimp only
      split
      · next kind team environment entity hfields =>
          exact absurd ⟨_, _, _, _, fourFields_iff.mpr ⟨body, hlead, hfields⟩⟩ h
      · next hother =>
          -- three separators would leave four fields
          refine ⟨_, rfl, htext, body, Text.after?_eq_some_iff.mp hlead, fun hcount => ?_⟩
          have hlength : (Text.fields '_' body).length = 4 := by
            rw [Text.fields, List.length_map, Text.length_fieldChars, hcount]
          obtain ⟨kind, team, environment, entity, hfields⟩ := List.length_eq_four.mp hlength
          exact hother kind team environment entity hfields

structure ReadFrom (role : RoleSubject) (kind team environment entity : String) : Prop where
  kind_eq : role.kind.text = Text.trim kind
  team_eq : role.scope.team.text = Text.trim team
  environment_eq : role.scope.environment.text = Text.trim environment
  entity_eq : role.scope.entity.text = Text.trim entity

theorem FourFields.parse_cases (h : FourFields raw kind team environment entity) :
    (∃ role, parse raw = .ok role ∧ role.ReadFrom kind team environment entity ∧
      Spells raw kind team environment entity) ∨
    ∃ fault, parse raw = .error fault ∧ fault.Explains raw ∧
      ¬ Spells raw kind team environment entity := by
  have htrims : ∀ field ∈ [kind, team, environment, entity],
      Text.normalize field = Text.trim field := fun field hfield => h.normalize_eq_trim hfield
  simp only [List.mem_cons, List.not_mem_nil, or_false, forall_eq_or_imp, forall_eq] at htrims
  obtain ⟨htrim, htrim₁, htrim₂, htrim₃⟩ := htrims
  -- the kind is looked at first, and the names only if it is one
  rw [h.parse_eq]
  rcases RoleKind.parse_cases kind with ⟨first, hfirst, hword⟩ | ⟨hrefused, hword⟩
  case inr =>
    rw [htrim] at hrefused hword
    exact Or.inr ⟨.unknownKind (Text.trim kind), by rw [hrefused]; rfl,
      ⟨kind, team, environment, entity, h, rfl, hword⟩, fun hspells => hword hspells.kind_mem⟩
  rw [htrim] at hword
  have hkind : Text.trim kind ∈ kindWords := mem_kindWords_iff.mpr ⟨first, hword⟩
  rcases Scope.parse_cases team environment entity with
    ⟨scope, hscope, hnames⟩ | ⟨fault, hrefused, hfault⟩
  case inr =>
    obtain ⟨field, hfield, hname⟩ := hfault.exists_not_isName
    exact Or.inr ⟨.scope fault, by rw [hfirst, hrefused]; rfl,
      ⟨kind, team, environment, entity, h, hkind, hfault⟩,
      fun hspells => hname (hspells.isName field hfield)⟩
  obtain ⟨hteam, henvironment, hentity⟩ := Scope.texts_of_parse hscope
  have hread : ReadFrom ⟨first, scope⟩ kind team environment entity :=
    ⟨hword, hteam.trans htrim₁, henvironment.trans htrim₂, hentity.trans htrim₃⟩
  exact Or.inl ⟨⟨first, scope⟩, by rw [hfirst, hscope]; rfl, hread, h, hkind, hnames⟩

theorem parse_cases (raw : String) :
    (∃ role kind team environment entity, parse raw = .ok role ∧
      Spells raw kind team environment entity) ∨
    ∃ fault, parse raw = .error fault ∧ fault.Explains raw := by
  by_cases h : ∃ kind team environment entity, FourFields raw kind team environment entity
  · obtain ⟨kind, team, environment, entity, hfields⟩ := h
    rcases hfields.parse_cases with ⟨role, hrole, -, hspells⟩ | ⟨fault, hfault, hexplains, -⟩
    · exact Or.inl ⟨role, kind, team, environment, entity, hrole, hspells⟩
    · exact Or.inr ⟨fault, hfault, hexplains⟩
  · exact Or.inr (parse_of_not_fourFields h)

/-! ## Texts of roles -/

theorem count_separator_text (role : RoleSubject) : role.text.toList.count '_' = 3 := by
  have hname (name : ScopeName) : name.text.toList.count '_' = 0 :=
    List.count_eq_zero.mpr (not_mem_name name)
  have hkind : role.kind.text.toList.count '_' = 0 :=
    List.count_eq_zero.mpr (not_mem_kind role.kind)
  have hlead : roleLead.toList.count '_' = 0 := by decide
  have hbar : "_".toList.count '_' = 1 := by decide
  simp only [text, Scope.text, String.toList_append, List.count_append, hname, hkind, hlead, hbar]

/-- A text is read as a role if and only if it spells one: trimmed and lowered, it is `role:` and
four fields, the word of a kind and three names. The role then has this kind and these names. Its
own text is read as the role again, has three separators and no blank. A text that is refused is
refused as a role subject, for what it lacks. -/
theorem parse_iff_spells (raw : String) :
    ((∃ role, parse raw = .ok role) ↔
      ∃ kind team environment entity, Spells raw kind team environment entity) ∧
    (∀ kind team environment entity, Spells raw kind team environment entity →
      ∃ role, parse raw = .ok role ∧ role.ReadFrom kind team environment entity) ∧
    (∀ role, parse raw = .ok role →
      parse role.text = .ok role ∧ role.text.toList.count '_' = 3 ∧
        ∀ c ∈ role.text.toList, Text.isBlank c = false) ∧
    ∀ error, (parse raw).mapError Error.invalidRoleSubject = .error error →
      ∃ fault : RoleFault, error = .invalidRoleSubject fault ∧ fault.Explains raw := by
  have hspelled : ∀ kind team environment entity, Spells raw kind team environment entity →
      ∃ role, parse raw = .ok role ∧ role.ReadFrom kind team environment entity := by
    intro kind team environment entity hspells
    rcases hspells.toFourFields.parse_cases with ⟨role, hrole, hread, -⟩ | ⟨_, _, _, hnone⟩
    · exact ⟨role, hrole, hread⟩
    · exact absurd hspells hnone
  refine ⟨⟨?_, ?_⟩, hspelled, ?_, ?_⟩
  · rintro ⟨role, hrole⟩
    rcases parse_cases raw with
      ⟨_, kind, team, environment, entity, -, hspells⟩ | ⟨fault, hfault, -⟩
    · exact ⟨kind, team, environment, entity, hspells⟩
    · exact nomatch hrole.symm.trans hfault
  · rintro ⟨kind, team, environment, entity, hspells⟩
    obtain ⟨role, hrole, -⟩ := hspelled kind team environment entity hspells
    exact ⟨role, hrole⟩
  · intro role _
    refine ⟨parse_text role, count_separator_text role, fun c hc => ?_⟩
    exact (Text.isPlain_iff.mp (role.isPlain_of_mem_text c hc)).1
  · intro error herror
    rcases parse_cases raw with ⟨role, _, _, _, _, hrole, -⟩ | ⟨fault, hfault, hexplains⟩
    · rw [hrole] at herror
      exact nomatch herror
    · rw [hfault] at herror
      exact ⟨fault, (Except.error.inj herror).symm, hexplains⟩

theorem parse_iff_spells_of_admin :
    let raw := " Role: Admin _Dev__X-1.2 \u3000"
    Spells raw " admin " "dev" "" "x-1.2" ∧
      (∃ role, parse raw = .ok role ∧ role.ReadFrom " admin " "dev" "" "x-1.2" ∧
        parse role.text = .ok role) ∧
      ∃ fault, parse "role:owner___" = .error fault ∧ fault.Explains "role:owner___" := by
  intro raw
  have hspells : Spells raw " admin " "dev" "" "x-1.2" := by
    refine ⟨⟨by decide, by decide⟩, by decide, ?_⟩
    simp only [List.mem_cons, List.not_mem_nil, or_false, forall_eq_or_imp, forall_eq]
    exact ⟨by decide, by decide, by decide⟩
  obtain ⟨role, hrole, hread⟩ := (parse_iff_spells raw).2.1 _ _ _ _ hspells
  have hagain := ((parse_iff_spells raw).2.2.1 role hrole).1
  have howner : (parse "role:owner___").mapError Error.invalidRoleSubject =
      .error (.invalidRoleSubject (.unknownKind "owner")) := by
    decide
  obtain ⟨fault, hfault, hexplains⟩ := (parse_iff_spells "role:owner___").2.2.2 _ howner
  obtain rfl := Error.invalidRoleSubject.inj hfault
  exact ⟨hspells, ⟨role, hrole, hread, hagain⟩, _, by decide, hexplains⟩

end RoleSubject

end ScopedAccess
