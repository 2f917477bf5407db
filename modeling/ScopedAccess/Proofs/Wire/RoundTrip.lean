import ScopedAccess.Wire

/-!
# What is written is read back

Identifiers, rules and groups of rules are read back from their texts and wire values, and no two
rules have the same line (`reads_back`). What is read from the wire agrees with the readers of texts
(`wire_agrees_with_texts`).
-/

namespace ScopedAccess

/-! ## Round trips -/

namespace Text

/-- What stands before the first separator, and what stands after it, are told by the whole. -/
theorem append_cons_injective {sep : Char} {field field' rest rest' : List Char}
    (hfield : sep ∉ field) (hfield' : sep ∉ field')
    (h : field ++ sep :: rest = field' ++ sep :: rest') : field = field' ∧ rest = rest' := by
  have hfields := congrArg (fieldChars sep) h
  rw [fieldChars_append_cons hfield, fieldChars_append_cons hfield'] at hfields
  have heq : field = field' := (List.cons.inj hfields).1
  rw [heq, List.append_cancel_left_eq, List.cons_inj_right] at h
  exact ⟨heq, h⟩

theorem append_comma_injective {field field' rest rest' : String}
    (hfield : ',' ∉ field.toList) (hfield' : ',' ∉ field'.toList)
    (h : field ++ (", " ++ rest) = field' ++ (", " ++ rest')) : field = field' ∧ rest = rest' := by
  have hchars : field.toList ++ ',' :: ' ' :: rest.toList =
      field'.toList ++ ',' :: ' ' :: rest'.toList := by
    simpa using congrArg String.toList h
  obtain ⟨hfirst, hothers⟩ := append_cons_injective hfield hfield' hchars
  rw [List.cons_inj_right] at hothers
  exact ⟨String.toList_inj.mp hfirst, String.toList_inj.mp hothers⟩

end Text

/-! ## Lines of rules -/

theorem Email.comma_not_mem_text (email : Email) : ',' ∉ email.text.toList := by
  intro h
  exact absurd (List.all_eq_true.mp email.valid.chars ',' h) (by decide)

theorem RoleSubject.comma_not_mem_text (role : RoleSubject) : ',' ∉ role.text.toList := by
  have hlead : ',' ∉ roleLead.toList := by decide
  have hkind : ',' ∉ role.kind.text.toList := by cases role.kind <;> decide
  have hbar : ',' ∉ "_".toList := by decide
  have hname (name : ScopeName) : ',' ∉ name.text.toList := by
    intro h
    exact absurd (List.all_eq_true.mp name.valid.chars ',' h) (by decide)
  simp only [text, Scope.text, String.toList_append, List.mem_append, not_or]
  exact ⟨⟨⟨hlead, hkind⟩, hbar⟩, ⟨⟨⟨hname _, hbar⟩, hname _⟩, hbar⟩, hname _⟩

theorem Member.comma_not_mem_text (member : Member) : ',' ∉ member.text.toList := by
  cases member with
  | user email => exact email.comma_not_mem_text
  | role subject => exact subject.comma_not_mem_text

theorem Resource.comma_not_mem_text (resource : Resource) : ',' ∉ resource.text.toList := by
  cases resource <;> decide

theorem Action.comma_not_mem_text (action : Action) : ',' ∉ action.text.toList := by
  cases action <;> decide

theorem ObjectPath.text_injective {a b : ObjectPath} (h : a.text = b.text) : a = b := by
  have hparse : parse a.text = parse b.text := by rw [h]
  simpa using hparse

theorem Member.text_injective {a b : Member} (h : a.text = b.text) : a = b := by
  have hparse : parse a.text = parse b.text := by rw [h]
  simpa using hparse

/-- The fields before the object are told apart by their commas. The object is all that is left
before the effect, and there is only one effect. -/
theorem PolicyRule.text_injective {a b : PolicyRule} (h : a.text = b.text) : a = b := by
  obtain ⟨subject, resource, action, object, ⟨⟩⟩ := a
  obtain ⟨subject', resource', action', object', ⟨⟩⟩ := b
  simp only [text, String.append_assoc, String.append_right_inj] at h
  obtain ⟨hsubject, h⟩ := Text.append_comma_injective subject.comma_not_mem_text
    subject'.comma_not_mem_text h
  obtain ⟨hresource, h⟩ := Text.append_comma_injective resource.comma_not_mem_text
    resource'.comma_not_mem_text h
  obtain ⟨haction, h⟩ := Text.append_comma_injective action.comma_not_mem_text
    action'.comma_not_mem_text h
  have hobject : object.text = object'.text := by
    rwa [String.append_left_inj] at h
  obtain rfl : subject = subject' := RoleSubject.text_injective hsubject
  obtain rfl : resource = resource' := Keyword.text_injective _ _ hresource
  obtain rfl : action = action' := Keyword.text_injective _ _ haction
  obtain rfl : object = object' := ObjectPath.text_injective hobject
  rfl

theorem GroupingRule.text_injective {a b : GroupingRule} (h : a.text = b.text) : a = b := by
  obtain ⟨member, role⟩ := a
  obtain ⟨member', role'⟩ := b
  simp only [text, String.append_assoc, String.append_right_inj] at h
  obtain ⟨hmember, hrole⟩ := Text.append_comma_injective member.comma_not_mem_text
    member'.comma_not_mem_text h
  obtain rfl : member = member' := Member.text_injective hmember
  obtain rfl : role = role' := RoleSubject.text_injective hrole
  rfl

def lineOf : PolicyRule ⊕ GroupingRule → String
  | .inl rule => rule.text
  | .inr rule => rule.text

theorem PolicyRule.text_ne_text (policy : PolicyRule) (grouping : GroupingRule) :
    policy.text ≠ grouping.text := by
  intro h
  have hchars := congrArg String.toList h
  simp [text, GroupingRule.text, String.append_assoc] at hchars

theorem lineOf_injective {a b : PolicyRule ⊕ GroupingRule} (h : lineOf a = lineOf b) : a = b := by
  match a, b with
  | .inl _, .inl _ => exact congrArg Sum.inl (PolicyRule.text_injective h)
  | .inr _, .inr _ => exact congrArg Sum.inr (GroupingRule.text_injective h)
  | .inl policy, .inr grouping => exact absurd h (policy.text_ne_text grouping)
  | .inr grouping, .inl policy => exact absurd h.symm (policy.text_ne_text grouping)

/-! ## Emails and roles -/

theorem RoleSubject.parse_email_text (email : Email) :
    parse email.text = .error (.missingLead email.text) := by
  simp only [parse, email.normalize_text, email.after?_roleLead]

theorem Email.parse_role_text (role : RoleSubject) :
    parse role.text = .error .longEmail ∨ parse role.text = .error .emailLooksLikeRole := by
  have hne : role.text ≠ "" := by
    intro h
    have hlead := role.after?_text
    rw [h, Text.after?_eq_some_iff] at hlead
    simp [roleLead] at hlead
  simp only [parse, role.normalize_text, role.after?_text, Option.isSome_some, if_true,
    dif_neg hne]
  split
  · exact Or.inl rfl
  · exact Or.inr rfl

/-! ## Wire forms of rules -/

namespace Wire

/-- The texts in the named fields of an object, if each of these fields is there and is a text. -/
def Value.texts? (names : List String) : Value → Option (List String)
  | .object fields =>
      names.mapM fun name =>
        match field? fields name with
        | some (.text value) => some value
        | _ => none
  | _ => none

end Wire

open Wire (Refusal)

/-- Read a policy rule from its wire form. The effect, which is left out there, is to allow. -/
def PolicyRule.ofWire (value : Wire.Value) : Except Refusal PolicyRule :=
  match value.texts? ["type", "sub", "res", "act", "obj"] with
  | some ["p", subject, resource, action, object] =>
      (parse subject resource action object Effect.allow.text).mapError .text
  | _ => .error .form

def GroupingRule.ofWire (value : Wire.Value) : Except Refusal GroupingRule :=
  match value.texts? ["type", "sub", "obj"] with
  | some ["g", member, role] => (parse member role).mapError .text
  | _ => .error .form

def RuleGroup.rulesOfWire (value : Wire.Value) : Except Refusal (List PolicyRule) :=
  match value with
  | .object fields =>
      match Wire.Value.field? fields "data" with
      | some (.list items) => items.mapM PolicyRule.ofWire
      | _ => .error .form
  | _ => .error .form

theorem PolicyRule.ofWire_toWire (rule : PolicyRule) : ofWire rule.toWire = .ok rule := by
  have htexts : rule.toWire.texts? ["type", "sub", "res", "act", "obj"] =
      some ["p", rule.subject.text, rule.resource.text, rule.action.text, rule.object.text] := by
    simp [toWire, Wire.Value.texts?, Wire.Value.field?]
  have hparse := rule.parse_texts
  cases heffect : rule.effect
  rw [heffect] at hparse
  simp only [ofWire, htexts, hparse]
  rfl

theorem GroupingRule.ofWire_toWire (rule : GroupingRule) : ofWire rule.toWire = .ok rule := by
  have htexts : rule.toWire.texts? ["type", "sub", "obj"] =
      some ["g", rule.member.text, rule.role.text] := by
    simp [toWire, Wire.Value.texts?, Wire.Value.field?]
  simp only [ofWire, htexts, rule.parse_texts]
  rfl

theorem mapM_ofWire_toWire (rules : List PolicyRule) :
    (rules.map PolicyRule.toWire).mapM PolicyRule.ofWire = .ok rules := by
  induction rules with
  | nil => rfl
  | cons rule rest ih =>
      rw [List.map_cons, List.mapM_cons, rule.ofWire_toWire, ih]
      rfl

theorem RuleGroup.rulesOfWire_toWire (group : RuleGroup) :
    rulesOfWire group.toWire = .ok group.rules := by
  simp only [rulesOfWire, toWire, Wire.Value.field?, List.reverse_singleton, List.find?_singleton,
    decide_true, if_true, Option.map_some]
  exact mapM_ofWire_toWire group.rules

/-- Every identifier, rule and group of rules is read back from what it is written as, and no two
rules have the same line. An email is never read as a role, nor a role as an email. -/
theorem reads_back :
    (∀ role : RoleSubject, RoleSubject.parse role.text = .ok role ∧
      ∀ email, Email.parse role.text ≠ .ok email) ∧
    (∀ email : Email, Email.parse email.text = .ok email ∧
      ∀ role, RoleSubject.parse email.text ≠ .ok role) ∧
    (∀ path : ObjectPath, ObjectPath.parse path.text = path) ∧
    (∀ member : Member, Member.parse member.text = .ok member) ∧
    (∀ rule : PolicyRule, PolicyRule.parse rule.subject.text rule.resource.text rule.action.text
      rule.object.text rule.effect.text = .ok rule) ∧
    (∀ rule : GroupingRule, GroupingRule.parse rule.member.text rule.role.text = .ok rule) ∧
    (∀ group : RuleGroup, RuleGroup.rulesOfWire group.toWire = .ok group.rules) ∧
    (∀ rule : GroupingRule, GroupingRule.ofWire rule.toWire = .ok rule) ∧
    ∀ a b, lineOf a = lineOf b ↔ a = b := by
  refine ⟨fun role => ⟨role.parse_text, fun email h => ?_⟩,
    fun email => ⟨email.parse_text, fun role h => ?_⟩, ObjectPath.parse_text, Member.parse_text,
    PolicyRule.parse_texts, GroupingRule.parse_texts, RuleGroup.rulesOfWire_toWire,
    GroupingRule.ofWire_toWire, fun a b => ⟨lineOf_injective, congrArg lineOf⟩⟩
  · rcases Email.parse_role_text role with hlong | hlead
    · exact nomatch hlong.symm.trans h
    · exact nomatch hlead.symm.trans h
  · exact nomatch (RoleSubject.parse_email_text email).symm.trans h

/-! ## Keywords -/

theorem Resource.parse_eq_ok_iff {raw : String} {resource : Resource} :
    parse raw = .ok resource ↔ Keyword.parse? raw = some resource := by
  rw [parse]
  cases (Keyword.parse? raw : Option Resource) <;> simp

theorem Action.parse_eq_ok_iff {raw : String} {action : Action} :
    parse raw = .ok action ↔ Keyword.parse? raw = some action := by
  rw [parse]
  cases (Keyword.parse? raw : Option Action) <;> simp

theorem RoleKind.parse_eq_ok_iff {raw : String} {kind : RoleKind} :
    parse raw = .ok kind ↔ Keyword.parse? raw = some kind := by
  rw [parse, ofWord?_normalize]
  cases (Keyword.parse? raw : Option RoleKind) <;> simp

namespace Wire

variable {α : Type}

theorem mapError_eq_ok_iff {ε ε' : Type} {x : Except ε α} {f : ε → ε'} {a : α} :
    x.mapError f = .ok a ↔ x = .ok a := by
  cases x with
  | error e => exact ⟨nofun, nofun⟩
  | ok b =>
      show Except.ok b = .ok a ↔ _
      rw [Except.ok.injEq, Except.ok.injEq]

theorem bind_eq_ok_iff {ε β : Type} {x : Except ε α} {f : α → Except ε β} {b : β} :
    x >>= f = .ok b ↔ ∃ a, x = .ok a ∧ f a = .ok b := by
  cases x <;> simp [bind, Except.bind]

/-- Whatever is read is read again from what it is written as. -/
def Stable (α : Type) [Codec α] : Prop :=
  ∀ (value : Value) (a : α), decode value = .ok a → (decode (encode a) : Except Refusal α) = .ok a

theorem stable_of_lawful [Codec α] [LawfulCodec α] : Stable α :=
  fun _ a _ => LawfulCodec.decode_encode a

/-- On the wire there is the text `text`, and a text is read there as `Reads` says. -/
structure TextForm [Codec α] (Reads : String → α → Prop) (text : α → String) : Prop where
  decode_text_iff : ∀ raw a, decode (.text raw) = .ok a ↔ Reads raw a
  exists_text : ∀ value (a : α), decode value = .ok a → ∃ raw, value = .text raw
  encode_eq : ∀ a, encode a = .text (text a)

theorem textForm_of_decode [Codec α] {Reads : String → α → Prop} {text : α → String}
    {read : String → Except Refusal α}
    (hdecode : ∀ value, decode value =
      match value with
      | .text raw => read raw
      | _ => .error .form)
    (hreads : ∀ raw a, read raw = .ok a ↔ Reads raw a) (hencode : ∀ a, encode a = .text (text a)) :
    TextForm Reads text where
  decode_text_iff raw a := by
    rw [hdecode]
    exact hreads raw a
  exists_text value a h := by
    rw [hdecode] at h
    split at h
    · exact ⟨_, rfl⟩
    · cases h
  encode_eq := hencode

theorem textForm_email : TextForm (fun raw email => Email.parse raw = .ok email) Email.text :=
  textForm_of_decode (fun _ => rfl) (fun _ _ => mapError_eq_ok_iff) fun _ => rfl

theorem textForm_role :
    TextForm (fun raw role => RoleSubject.parse raw = .ok role) RoleSubject.text :=
  textForm_of_decode (fun _ => rfl) (fun _ _ => mapError_eq_ok_iff) fun _ => rfl

theorem textForm_object :
    TextForm (fun raw path => ObjectPath.parse raw = path) ObjectPath.text :=
  textForm_of_decode (fun _ => rfl) (fun _ _ => by rw [Except.ok.injEq]) fun _ => rfl

/-- On the wire there is the word of the keyword, and no other text. Texts are read apart from the
wire as the wire reads them once they are trimmed and lowered. -/
structure WordForm [Keyword α] [Codec α] (Reads : String → α → Prop) : Prop where
  decode_text_iff : ∀ (word : String) (a : α), decode (.text word) = .ok a ↔ word = Keyword.text a
  reads_iff : ∀ raw a, Reads raw a ↔ decode (.text (Text.lower (Text.trim raw))) = .ok a
  encode_eq : ∀ a : α, encode a = .text (Keyword.text a)

theorem wordForm_of_parse? [Keyword α] [Named α] [SameWords α] {Reads : String → α → Prop}
    (h : ∀ raw a, Reads raw a ↔ Keyword.parse? raw = some a) : WordForm Reads := by
  have hdecode (word : String) (a : α) : decode (.text word) = .ok a ↔ word = Keyword.text a :=
    decodeWord_eq_ok_iff.trans eq_comm
  refine ⟨hdecode, fun raw a => ?_, fun a => congrArg Value.text (SameWords.wireWord_eq_text a)⟩
  rw [h, Keyword.parse?_eq_some_iff, Text.normalize_eq_lower_trim, hdecode, eq_comm]

/-! ## Settings -/

/-- Each value that fits is read from what it is written as, and nothing else is read. -/
structure Exact (α : Type) [Codec α] (Fits : α → Prop) : Prop where
  decode_encode : ∀ a, Fits a → (decode (encode a) : Except Refusal α) = .ok a
  eq_encode : ∀ (value : Value) (a : α), decode value = .ok a → value = encode a ∧ Fits a

theorem exact_bool : Exact Bool fun _ => True where
  decode_encode _ _ := rfl
  eq_encode value flag h := by
    cases value with
    | bool other =>
        cases h
        exact ⟨rfl, trivial⟩
    | _ => cases h

theorem exact_word : Exact Nat fun n => n < wordLimit where
  decode_encode _ hlt := decode_encode_word hlt
  eq_encode value n h := by
    cases value with
    | natural other =>
        change (if other < wordLimit then .ok other else .error Refusal.form) = Except.ok n at h
        split at h
        · next hlt =>
            cases h
            exact ⟨rfl, hlt⟩
        · cases h
    | _ => cases h

theorem exact_optional_word : Exact (Option Nat) fun word => ∀ n ∈ word, n < wordLimit where
  decode_encode _ hlt := decode_encode_option_word hlt
  eq_encode value word h := by
    cases value with
    | null =>
        cases h
        exact ⟨rfl, fun n hn => nomatch hn⟩
    | natural other =>
        change (decode (Value.natural other) : Except Refusal Nat).map some = .ok word at h
        cases hother : (decode (Value.natural other) : Except Refusal Nat) with
        | error refusal =>
            rw [hother] at h
            cases h
        | ok n =>
            rw [hother] at h
            cases h
            obtain ⟨heq, hlt⟩ := exact_word.eq_encode _ n hother
            refine ⟨heq, fun m hm => ?_⟩
            cases hm
            exact hlt
    | _ => cases h

/-- A field that is left out counts as if its default were written there. -/
theorem Exact.decodeField_eq_ok_iff [Codec α] {Fits : α → Prop} (h : Exact α Fits)
    {fields : List (String × Value)} {name : String} {default a : α} (hdefault : Fits default) :
    decodeField fields name default = .ok a ↔
      Fits a ∧ some (encode a) = (Value.field? fields name).or (some (encode default)) := by
  have hread (value : Value) : decode value = .ok a ↔ Fits a ∧ encode a = value := by
    constructor
    · intro hvalue
      obtain ⟨heq, hfits⟩ := h.eq_encode value a hvalue
      exact ⟨hfits, heq.symm⟩
    · rintro ⟨hfits, rfl⟩
      exact h.decode_encode a hfits
  unfold decodeField
  cases Value.field? fields name with
  | some value => simpa using hread value
  | none =>
      have hown := h.decode_encode default hdefault
      simpa [← hown] using hread (encode default)

def Value.told? (value : Value) (name : String) : Option Value :=
  match value with
  | .object fields => field? fields name
  | _ => none

end Wire

open Wire

structure Config.InWords (config : Config) : Prop where
  maxDepth_lt : config.maxDepth < wordLimit
  cacheCapacity_lt : config.cacheCapacity < wordLimit
  ttl_lt : ∀ n ∈ config.cacheTtlSeconds, n < wordLimit

theorem Config.inWords_default : (default : Config).InWords where
  maxDepth_lt := by decide
  cacheCapacity_lt := by decide
  ttl_lt := by decide

/-- Written, the settings have the object's named fields, and the defaults where it has none. -/
structure Config.ToldBy (fields : List (String × Value)) (config : Config) : Prop where
  inWords : config.InWords
  told?_eq : ∀ name ∈ configFieldNames,
    (encode config).told? name =
      ((Value.object fields).told? name).or ((encode (default : Config)).told? name)

namespace Wire

variable {fields : List (String × Value)} {config : Config}

theorem decodeConfigFields_eq_ok_iff_fields :
    decodeConfigFields fields = .ok config ↔
      decodeField fields "enable_role_hierarchy" (default : Config).followRoles =
        .ok config.followRoles ∧
      decodeField fields "max_inherit_depth" (default : Config).maxDepth = .ok config.maxDepth ∧
      decodeField fields "cache_capacity" (default : Config).cacheCapacity =
        .ok config.cacheCapacity ∧
      decodeField fields "cache_ttl_secs" (default : Config).cacheTtlSeconds =
        .ok config.cacheTtlSeconds := by
  simp only [decodeConfigFields, bind_eq_ok_iff]
  constructor
  · rintro ⟨_, hroles, _, hdepth, _, hcapacity, _, httl, ⟨⟩⟩
    exact ⟨hroles, hdepth, hcapacity, httl⟩
  · rintro ⟨hroles, hdepth, hcapacity, httl⟩
    exact ⟨_, hroles, _, hdepth, _, hcapacity, _, httl, rfl⟩

theorem forall_mem_configFieldNames {P : String → Prop} : (∀ name ∈ configFieldNames, P name) ↔
    P "enable_role_hierarchy" ∧ P "max_inherit_depth" ∧ P "cache_capacity" ∧
      P "cache_ttl_secs" := by
  simp [configFieldNames]

theorem decodeConfigFields_eq_ok_iff :
    decodeConfigFields fields = .ok config ↔ config.ToldBy fields := by
  have hdefault := Config.inWords_default
  rw [decodeConfigFields_eq_ok_iff_fields, exact_bool.decodeField_eq_ok_iff trivial,
    exact_word.decodeField_eq_ok_iff hdefault.maxDepth_lt,
    exact_word.decodeField_eq_ok_iff hdefault.cacheCapacity_lt,
    exact_optional_word.decodeField_eq_ok_iff hdefault.ttl_lt]
  constructor
  · rintro ⟨⟨-, hroles⟩, ⟨hdepth_lt, hdepth⟩, ⟨hcapacity_lt, hcapacity⟩, httl_lt, httl⟩
    exact ⟨⟨hdepth_lt, hcapacity_lt, httl_lt⟩,
      forall_mem_configFieldNames.mpr ⟨hroles, hdepth, hcapacity, httl⟩⟩
  · rintro ⟨⟨hdepth_lt, hcapacity_lt, httl_lt⟩, htold⟩
    obtain ⟨hroles, hdepth, hcapacity, httl⟩ := forall_mem_configFieldNames.mp htold
    exact ⟨⟨trivial, hroles⟩, ⟨hdepth_lt, hdepth⟩, ⟨hcapacity_lt, hcapacity⟩, httl_lt, httl⟩

theorem stable_config : Stable Config := by
  have hread {fields : List (String × Value)} {config : Config}
      (h : decodeConfigFields fields = .ok config) : decode (encode config) = .ok config := by
    have hwords := (decodeConfigFields_eq_ok_iff.mp h).inWords
    exact decode_encode_config hwords.maxDepth_lt hwords.cacheCapacity_lt hwords.ttl_lt
  intro value config h
  cases value with
  | object fields => exact hread h
  | list items =>
      change (if items.length ≤ configFieldNames.length then
        decodeConfigFields (configFieldNames.zip items) else .error .form) = _ at h
      split at h
      · exact hread h
      · cases h
  | _ => cases h

/-- Whatever is read from the wire is read again from what it is written as. A text on the wire is
read as an identifier if and only if the identifier's own reader takes it, with the same result,
and what is written is the text that is shown. A text on the wire is read as a keyword if and only
if it is the keyword's word; apart from the wire a text is read as a keyword if and only if, trimmed
and lowered, it is read so on the wire. Settings whose numbers are words are read as themselves, and
an object is read as settings if and only if they are told by it. -/
theorem wire_agrees_with_texts :
    (Stable Email ∧ Stable RoleSubject ∧ Stable ObjectPath ∧ Stable Resource ∧ Stable Action ∧
      Stable Effect ∧ Stable RoleKind ∧ Stable Config) ∧
    (TextForm (fun raw email => Email.parse raw = .ok email) Email.text ∧
      TextForm (fun raw role => RoleSubject.parse raw = .ok role) RoleSubject.text ∧
      TextForm (fun raw path => ObjectPath.parse raw = path) ObjectPath.text) ∧
    (WordForm (fun raw resource => Resource.parse raw = .ok resource) ∧
      WordForm (fun raw action => Action.parse raw = .ok action) ∧
      WordForm (fun raw kind => RoleKind.parse raw = .ok kind)) ∧
    (∀ config : Config, config.InWords →
      (decode (encode config) : Except Refusal Config) = .ok config) ∧
    ∀ fields (config : Config), decode (.object fields) = .ok config ↔ config.ToldBy fields := by
  refine ⟨⟨stable_of_lawful, stable_of_lawful, stable_of_lawful, stable_of_lawful, stable_of_lawful,
      stable_of_lawful, stable_of_lawful, stable_config⟩,
    ⟨textForm_email, textForm_role, textForm_object⟩,
    ⟨wordForm_of_parse? fun _ _ => Resource.parse_eq_ok_iff,
      wordForm_of_parse? fun _ _ => Action.parse_eq_ok_iff,
      wordForm_of_parse? fun _ _ => RoleKind.parse_eq_ok_iff⟩,
    fun config hwords => ?_, fun fields config => decodeConfigFields_eq_ok_iff⟩
  exact decode_encode_config hwords.maxDepth_lt hwords.cacheCapacity_lt hwords.ttl_lt

theorem wire_agrees_with_texts_on_partial_settings :
    let email : Email := ⟨"a@b", by decide, by decide, by decide⟩
    let fields :=
      [("cache_capacity", Value.natural 18446744073709551615), ("cache_ttl_secs", .null)]
    let config : Config := ⟨⟨true, 10⟩, 18446744073709551615, none⟩
    decode (.text " A@B ") = .ok email ∧
      (decode (encode email) : Except Refusal Email) = .ok email ∧
      config.InWords ∧ (decode (encode config) : Except Refusal Config) = .ok config ∧
      config.ToldBy fields ∧ decode (.object fields) = .ok config := by
  intro email fields config
  have hemail : decode (.text " A@B ") = .ok email := by rfl
  have hwords : config.InWords := ⟨by decide, by decide, fun n hn => nomatch hn⟩
  have htold : config.ToldBy fields :=
    ⟨hwords, forall_mem_configFieldNames.mpr ⟨rfl, rfl, rfl, rfl⟩⟩
  exact ⟨hemail, wire_agrees_with_texts.1.1 _ email hemail, hwords,
    wire_agrees_with_texts.2.2.2.1 config hwords, htold,
    (wire_agrees_with_texts.2.2.2.2 fields config).mpr htold⟩

end Wire

end ScopedAccess
