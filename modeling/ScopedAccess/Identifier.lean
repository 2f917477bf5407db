import ScopedAccess.Text

/-!
# Identifiers

Emails, and the names that a scope has for a team, an environment and an entity. They are written
with few characters, all of which are normal, so an identifier is read again as itself.
-/

namespace ScopedAccess

/-! ## Characters and faults -/

inductive Dimension where
  | team
  | environment
  | entity
  deriving DecidableEq, Repr

namespace Dimension

def text : Dimension → String
  | team => "team"
  | environment => "environment"
  | entity => "entity"

end Dimension

/-- Every role subject starts with this text, and no email does. -/
def roleLead : String :=
  "role:"

inductive IdentifierFault where
  | emptyEmail
  | longEmail
  | emailLooksLikeRole
  | emailCharacters
  | longName (dimension : Dimension)
  | nameCharacters (dimension : Dimension)
  deriving DecidableEq, Repr

namespace Identifier

def maxEmailBytes : Nat :=
  254

def maxNameBytes : Nat :=
  128

def between (first last c : Char) : Bool :=
  first.toNat ≤ c.toNat && c.toNat ≤ last.toNat

/-- Scope names leave out `_` and `/`, which separate the parts of roles and of objects. -/
def isNameChar (c : Char) : Bool :=
  between 'a' 'z' c || between '0' '9' c || c == '-' || c == '.'

def isEmailChar (c : Char) : Bool :=
  isNameChar c || c == '@' || c == '_' || c == '+'

/-- Characters of identifiers are visible ASCII characters other than capital letters. -/
theorem toNat_of_isEmailChar {c : Char} (h : isEmailChar c = true) :
    33 ≤ c.toNat ∧ c.toNat ≤ 126 ∧ ¬ (65 ≤ c.toNat ∧ c.toNat ≤ 90) := by
  simp only [isEmailChar, isNameChar, between, Bool.or_eq_true, Bool.and_eq_true,
    decide_eq_true_eq, beq_iff_eq, Char.reduceToNat] at h
  rcases h with (((((h | h) | h) | h) | h) | h) | h
  · omega
  · omega
  all_goals
    subst h
    decide

theorem isEmailChar_of_isNameChar {c : Char} (h : isNameChar c = true) :
    isEmailChar c = true := by
  simp [isEmailChar, h]

theorem isPlain_of_isEmailChar {c : Char} (h : isEmailChar c = true) :
    Text.isPlain c = true := by
  have hcode := toNat_of_isEmailChar h
  refine Text.isPlain_iff.mpr ⟨?_, ?_⟩
  · simp [Text.isBlank, Text.blankRanges]
    omega
  · rcases Text.toLower_cases c with hsame | hcapital
    · exact hsame
    · omega

theorem isPlain_of_isNameChar {c : Char} (h : isNameChar c = true) : Text.isPlain c = true :=
  isPlain_of_isEmailChar (isEmailChar_of_isNameChar h)

theorem normalize_of_isEmailChar {text : String}
    (h : text.toList.all isEmailChar = true) : Text.normalize text = text :=
  Text.normalize_eq_self_of_isPlain fun c hc =>
    isPlain_of_isEmailChar (List.all_eq_true.mp h c hc)

theorem normalize_of_isNameChar {text : String}
    (h : text.toList.all isNameChar = true) : Text.normalize text = text :=
  normalize_of_isEmailChar <| List.all_eq_true.mpr fun c hc =>
    isEmailChar_of_isNameChar (List.all_eq_true.mp h c hc)

end Identifier

namespace IdentifierFault

def message : IdentifierFault → String
  | emptyEmail => "email must not be empty"
  | longEmail => "email length must be <= " ++ toString Identifier.maxEmailBytes
  | emailLooksLikeRole => "email must not use the role subject prefix"
  | emailCharacters => "email contains invalid characters"
  | longName dimension =>
      dimension.text ++ " length must be <= " ++ toString Identifier.maxNameBytes
  | nameCharacters dimension => dimension.text ++ " contains invalid characters"

def report (fault : IdentifierFault) : String :=
  "invalid id: " ++ fault.message

end IdentifierFault

/-! ## Emails -/

open Identifier

structure Email.Valid (text : String) : Prop where
  ne_empty : text ≠ ""
  bytes_le : text.utf8ByteSize ≤ maxEmailBytes
  chars : text.toList.all isEmailChar = true

structure Email where
  text : String
  valid : Email.Valid text
  deriving DecidableEq

namespace Email

instance : Ord Email where
  compare a b := compare a.text b.text

/--
The limit on bytes is the same before and after lowering, since a letter and its lower case have
one byte each.
-/
def parse (raw : String) : Except IdentifierFault Email :=
  let text := Text.normalize raw
  if empty : text = "" then
    .error .emptyEmail
  else if long : maxEmailBytes < text.utf8ByteSize then
    .error .longEmail
  else if (Text.after? roleLead text).isSome then
    .error .emailLooksLikeRole
  else if chars : text.toList.all isEmailChar = true then
    .ok ⟨text, empty, Nat.le_of_not_lt long, chars⟩
  else
    .error .emailCharacters

/-- A colon is no character of an email, so an email cannot be taken for a role subject. -/
theorem after?_roleLead (email : Email) : Text.after? roleLead email.text = none := by
  cases h : Text.after? roleLead email.text with
  | none => rfl
  | some rest =>
      have htext := Text.after?_eq_some_iff.mp h
      have hcolon : isEmailChar ':' = true :=
        List.all_eq_true.mp email.valid.chars ':' (by simp [htext, roleLead])
      exact absurd hcolon (by decide)

theorem normalize_text (email : Email) : Text.normalize email.text = email.text :=
  normalize_of_isEmailChar email.valid.chars

@[simp] theorem parse_text (email : Email) : parse email.text = .ok email := by
  have hlong : ¬ maxEmailBytes < email.text.utf8ByteSize :=
    Nat.not_lt.mpr email.valid.bytes_le
  simp only [parse, email.normalize_text, email.after?_roleLead]
  rw [dif_neg email.valid.ne_empty, dif_neg hlong, if_neg (by simp), dif_pos email.valid.chars]

end Email

/-! ## Scopes -/

structure ScopeName.Valid (text : String) : Prop where
  bytes_le : text.utf8ByteSize ≤ maxNameBytes
  chars : text.toList.all isNameChar = true

structure ScopeName where
  text : String
  valid : ScopeName.Valid text
  deriving DecidableEq

namespace ScopeName

instance : Ord ScopeName where
  compare a b := compare a.text b.text

/-- The empty name, which stands for every value of a dimension. -/
def every : ScopeName :=
  ⟨"", by decide, by simp⟩

def parse (dimension : Dimension) (raw : String) : Except IdentifierFault ScopeName :=
  let text := Text.normalize raw
  if long : maxNameBytes < text.utf8ByteSize then
    .error (.longName dimension)
  else if chars : text.toList.all isNameChar = true then
    .ok ⟨text, Nat.le_of_not_lt long, chars⟩
  else
    .error (.nameCharacters dimension)

theorem normalize_text (name : ScopeName) : Text.normalize name.text = name.text :=
  normalize_of_isNameChar name.valid.chars

@[simp] theorem parse_text (dimension : Dimension) (name : ScopeName) :
    parse dimension name.text = .ok name := by
  have hlong : ¬ maxNameBytes < name.text.utf8ByteSize :=
    Nat.not_lt.mpr name.valid.bytes_le
  simp only [parse, name.normalize_text]
  rw [dif_neg hlong, dif_pos name.valid.chars]

theorem text_of_parse {dimension : Dimension} {raw : String} {name : ScopeName}
    (h : parse dimension raw = .ok name) : name.text = Text.normalize raw := by
  simp only [parse] at h
  split at h
  · exact nomatch h
  · split at h
    · exact (congrArg text (Except.ok.inj h)).symm
    · exact nomatch h

end ScopeName

structure Scope where
  team : ScopeName
  environment : ScopeName
  entity : ScopeName
  deriving DecidableEq

namespace Scope

instance : Ord Scope where
  compare a b :=
    (compare a.team b.team).then
      ((compare a.environment b.environment).then (compare a.entity b.entity))

def every : Scope :=
  ⟨.every, .every, .every⟩

instance : Inhabited Scope where
  default := every

def parse (team environment entity : String) : Except IdentifierFault Scope := do
  let team ← ScopeName.parse .team team
  let environment ← ScopeName.parse .environment environment
  let entity ← ScopeName.parse .entity entity
  return ⟨team, environment, entity⟩

def text (scope : Scope) : String :=
  scope.team.text ++ "_" ++ scope.environment.text ++ "_" ++ scope.entity.text

@[simp] theorem parse_texts (scope : Scope) :
    parse scope.team.text scope.environment.text scope.entity.text = .ok scope := by
  simp only [parse, ScopeName.parse_text]
  rfl

theorem texts_of_parse {team environment entity : String} {scope : Scope}
    (h : parse team environment entity = .ok scope) :
    scope.team.text = Text.normalize team ∧
      scope.environment.text = Text.normalize environment ∧
      scope.entity.text = Text.normalize entity := by
  unfold parse at h
  cases hteam : ScopeName.parse .team team with
  | error fault => simp [hteam, bind, Except.bind] at h
  | ok first =>
      cases henvironment : ScopeName.parse .environment environment with
      | error fault => simp [hteam, henvironment, bind, Except.bind] at h
      | ok second =>
          cases hentity : ScopeName.parse .entity entity with
          | error fault => simp [hteam, henvironment, hentity, bind, Except.bind] at h
          | ok third =>
              simp only [hteam, henvironment, hentity, bind, Except.bind, pure, Except.pure,
                Except.ok.injEq] at h
              subst h
              exact ⟨ScopeName.text_of_parse hteam, ScopeName.text_of_parse henvironment,
                ScopeName.text_of_parse hentity⟩

end Scope

end ScopedAccess
