import ScopedAccess.Identifier
import ScopedAccess.Permission

/-!
# Roles

A role is a kind with a scope. Its text is `role:<kind>_<team>_<environment>_<entity>`, where the
names of the scope may be empty. `RoleSubject.parse_text` says that a role's text is read as that
role.
-/

namespace ScopedAccess

inductive RoleKind where
  | manager
  | admin
  | trigger
  | view
  deriving DecidableEq, Ord, Repr

namespace RoleKind

/-- All kinds, in the order in which default rules are generated. -/
def all : List RoleKind :=
  [manager, admin, trigger, view]

def text : RoleKind → String
  | manager => "manager"
  | admin => "admin"
  | trigger => "trigger"
  | view => "view"

instance : Keyword RoleKind where
  all := all
  text := text
  mem_all a := by cases a <;> decide
  text_injective a b := by cases a <;> cases b <;> decide
  normalize_text a := by cases a <;> decide

end RoleKind

/-- Why a text is not a role subject. The texts kept here are normal. -/
inductive RoleFault where
  | unknownKind (word : String)
  | missingLead (text : String)
  | fieldCount (text : String)
  | scope (fault : IdentifierFault)
  deriving DecidableEq, Repr

namespace RoleFault

def message : RoleFault → String
  | unknownKind word => "unknown role kind `" ++ word ++ "`"
  | missingLead text => "`" ++ text ++ "` is missing the `" ++ roleLead ++ "` prefix"
  | fieldCount text => "`" ++ text ++ "` must have exactly four `_`-separated fields"
  | scope fault => fault.report

end RoleFault

namespace RoleKind

def ofWord? : String → Option RoleKind
  | "manager" => some manager
  | "admin" => some admin
  | "trigger" => some trigger
  | "view" => some view
  | _ => none

theorem ofWord?_eq_some_iff {word : String} {kind : RoleKind} :
    ofWord? word = some kind ↔ kind.text = word := by
  constructor
  · intro h
    unfold ofWord? at h
    split at h <;> cases h <;> rfl
  · rintro rfl
    cases kind <;> rfl

/-- The words from which a kind is read are those in which a kind is shown. -/
theorem ofWord?_normalize (raw : String) : ofWord? (Text.normalize raw) = Keyword.parse? raw := by
  ext kind
  rw [ofWord?_eq_some_iff, Keyword.parse?_eq_some_iff]
  rfl

def parse (raw : String) : Except RoleFault RoleKind :=
  match ofWord? (Text.normalize raw) with
  | some kind => .ok kind
  | none => .error (.unknownKind (Text.normalize raw))

@[simp] theorem parse_text (kind : RoleKind) : parse kind.text = .ok kind := by
  have h : Keyword.parse? kind.text = some kind := Keyword.parse?_text kind
  simp [parse, ofWord?_normalize, h]

end RoleKind

structure RoleSubject where
  kind : RoleKind
  scope : Scope
  deriving DecidableEq

namespace RoleSubject

instance : Ord RoleSubject where
  compare a b := (compare a.kind b.kind).then (compare a.scope b.scope)

def text (role : RoleSubject) : String :=
  roleLead ++ role.kind.text ++ "_" ++ role.scope.text

/-- Four fields between `_`, behind the lead: the kind is read first, then the scope. -/
def parse (raw : String) : Except RoleFault RoleSubject :=
  let text := Text.normalize raw
  match Text.after? roleLead text with
  | none => .error (.missingLead text)
  | some body =>
      match Text.fields '_' body with
      | [kind, team, environment, entity] => do
          let kind ← RoleKind.parse kind
          let scope ← (Scope.parse team environment entity).mapError .scope
          return ⟨kind, scope⟩
      | _ => .error (.fieldCount text)

theorem not_mem_name (name : ScopeName) : '_' ∉ name.text.toList := by
  intro h
  exact absurd (List.all_eq_true.mp name.valid.chars '_' h) (by decide)

theorem not_mem_kind (kind : RoleKind) : '_' ∉ kind.text.toList := by
  cases kind <;> decide

theorem fields_body (role : RoleSubject) :
    Text.fields '_' (role.kind.text ++ "_" ++ role.scope.text) =
      [role.kind.text, role.scope.team.text, role.scope.environment.text,
        role.scope.entity.text] := by
  simp only [Text.fields, Scope.text, String.toList_append, List.append_assoc]
  show (Text.fieldChars '_' (role.kind.text.toList ++ '_' :: (role.scope.team.text.toList ++
    '_' :: (role.scope.environment.text.toList ++ '_' :: role.scope.entity.text.toList)))).map
      String.ofList = _
  rw [Text.fieldChars_append_cons (not_mem_kind role.kind),
    Text.fieldChars_append_cons (not_mem_name role.scope.team),
    Text.fieldChars_append_cons (not_mem_name role.scope.environment),
    Text.fieldChars_of_not_mem (not_mem_name role.scope.entity)]
  simp

theorem isPlain_of_mem_text (role : RoleSubject) :
    ∀ c ∈ role.text.toList, Text.isPlain c = true := by
  have hlead : roleLead.toList.all Text.isPlain = true := by decide
  have hkind : role.kind.text.toList.all Text.isPlain = true := by
    cases role.kind <;> decide
  have hbar : "_".toList.all Text.isPlain = true := by decide
  have hname : ∀ name : ScopeName, name.text.toList.all Text.isPlain = true := fun name =>
    List.all_eq_true.mpr fun c hc =>
      Identifier.isPlain_of_isNameChar (List.all_eq_true.mp name.valid.chars c hc)
  have hall : role.text.toList.all Text.isPlain = true := by
    simp only [text, Scope.text, String.toList_append, List.all_append, hlead, hkind, hbar,
      hname, Bool.and_self]
  exact List.all_eq_true.mp hall

theorem normalize_text (role : RoleSubject) : Text.normalize role.text = role.text :=
  Text.normalize_eq_self_of_isPlain role.isPlain_of_mem_text

theorem after?_text (role : RoleSubject) :
    Text.after? roleLead role.text = some (role.kind.text ++ "_" ++ role.scope.text) :=
  Text.after?_eq_some_iff.mpr (by simp [text, String.append_assoc])

@[simp] theorem parse_text (role : RoleSubject) : parse role.text = .ok role := by
  simp only [parse, role.normalize_text, role.after?_text, role.fields_body,
    RoleKind.parse_text, Scope.parse_texts]
  rfl

theorem text_injective {a b : RoleSubject} (h : a.text = b.text) : a = b := by
  have hparse : parse a.text = parse b.text := by rw [h]
  simpa using hparse

end RoleSubject

end ScopedAccess
