import ScopedAccess.Role

/-!
# Rules

A policy rule lets a role act on the objects of a resource. A grouping rule makes a user, or a role,
a member of a role, whose members may do what it may do.
-/

namespace ScopedAccess

/-! ## Errors -/

inductive DecodeFault where
  | different (decoded : RoleSubject)
  | refused (fault : RoleFault)
  deriving DecidableEq

inductive GenerationFault where
  | render (kind : RoleKind) (reason : IdentifierFault)
  | decode (role : RoleSubject) (reason : DecodeFault)
  deriving DecidableEq

inductive Error where
  | store (message : String)
  | invalidId (fault : IdentifierFault)
  | invalidRoleSubject (fault : RoleFault)
  | invalidRule (fault : RuleFault)
  | generation (fault : GenerationFault)
  | roleCycle (role : RoleSubject)
  | roleDepth (role : RoleSubject) (limit : Nat)
  | notLoaded
  deriving DecidableEq

namespace RoleFault

def report (fault : RoleFault) : String :=
  "invalid role subject: " ++ fault.message

end RoleFault

namespace DecodeFault

def message : DecodeFault → String
  | different decoded => "decodes to a different role `" ++ decoded.text ++ "`"
  | refused fault => fault.report

end DecodeFault

namespace GenerationFault

def message : GenerationFault → String
  | render kind reason =>
      "failed to render " ++ kind.text ++ " policies: " ++ reason.report
  | decode role reason =>
      "failed to decode rendered policy subject " ++ role.text ++ ": " ++ reason.message

end GenerationFault

namespace Error

def message : Error → String
  | store message => "store error: " ++ message
  | invalidId fault => fault.report
  | invalidRoleSubject fault => fault.report
  | invalidRule fault => "invalid rule: " ++ fault.message
  | generation fault => fault.message
  | roleCycle role => "role cycle detected at role " ++ role.text
  | roleDepth role limit =>
      "role inheritance depth exceeded at role " ++ role.text ++ "; max depth " ++ toString limit
  | notLoaded => "policy not loaded"

end Error

/-! ## Policy rules -/

structure PolicyRule where
  subject : RoleSubject
  resource : Resource
  action : Action
  object : ObjectPath
  effect : Effect
  deriving DecidableEq

namespace PolicyRule

instance : Ord PolicyRule where
  compare a b :=
    (compare a.subject b.subject).then
      ((compare a.resource b.resource).then
        ((compare a.action b.action).then
          ((compare a.object b.object).then (compare a.effect b.effect))))

/-- The effect is read first, the other fields in their order. -/
def parse (subject resource action object effect : String) : Except Error PolicyRule := do
  let effect ← (Effect.parse effect).mapError .invalidRule
  let subject ← (RoleSubject.parse subject).mapError .invalidRoleSubject
  let resource ← (Resource.parse resource).mapError .invalidRule
  let action ← (Action.parse action).mapError .invalidRule
  return ⟨subject, resource, action, .parse object, effect⟩

def text (rule : PolicyRule) : String :=
  "p, " ++ rule.subject.text ++ ", " ++ rule.resource.text ++ ", " ++ rule.action.text ++ ", " ++
    rule.object.text ++ ", " ++ rule.effect.text

/-- A rule about the empty object is never stored. -/
def installable (rule : PolicyRule) : Bool :=
  !rule.object.isEmpty

def grants (rule : PolicyRule) (resource : Resource) (action : Action) (object : ObjectPath) :
    Bool :=
  rule.effect = .allow && rule.resource = resource && rule.action.covers action &&
    rule.object.covers object

@[simp] theorem parse_texts (rule : PolicyRule) :
    parse rule.subject.text rule.resource.text rule.action.text rule.object.text
      rule.effect.text = .ok rule := by
  simp only [parse, Effect.parse_text, RoleSubject.parse_text, Resource.parse_text,
    Action.parse_text, ObjectPath.parse_text]
  rfl

end PolicyRule

/-! ## Grouping rules -/

inductive Member where
  | user (email : Email)
  | role (subject : RoleSubject)
  deriving DecidableEq

namespace Member

instance : Ord Member where
  compare
    | user a, user b => compare a b
    | user _, role _ => .lt
    | role _, user _ => .gt
    | role a, role b => compare a b

def text : Member → String
  | user email => email.text
  | role subject => subject.text

/-- A text with the lead of roles is a role, any other is an email. -/
def parse (raw : String) : Except Error Member :=
  if (Text.after? roleLead (Text.normalize raw)).isSome then
    ((RoleSubject.parse raw).mapError .invalidRoleSubject).map .role
  else
    ((Email.parse raw).mapError .invalidId).map .user

@[simp] theorem parse_text (member : Member) : parse member.text = .ok member := by
  cases member with
  | user email =>
      simp only [parse, text, email.normalize_text, email.after?_roleLead, Email.parse_text]
      rfl
  | role subject =>
      simp only [parse, text, subject.normalize_text, subject.after?_text,
        RoleSubject.parse_text]
      rfl

end Member

structure GroupingRule where
  member : Member
  role : RoleSubject
  deriving DecidableEq

namespace GroupingRule

instance : Ord GroupingRule where
  compare a b := (compare a.member b.member).then (compare a.role b.role)

def parse (member role : String) : Except Error GroupingRule := do
  let member ← Member.parse member
  let role ← (RoleSubject.parse role).mapError .invalidRoleSubject
  return ⟨member, role⟩

def text (rule : GroupingRule) : String :=
  "g, " ++ rule.member.text ++ ", " ++ rule.role.text

@[simp] theorem parse_texts (rule : GroupingRule) :
    parse rule.member.text rule.role.text = .ok rule := by
  simp only [parse, Member.parse_text, RoleSubject.parse_text]
  rfl

end GroupingRule

end ScopedAccess
