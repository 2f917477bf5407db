import ScopedAccess.Enforcer

/-!
# Wire forms

How identifiers, keywords, settings and rules are written as wire values, and which wire values are
read as them. What is written is read back as itself (`LawfulCodec`).
-/

namespace ScopedAccess

/-! ## Values -/

namespace Wire

inductive Value where
  | null
  | bool (value : Bool)
  | natural (value : Nat)
  | otherNumber (spelling : String)
  | text (value : String)
  | list (items : List Value)
  | object (fields : List (String × Value))
  deriving Inhabited

namespace Value

/-- The value of a named field; of two fields with one name the later one counts. -/
def field? (fields : List (String × Value)) (name : String) : Option Value :=
  (fields.reverse.find? fun field => field.1 = name).map Prod.snd

end Value

end Wire

/-! ## Words -/

namespace Wire

/-- How the values of a type are named where they are declared. -/
class Named (α : Type) where
  /-- The name that the value was declared by. -/
  declared : α → String
  /-- The word that the value was given for the wire, if it was given one. -/
  given? : α → Option String

variable {α : Type}

def wireWord [Named α] (a : α) : String :=
  (Named.given? a).getD (Text.lower (Named.declared a))

instance : Named Resource where
  declared
    | .applications => "Applications"
    | .environment => "Environment"
    | .team => "Team"
    | .user => "User"
    | .notification => "Notification"
    | .globalEnvironment => "GlobalEnvironment"
  given?
    | .applications => some "applications"
    | .environment => some "environment"
    | .team => some "team"
    | .user => some "user"
    | .notification => some "notification"
    | .globalEnvironment => some "global-environment"

instance : Named Action where
  declared
    | .any => "Any"
    | .get => "Get"
    | .create => "Create"
    | .update => "Update"
    | .delete => "Delete"
    | .trigger => "Trigger"
  given?
    | .any => some "*"
    | _ => none

instance : Named Effect where
  declared
    | .allow => "Allow"
  given? _ := none

instance : Named RoleKind where
  declared
    | .manager => "Manager"
    | .admin => "Admin"
    | .trigger => "Trigger"
    | .view => "View"
  given? _ := none

/-- Every value has one word, on the wire and where it is shown. -/
class SameWords (α : Type) [Keyword α] [Named α] : Prop where
  wireWord_eq_text : ∀ a : α, wireWord a = Keyword.text a

instance : SameWords Resource where
  wireWord_eq_text a := by cases a <;> decide

instance : SameWords Action where
  wireWord_eq_text a := by cases a <;> decide

instance : SameWords Effect where
  wireWord_eq_text a := by cases a; decide

instance : SameWords RoleKind where
  wireWord_eq_text a := by cases a <;> decide

def ofWireWord? [Keyword α] [Named α] (word : String) : Option α :=
  (Keyword.all : List α).find? fun a => wireWord a = word

theorem ofWireWord?_eq_some_iff [Keyword α] [Named α] [SameWords α] {word : String} {a : α} :
    ofWireWord? word = some a ↔ Keyword.text a = word := by
  have hsame : (ofWireWord? word : Option α) = Keyword.ofText? word := by
    simp only [ofWireWord?, Keyword.ofText?, SameWords.wireWord_eq_text]
  rw [hsame, Keyword.ofText?_eq_some_iff]

end Wire

/-! ## Codecs -/

namespace Wire

inductive Refusal where
  | form
  | text (reason : Error)
  deriving DecidableEq

class Codec (α : Type) where
  encode : α → Value
  decode : Value → Except Refusal α

export Codec (encode decode)

instance : Codec Email where
  encode email := .text email.text
  decode
    | .text raw => (Email.parse raw).mapError fun fault => .text (.invalidId fault)
    | _ => .error .form

instance : Codec RoleSubject where
  encode role := .text role.text
  decode
    | .text raw => (RoleSubject.parse raw).mapError fun fault => .text (.invalidRoleSubject fault)
    | _ => .error .form

instance : Codec ObjectPath where
  encode path := .text path.text
  decode
    | .text raw => .ok (.parse raw)
    | _ => .error .form

def decodeWord {α : Type} [Keyword α] [Named α] (word : String) : Except Refusal α :=
  match ofWireWord? word with
  | some a => .ok a
  | none => .error .form

/--
A keyword is written as its word on the wire. It is also read from an object whose only field is
named by the word and holds nothing.
-/
instance {α : Type} [Keyword α] [Named α] : Codec α where
  encode a := .text (wireWord a)
  decode
    | .text word => decodeWord word
    | .object [(word, .null)] => decodeWord word
    | _ => .error .form

/-- Numbers of settings are words of 64 bits. -/
def wordLimit : Nat :=
  18446744073709551616

instance : Codec Bool where
  encode value := .bool value
  decode
    | .bool value => .ok value
    | _ => .error .form

instance : Codec Nat where
  encode value := .natural value
  decode
    | .natural value => if value < wordLimit then .ok value else .error .form
    | _ => .error .form

instance {α : Type} [Codec α] : Codec (Option α) where
  encode
    | some a => encode a
    | none => .null
  decode
    | .null => .ok none
    | value => (decode value).map some

def decodeField {α : Type} [Codec α] (fields : List (String × Value)) (name : String)
    (default : α) : Except Refusal α :=
  match Value.field? fields name with
  | some value => decode value
  | none => .ok default

/-- The names of the settings, in the order in which a list gives their values. -/
def configFieldNames : List String :=
  ["enable_role_hierarchy", "max_inherit_depth", "cache_capacity", "cache_ttl_secs"]

def decodeConfigFields (fields : List (String × Value)) : Except Refusal Config := do
  let default : Config := default
  let followRoles ← decodeField fields "enable_role_hierarchy" default.followRoles
  let maxDepth ← decodeField fields "max_inherit_depth" default.maxDepth
  let cacheCapacity ← decodeField fields "cache_capacity" default.cacheCapacity
  let cacheTtlSeconds ← decodeField fields "cache_ttl_secs" default.cacheTtlSeconds
  return { followRoles, maxDepth, cacheCapacity, cacheTtlSeconds }

/--
Settings are written as an object. They are also read from a list, which gives the first settings
without their names and leaves out the others; a list that is too long is refused.
-/
instance : Codec Config where
  encode config :=
    .object
      [("enable_role_hierarchy", encode config.followRoles),
        ("max_inherit_depth", encode config.maxDepth),
        ("cache_capacity", encode config.cacheCapacity),
        ("cache_ttl_secs", encode config.cacheTtlSeconds)]
  decode
    | .object fields => decodeConfigFields fields
    | .list items =>
        if items.length ≤ configFieldNames.length then
          decodeConfigFields (configFieldNames.zip items)
        else
          .error .form
    | _ => .error .form

/-- What is written is read back as itself. -/
class LawfulCodec (α : Type) [Codec α] : Prop where
  decode_encode : ∀ a : α, decode (encode a) = .ok a

instance : LawfulCodec Email where
  decode_encode email := by
    show (Email.parse email.text).mapError _ = _
    rw [Email.parse_text]
    rfl

instance : LawfulCodec RoleSubject where
  decode_encode role := by
    show (RoleSubject.parse role.text).mapError _ = _
    rw [RoleSubject.parse_text]
    rfl

instance : LawfulCodec ObjectPath where
  decode_encode path := congrArg Except.ok (ObjectPath.parse_text path)

theorem decodeWord_eq_ok_iff {α : Type} [Keyword α] [Named α] [SameWords α] {word : String}
    {a : α} : decodeWord word = .ok a ↔ Keyword.text a = word := by
  rw [← ofWireWord?_eq_some_iff, decodeWord]
  cases (ofWireWord? word : Option α) <;> simp

instance {α : Type} [Keyword α] [Named α] [SameWords α] : LawfulCodec α where
  decode_encode a := decodeWord_eq_ok_iff.mpr (SameWords.wireWord_eq_text a).symm

theorem decode_encode_word {n : Nat} (h : n < wordLimit) :
    (decode (encode n) : Except Refusal Nat) = .ok n := by
  show (if n < wordLimit then .ok n else .error .form : Except Refusal Nat) = _
  rw [if_pos h]

theorem decode_encode_option_word {word : Option Nat} (h : ∀ n ∈ word, n < wordLimit) :
    (decode (encode word) : Except Refusal (Option Nat)) = .ok word := by
  cases word with
  | none => rfl
  | some n =>
      show ((decode (encode n) : Except Refusal Nat).map some) = _
      rw [decode_encode_word (h n rfl)]
      rfl

theorem decode_encode_config {config : Config} (hdepth : config.maxDepth < wordLimit)
    (hcapacity : config.cacheCapacity < wordLimit)
    (httl : ∀ n ∈ config.cacheTtlSeconds, n < wordLimit) :
    (decode (encode config) : Except Refusal Config) = .ok config := by
  obtain ⟨⟨followRoles, maxDepth⟩, capacity, ttl⟩ := config
  have hd := decode_encode_word hdepth
  have hc := decode_encode_word hcapacity
  have ht := decode_encode_option_word httl
  show (do
    let depth ← (decode (encode maxDepth) : Except Refusal Nat)
    let capacity ← (decode (encode capacity) : Except Refusal Nat)
    let ttl ← (decode (encode ttl) : Except Refusal (Option Nat))
    return (⟨⟨followRoles, depth⟩, capacity, ttl⟩ : Config)) = Except.ok _
  rw [hd, hc, ht]
  rfl

end Wire

/-- A policy rule as one object; its effect is always to allow and is left out. -/
def PolicyRule.toWire (rule : PolicyRule) : Wire.Value :=
  .object
    [("type", .text "p"),
      ("sub", .text rule.subject.text),
      ("res", .text rule.resource.text),
      ("act", .text rule.action.text),
      ("obj", .text rule.object.text)]

def GroupingRule.toWire (rule : GroupingRule) : Wire.Value :=
  .object
    [("type", .text "g"),
      ("sub", .text rule.member.text),
      ("obj", .text rule.role.text)]

def RuleGroup.toWire (group : RuleGroup) : Wire.Value :=
  .object [("data", .list (group.rules.map PolicyRule.toWire))]

end ScopedAccess
