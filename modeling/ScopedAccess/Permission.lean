import ScopedAccess.Text

/-!
# Permissions

The vocabulary of a rule besides its subject: resources, actions, effects and objects. A granted `*`
stands for every action or every segment of an object; a requested `*` is granted only by `*`.
-/

namespace ScopedAccess

/-! ## Keywords -/

class Keyword (α : Type) where
  all : List α
  text : α → String
  mem_all : ∀ a, a ∈ all
  text_injective : ∀ a b, text a = text b → a = b
  normalize_text : ∀ a, Text.normalize (text a) = text a

namespace Keyword

variable {α : Type} [Keyword α]

def ofText? (word : String) : Option α :=
  (all : List α).find? fun a => text a = word

/-- The value whose word is `raw`, up to surrounding blanks and the case of ASCII letters. -/
def parse? (raw : String) : Option α :=
  ofText? (Text.normalize raw)

theorem ofText?_eq_some_iff {word : String} {a : α} :
    ofText? word = some a ↔ text a = word := by
  constructor
  · intro h
    simpa using List.find?_some h
  · intro h
    cases hfind : (ofText? word : Option α) with
    | none =>
        have hnone := List.find?_eq_none.mp hfind a (mem_all a)
        exact absurd h (by simpa using hnone)
    | some b =>
        have hb : text b = word := by simpa using List.find?_some hfind
        rw [text_injective b a (hb.trans h.symm)]

theorem parse?_eq_some_iff {raw : String} {a : α} :
    parse? raw = some a ↔ text a = Text.normalize raw :=
  ofText?_eq_some_iff

@[simp] theorem parse?_text (a : α) : parse? (text a) = some a :=
  parse?_eq_some_iff.mpr (normalize_text a).symm

end Keyword

/-! ## Resources, actions and effects -/

/-- The word for every action, and the object segment that stands for every segment. -/
def wildcard : String :=
  "*"

inductive Resource where
  | applications
  | environment
  | team
  | user
  | notification
  | globalEnvironment
  deriving DecidableEq, Ord, Repr

namespace Resource

def all : List Resource :=
  [applications, environment, team, user, notification, globalEnvironment]

def text : Resource → String
  | applications => "applications"
  | environment => "environment"
  | team => "team"
  | user => "user"
  | notification => "notification"
  | globalEnvironment => "global-environment"

instance : Keyword Resource where
  all := all
  text := text
  mem_all a := by cases a <;> decide
  text_injective a b := by cases a <;> cases b <;> decide
  normalize_text a := by cases a <;> decide

end Resource

inductive Action where
  | any
  | get
  | create
  | update
  | delete
  | trigger
  deriving DecidableEq, Ord, Repr

namespace Action

def all : List Action :=
  [any, get, create, update, delete, trigger]

def text : Action → String
  | any => wildcard
  | get => "get"
  | create => "create"
  | update => "update"
  | delete => "delete"
  | trigger => "trigger"

instance : Keyword Action where
  all := all
  text := text
  mem_all a := by cases a <;> decide
  text_injective a b := by cases a <;> cases b <;> decide
  normalize_text a := by cases a <;> decide

/-- Whether a rule for the action `granted` is a rule for `requested`. -/
def covers (granted requested : Action) : Bool :=
  granted = any || granted = requested

end Action

/-- What a rule does. There are no rules that deny. -/
inductive Effect where
  | allow
  deriving DecidableEq, Ord, Repr, Inhabited

namespace Effect

def all : List Effect :=
  [allow]

def text : Effect → String
  | allow => "allow"

instance : Keyword Effect where
  all := all
  text := text
  mem_all a := by cases a; decide
  text_injective a b := by cases a; cases b; decide
  normalize_text a := by cases a; decide

end Effect

/-- Why a text is not part of a rule. The words kept here are normal, an effect is only trimmed. -/
inductive RuleFault where
  | unknownResource (word : String)
  | unknownAction (word : String)
  | unsupportedEffect (text : String)
  deriving DecidableEq, Repr

namespace RuleFault

def message : RuleFault → String
  | unknownResource word => "unknown resource `" ++ word ++ "`"
  | unknownAction word => "unknown action `" ++ word ++ "`"
  | unsupportedEffect text => "unsupported effect `" ++ text ++ "`"

end RuleFault

def Resource.parse (raw : String) : Except RuleFault Resource :=
  match Keyword.parse? raw with
  | some resource => .ok resource
  | none => .error (.unknownResource (Text.normalize raw))

def Action.parse (raw : String) : Except RuleFault Action :=
  match Keyword.parse? raw with
  | some action => .ok action
  | none => .error (.unknownAction (Text.normalize raw))

def Effect.parse (raw : String) : Except RuleFault Effect :=
  match Keyword.parse? raw with
  | some effect => .ok effect
  | none => .error (.unsupportedEffect (Text.trim raw))

@[simp] theorem Resource.parse_text (resource : Resource) :
    Resource.parse resource.text = .ok resource := by
  have h : Keyword.parse? resource.text = some resource := Keyword.parse?_text resource
  simp [Resource.parse, h]

@[simp] theorem Action.parse_text (action : Action) :
    Action.parse action.text = .ok action := by
  have h : Keyword.parse? action.text = some action := Keyword.parse?_text action
  simp [Action.parse, h]

@[simp] theorem Effect.parse_text (effect : Effect) :
    Effect.parse effect.text = .ok effect := by
  have h : Keyword.parse? effect.text = some effect := Keyword.parse?_text effect
  simp [Effect.parse, h]

/-! ## Object paths -/

structure ObjectPath where
  text : String
  normal : Text.normalize text = text
  deriving DecidableEq

namespace ObjectPath

instance : Ord ObjectPath where
  compare a b := compare a.text b.text

instance : Std.TransOrd ObjectPath :=
  inferInstanceAs (Std.TransCmp (compareOn text))

instance : Std.LawfulEqOrd ObjectPath where
  compare_self := by
    intro path
    show compare path.text path.text = .eq
    exact Std.ReflCmp.compare_self
  eq_of_compare := by
    intro path other h
    have htexts : compare path.text other.text = .eq := h
    have htext : path.text = other.text := Std.LawfulEqCmp.eq_of_compare htexts
    cases path
    cases other
    cases htext
    rfl

def parse (raw : String) : ObjectPath :=
  ⟨Text.normalize raw, Text.normalize_normalize raw⟩

@[simp] theorem text_parse (raw : String) : (parse raw).text = Text.normalize raw :=
  rfl

@[simp] theorem parse_text (path : ObjectPath) : parse path.text = path := by
  cases path with
  | mk text normal => simp [parse, normal]

/-- The path with no text. It can be written in a rule, and such a rule is never installed. -/
def empty : ObjectPath :=
  parse ""

instance : Inhabited ObjectPath where
  default := empty

def isEmpty (path : ObjectPath) : Bool :=
  path.text = ""

def segments (path : ObjectPath) : List String :=
  Text.fields '/' path.text

def coversSegments : List String → List String → Bool
  | [], [] => true
  | granted :: rest, requested :: others =>
      (granted = wildcard || granted = requested) && coversSegments rest others
  | _, _ => false

def covers (granted requested : ObjectPath) : Bool :=
  !granted.isEmpty && !requested.isEmpty &&
    coversSegments granted.segments requested.segments

end ObjectPath

end ScopedAccess
