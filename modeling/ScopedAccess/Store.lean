import ScopedAccess.Index
import ScopedAccess.Rule

/-!
# The rule store

Changes go to a staged rule set. Saving makes the staged rules the persisted ones; loading hands
these to readers as a new snapshot and drops what was staged since. Every call to a store can fail,
and somebody else can change the rules between two calls (`FallibleStore`).
-/

namespace ScopedAccess

/-! ## Rule sets -/

structure RuleSet where
  policies : Index RoleSubject PolicyRule
  groupings : Index Member RoleSubject
  /-- Every policy rule is stored under its own subject. -/
  subject_eq : ∀ role, ∀ rule ∈ policies.get role, rule.subject = role
  deriving DecidableEq

namespace RuleSet

def empty : RuleSet :=
  ⟨.empty, .empty, by simp⟩

instance : Inhabited RuleSet where
  default := empty

def rolesOf (rules : RuleSet) (member : Member) : List RoleSubject :=
  rules.groupings.get member

def rulesOf (rules : RuleSet) (role : RoleSubject) : List PolicyRule :=
  rules.policies.get role

def HasPolicy (rules : RuleSet) (rule : PolicyRule) : Prop :=
  rule ∈ rules.rulesOf rule.subject

def HasGrouping (rules : RuleSet) (rule : GroupingRule) : Prop :=
  rule.role ∈ rules.rolesOf rule.member

instance (rules : RuleSet) (rule : PolicyRule) : Decidable (rules.HasPolicy rule) :=
  inferInstanceAs (Decidable (_ ∈ _))

instance (rules : RuleSet) (rule : GroupingRule) : Decidable (rules.HasGrouping rule) :=
  inferInstanceAs (Decidable (_ ∈ _))

theorem subject_eq_insert (rules : RuleSet) (added : PolicyRule) (role : RoleSubject)
    (rule : PolicyRule) (h : rule ∈ (rules.policies.insert added.subject added).2.get role) :
    rule.subject = role := by
  rw [Index.get_insert] at h
  split at h
  · next hrole =>
      rcases List.mem_append.mp h with h | h
      · exact (rules.subject_eq _ rule h).trans hrole.1.symm
      · rw [List.mem_singleton] at h
        rw [h, hrole.1]
  · exact rules.subject_eq role rule h

def addPolicy (rules : RuleSet) (rule : PolicyRule) : Bool × RuleSet :=
  let added := rules.policies.insert rule.subject rule
  (added.1, { rules with policies := added.2, subject_eq := rules.subject_eq_insert rule })

def addGrouping (rules : RuleSet) (rule : GroupingRule) : Bool × RuleSet :=
  let added := rules.groupings.insert rule.member rule.role
  (added.1, { rules with groupings := added.2 })

def removeGrouping (rules : RuleSet) (rule : GroupingRule) : Bool × RuleSet :=
  let removed := rules.groupings.erase rule.member rule.role
  (removed.1, { rules with groupings := removed.2 })

@[simp] theorem rolesOf_empty (member : Member) : empty.rolesOf member = [] :=
  rfl

@[simp] theorem rulesOf_empty (role : RoleSubject) : empty.rulesOf role = [] :=
  rfl

theorem nodup_rolesOf (rules : RuleSet) (member : Member) : (rules.rolesOf member).Nodup :=
  rules.groupings.nodup_get member

theorem nodup_rulesOf (rules : RuleSet) (role : RoleSubject) : (rules.rulesOf role).Nodup :=
  rules.policies.nodup_get role

theorem addPolicy_fst (rules : RuleSet) (rule : PolicyRule) :
    (rules.addPolicy rule).1 = decide (¬ rules.HasPolicy rule) :=
  Index.insert_fst rules.policies rule.subject rule

theorem addPolicy_of_hasPolicy {rules : RuleSet} {rule : PolicyRule} (h : rules.HasPolicy rule) :
    (rules.addPolicy rule).2 = rules := by
  have hinsert : rules.policies.insert rule.subject rule = (false, rules.policies) :=
    Index.insert_of_mem h
  cases rules with
  | mk policies groupings subject_eq => simp only [addPolicy, hinsert]

theorem addGrouping_fst (rules : RuleSet) (rule : GroupingRule) :
    (rules.addGrouping rule).1 = decide (¬ rules.HasGrouping rule) :=
  Index.insert_fst rules.groupings rule.member rule.role

theorem removeGrouping_fst (rules : RuleSet) (rule : GroupingRule) :
    (rules.removeGrouping rule).1 = decide (rules.HasGrouping rule) :=
  Index.erase_fst rules.groupings rule.member rule.role

theorem rulesOf_addPolicy (rules : RuleSet) (rule : PolicyRule) (role : RoleSubject) :
    (rules.addPolicy rule).2.rulesOf role =
      if role = rule.subject ∧ ¬ rules.HasPolicy rule then rules.rulesOf role ++ [rule]
      else rules.rulesOf role := by
  have h := Index.get_insert rules.policies rule.subject rule role
  by_cases hrole : role = rule.subject
  · subst hrole
    exact h
  · simp only [hrole, false_and, if_false] at h ⊢
    exact h

@[simp] theorem rolesOf_addPolicy (rules : RuleSet) (rule : PolicyRule) (member : Member) :
    (rules.addPolicy rule).2.rolesOf member = rules.rolesOf member :=
  rfl

theorem rolesOf_addGrouping (rules : RuleSet) (rule : GroupingRule) (member : Member) :
    (rules.addGrouping rule).2.rolesOf member =
      if member = rule.member ∧ ¬ rules.HasGrouping rule then
        rules.rolesOf member ++ [rule.role]
      else rules.rolesOf member := by
  have h := Index.get_insert rules.groupings rule.member rule.role member
  by_cases hmember : member = rule.member
  · subst hmember
    exact h
  · simp only [hmember, false_and, if_false] at h ⊢
    exact h

@[simp] theorem rulesOf_addGrouping (rules : RuleSet) (rule : GroupingRule)
    (role : RoleSubject) : (rules.addGrouping rule).2.rulesOf role = rules.rulesOf role :=
  rfl

theorem rolesOf_removeGrouping (rules : RuleSet) (rule : GroupingRule) (member : Member) :
    (rules.removeGrouping rule).2.rolesOf member =
      if member = rule.member then
        (rules.rolesOf member).filter fun role => role ≠ rule.role
      else rules.rolesOf member := by
  have h := Index.get_erase rules.groupings rule.member rule.role member
  by_cases hmember : member = rule.member
  · subst hmember
    exact h
  · simp only [hmember, if_false] at h ⊢
    exact h

@[simp] theorem rulesOf_removeGrouping (rules : RuleSet) (rule : GroupingRule)
    (role : RoleSubject) : (rules.removeGrouping rule).2.rulesOf role = rules.rulesOf role :=
  rfl

theorem removeGrouping_addGrouping {rules : RuleSet} {rule : GroupingRule}
    (h : (rules.addGrouping rule).1 = true) :
    ((rules.addGrouping rule).2.removeGrouping rule).2 = rules := by
  have hgroupings := Index.erase_insert h
  cases rules with
  | mk policies groupings subject_eq =>
      simp only [addGrouping, removeGrouping] at hgroupings ⊢
      rw [hgroupings]

end RuleSet

/-! ## Stores -/

/-- One loaded rule set. Every load has a revision of its own. -/
structure Snapshot where
  revision : Nat
  rules : RuleSet
  deriving DecidableEq

namespace Snapshot

def userRoles (snapshot : Snapshot) (email : Email) : List RoleSubject :=
  snapshot.rules.rolesOf (.user email)

def parentRoles (snapshot : Snapshot) (role : RoleSubject) : List RoleSubject :=
  snapshot.rules.rolesOf (.role role)

def rulesOf (snapshot : Snapshot) (role : RoleSubject) : List PolicyRule :=
  snapshot.rules.rulesOf role

end Snapshot

structure Store where
  staged : RuleSet := .empty
  persisted : RuleSet := .empty
  loaded : Option Snapshot := none
  deriving DecidableEq

namespace Store

def empty : Store :=
  {}

def addPolicy (store : Store) (rule : PolicyRule) : Bool × Store :=
  let added := store.staged.addPolicy rule
  (added.1, { store with staged := added.2 })

def addGrouping (store : Store) (rule : GroupingRule) : Bool × Store :=
  let added := store.staged.addGrouping rule
  (added.1, { store with staged := added.2 })

def removeGrouping (store : Store) (rule : GroupingRule) : Bool × Store :=
  let removed := store.staged.removeGrouping rule
  (removed.1, { store with staged := removed.2 })

def save (store : Store) : Store :=
  { store with persisted := store.staged }

/-- A store of which nothing has been loaded has no revision yet, so its first one is 1. -/
def nextRevision (store : Store) : Nat :=
  match store.loaded with
  | some snapshot => snapshot.revision + 1
  | none => 1

def load (store : Store) : Store :=
  { store with
    staged := store.persisted
    loaded := some ⟨store.nextRevision, store.persisted⟩ }

end Store

/-! ## Stores that fail -/

inductive StoreCall where
  | view
  | addPolicy
  | addGrouping
  | removeGrouping
  | save
  | load
  deriving DecidableEq, Repr

/-- A failure of one kind of call, after `skip` calls of that kind have got through. -/
structure ArmedFailure where
  call : StoreCall
  skip : Nat
  message : String
  deriving DecidableEq, Repr

namespace ArmedFailure

/--
Ask the armed failures about a call. The earliest one for this kind of call decides: it is used
up and its message is the failure, or it lets this call through as one of those that it skips.
-/
def strike (call : StoreCall) : List ArmedFailure → Option String × List ArmedFailure
  | [] => (none, [])
  | failure :: rest =>
      if failure.call = call then
        match failure.skip with
        | 0 => (some failure.message, rest)
        | skip + 1 => (none, { failure with skip } :: rest)
      else
        let struck := strike call rest
        (struck.1, failure :: struck.2)

end ArmedFailure

/-- A change made by somebody else: one grouping less, one policy rule more, saved and loaded. -/
structure Interference where
  remove : GroupingRule
  add : PolicyRule
  deriving DecidableEq

def Interference.apply (change : Interference) (store : Store) : Store :=
  ((store.removeGrouping change.remove).2.addPolicy change.add).2.save.load

structure FallibleStore where
  store : Store := .empty
  failures : List ArmedFailure := []
  interference : Option Interference := none
  deriving DecidableEq

namespace FallibleStore

/-- A call to the store: the message of its failure and the store as it was, or its answer. -/
def attempt {α : Type} (fallible : FallibleStore) (call : StoreCall) (use : Store → α × Store) :
    Except String α × FallibleStore :=
  match ArmedFailure.strike call fallible.failures with
  | (some message, failures) => (.error message, { fallible with failures })
  | (none, failures) =>
      let used := use fallible.store
      (.ok used.1, { fallible with store := used.2, failures })

def interfere (fallible : FallibleStore) : FallibleStore :=
  match fallible.interference with
  | some change =>
      { fallible with store := change.apply fallible.store, interference := none }
  | none => fallible

/-- The snapshot that is loaded now, if any; what happens to the store later does not change it. -/
def view (fallible : FallibleStore) : Except String (Option Snapshot) × FallibleStore :=
  match fallible.attempt .view fun store => (store.loaded, store) with
  -- the taker keeps what was loaded before the interference
  | (.ok loaded, after) => (.ok loaded, after.interfere)
  | failed => failed

def addPolicy (rule : PolicyRule) (fallible : FallibleStore) :
    Except String Bool × FallibleStore :=
  fallible.attempt .addPolicy fun store => store.addPolicy rule

def addGrouping (rule : GroupingRule) (fallible : FallibleStore) :
    Except String Bool × FallibleStore :=
  fallible.attempt .addGrouping fun store => store.addGrouping rule

def removeGrouping (rule : GroupingRule) (fallible : FallibleStore) :
    Except String Bool × FallibleStore :=
  fallible.attempt .removeGrouping fun store => store.removeGrouping rule

def save (fallible : FallibleStore) : Except String Unit × FallibleStore :=
  fallible.attempt .save fun store => ((), store.save)

def load (fallible : FallibleStore) : Except String Unit × FallibleStore :=
  fallible.attempt .load fun store => ((), store.load)

end FallibleStore

end ScopedAccess
