import ScopedAccess.Enforcer

/-!
# Histories of changes

Whatever a write stages is one list of changes, and the rules it leaves are those of replaying the
list on the rules that were staged before. Submitting a list stages all of it and saves; a write
is a submission followed by a load, whether the submission got through or not (`store_write`).
-/

namespace ScopedAccess

inductive Change where
  | addPolicy (rule : PolicyRule)
  | addGrouping (rule : GroupingRule)
  | removeGrouping (rule : GroupingRule)
  deriving DecidableEq

def Change.call : Change → StoreCall
  | .addPolicy _ => .addPolicy
  | .addGrouping _ => .addGrouping
  | .removeGrouping _ => .removeGrouping

namespace RuleSet

def change (rules : RuleSet) : Change → RuleSet
  | .addPolicy rule => (rules.addPolicy rule).2
  | .addGrouping rule => (rules.addGrouping rule).2
  | .removeGrouping rule => (rules.removeGrouping rule).2

def isChanged (rules : RuleSet) : Change → Bool
  | .addPolicy rule => (rules.addPolicy rule).1
  | .addGrouping rule => (rules.addGrouping rule).1
  | .removeGrouping rule => (rules.removeGrouping rule).1

/-- How many of the changes make a difference, each on what the earlier ones leave. -/
def countChanged (rules : RuleSet) : List Change → Nat
  | [] => 0
  | change :: rest =>
      (rules.change change).countChanged rest + if rules.isChanged change then 1 else 0

/-- The rules after all changes of a list, in order. -/
def replay (rules : RuleSet) (changes : List Change) : RuleSet :=
  changes.foldl change rules

@[simp] theorem replay_nil (rules : RuleSet) : rules.replay [] = rules :=
  rfl

@[simp] theorem replay_cons (rules : RuleSet) (change : Change) (rest : List Change) :
    rules.replay (change :: rest) = (rules.change change).replay rest :=
  rfl

theorem replay_append (rules : RuleSet) (changes rest : List Change) :
    rules.replay (changes ++ rest) = (rules.replay changes).replay rest :=
  List.foldl_append

/-- Readers cannot tell the rule sets apart: every row lists the same in the same order. -/
structure ReadsAs (rules other : RuleSet) : Prop where
  rolesOf_eq : ∀ member, rules.rolesOf member = other.rolesOf member
  rulesOf_eq : ∀ role, rules.rulesOf role = other.rulesOf role

theorem ReadsAs.refl (rules : RuleSet) : rules.ReadsAs rules :=
  ⟨fun _ => rfl, fun _ => rfl⟩

theorem ReadsAs.symm {rules other : RuleSet} (h : rules.ReadsAs other) : other.ReadsAs rules :=
  ⟨fun member => (h.rolesOf_eq member).symm, fun role => (h.rulesOf_eq role).symm⟩

theorem ReadsAs.trans {rules other last : RuleSet} (h : rules.ReadsAs other)
    (h' : other.ReadsAs last) : rules.ReadsAs last :=
  ⟨fun member => (h.rolesOf_eq member).trans (h'.rolesOf_eq member),
    fun role => (h.rulesOf_eq role).trans (h'.rulesOf_eq role)⟩

theorem rolesOf_change_congr {rules other : RuleSet}
    (h : ∀ member, rules.rolesOf member = other.rolesOf member) (change : Change)
    (member : Member) :
    (rules.change change).rolesOf member = (other.change change).rolesOf member := by
  cases change with
  | addPolicy rule => exact h member
  | addGrouping rule =>
      have hhas : rules.HasGrouping rule ↔ other.HasGrouping rule := by
        rw [HasGrouping, HasGrouping, h]
      show (rules.addGrouping rule).2.rolesOf member = (other.addGrouping rule).2.rolesOf member
      rw [rolesOf_addGrouping, rolesOf_addGrouping, h]
      by_cases hthere : rules.HasGrouping rule
      · simp [hthere, hhas.mp hthere]
      · simp [hthere, mt hhas.mpr hthere]
  | removeGrouping rule =>
      show (rules.removeGrouping rule).2.rolesOf member =
        (other.removeGrouping rule).2.rolesOf member
      rw [rolesOf_removeGrouping, rolesOf_removeGrouping, h]

theorem ReadsAs.change {rules other : RuleSet} (h : rules.ReadsAs other) (change : Change) :
    (rules.change change).ReadsAs (other.change change) := by
  refine ⟨rolesOf_change_congr h.rolesOf_eq change, fun role => ?_⟩
  cases change with
  | addPolicy rule =>
      have hhas : rules.HasPolicy rule ↔ other.HasPolicy rule := by
        rw [HasPolicy, HasPolicy, h.rulesOf_eq]
      show (rules.addPolicy rule).2.rulesOf role = (other.addPolicy rule).2.rulesOf role
      rw [rulesOf_addPolicy, rulesOf_addPolicy, h.rulesOf_eq]
      by_cases hthere : rules.HasPolicy rule
      · simp [hthere, hhas.mp hthere]
      · simp [hthere, mt hhas.mpr hthere]
  | addGrouping rule => exact h.rulesOf_eq role
  | removeGrouping rule => exact h.rulesOf_eq role

theorem ReadsAs.replay {rules other : RuleSet} (h : rules.ReadsAs other)
    (changes : List Change) : (rules.replay changes).ReadsAs (other.replay changes) := by
  induction changes generalizing rules other with
  | nil => exact h
  | cons change rest ih => exact ih (h.change change)

end RuleSet

namespace Store

def revision (store : Store) : Nat :=
  (store.loaded.map Snapshot.revision).getD 0

theorem nextRevision_eq (store : Store) : store.nextRevision = store.revision + 1 := by
  unfold nextRevision revision
  cases store.loaded <;> rfl

end Store

/-! ## What armed failures leave -/

namespace ArmedFailure

theorem strike_of_forall_ne {call : StoreCall} {failures : List ArmedFailure}
    (h : ∀ failure ∈ failures, failure.call ≠ call) : strike call failures = (none, failures) := by
  induction failures with
  | nil => rfl
  | cons failure rest ih =>
      have hfirst : failure.call ≠ call := h failure List.mem_cons_self
      have hrest : ∀ other ∈ rest, other.call ≠ call :=
        fun other hmem => h other (List.mem_cons_of_mem _ hmem)
      simp only [strike, if_neg hfirst, ih hrest]

theorem call_ne_of_strike {call other : StoreCall} {failures : List ArmedFailure}
    (h : ∀ failure ∈ failures, failure.call ≠ other) :
    ∀ failure ∈ (strike call failures).2, failure.call ≠ other := by
  induction failures with
  | nil => exact h
  | cons first rest ih =>
      have hfirst : first.call ≠ other := h first List.mem_cons_self
      have hrest : ∀ failure ∈ rest, failure.call ≠ other :=
        fun failure hmem => h failure (List.mem_cons_of_mem _ hmem)
      intro failure hmem
      unfold strike at hmem
      split at hmem
      · split at hmem
        · exact hrest failure hmem
        · rcases List.mem_cons.mp hmem with rfl | hmem
          · exact hfirst
          · exact hrest failure hmem
      · rcases List.mem_cons.mp hmem with rfl | hmem
        · exact hfirst
        · exact ih hrest failure hmem

/-- Ask about calls in a row, up to the first that fails: how many get through before it, and its
message. -/
def strikeAll : List StoreCall → List ArmedFailure → Option (Nat × String) × List ArmedFailure
  | [], failures => (none, failures)
  | call :: rest, failures =>
      match strike call failures with
      | (some message, failures) => (some (0, message), failures)
      | (none, failures) =>
          let struck := strikeAll rest failures
          (struck.1.map fun first => (first.1 + 1, first.2), struck.2)

theorem strikeAll_append (calls more : List StoreCall) (failures : List ArmedFailure) :
    strikeAll (calls ++ more) failures =
      match strikeAll calls failures with
      | (some first, left) => (some first, left)
      | (none, left) =>
          ((strikeAll more left).1.map fun first => (first.1 + calls.length, first.2),
            (strikeAll more left).2) := by
  induction calls generalizing failures with
  | nil => simp [strikeAll]
  | cons call rest ih =>
      rw [List.cons_append, strikeAll, strikeAll]
      cases strike call failures with
      | mk message left =>
          cases message with
          | some message => rfl
          | none =>
              dsimp only
              rw [ih]
              cases strikeAll rest left with
              | mk found left' =>
                  cases found with
                  | some first => rfl
                  | none =>
                      simp only [Option.map_map, Option.map_none, List.length_cons]
                      rfl

theorem lt_length_of_strikeAll {calls : List StoreCall} {failures : List ArmedFailure}
    {first : Nat × String} (h : (strikeAll calls failures).1 = some first) :
    first.1 < calls.length := by
  induction calls generalizing failures first with
  | nil => cases h
  | cons call rest ih =>
      rw [strikeAll] at h
      cases hstrike : strike call failures with
      | mk message left =>
          rw [hstrike] at h
          cases message with
          | some message =>
              cases h
              exact Nat.succ_pos _
          | none =>
              obtain ⟨found, hfound, rfl⟩ := Option.map_eq_some_iff.mp h
              exact Nat.succ_lt_succ (ih hfound)

end ArmedFailure

namespace FallibleStore

/-- No failure of that kind of call is armed. -/
def Spares (call : StoreCall) (fallible : FallibleStore) : Prop :=
  ∀ failure ∈ fallible.failures, failure.call ≠ call

theorem attempt_cases {α : Type} (fallible : FallibleStore) (call : StoreCall)
    (use : Store → α × Store) :
    (∃ message failures,
      fallible.attempt call use = (.error message, { fallible with failures })) ∨
    ∃ failures, fallible.attempt call use =
      (.ok (use fallible.store).1,
        { fallible with store := (use fallible.store).2, failures }) := by
  unfold attempt
  cases ArmedFailure.strike call fallible.failures with
  | mk message failures =>
      cases message with
      | some message => exact Or.inl ⟨message, failures, rfl⟩
      | none => exact Or.inr ⟨failures, rfl⟩

theorem Spares.attempt {α : Type} {fallible : FallibleStore} {other : StoreCall}
    (h : fallible.Spares other) (call : StoreCall) (use : Store → α × Store) :
    (fallible.attempt call use).2.Spares other := by
  have hstruck : ∀ failure ∈ (ArmedFailure.strike call fallible.failures).2,
      failure.call ≠ other := ArmedFailure.call_ne_of_strike h
  unfold FallibleStore.attempt
  split
  · next hstrike => rwa [hstrike] at hstruck
  · next hstrike => rwa [hstrike] at hstruck

theorem Spares.attempt_eq {α : Type} {fallible : FallibleStore} {call : StoreCall}
    (h : fallible.Spares call) (use : Store → α × Store) :
    fallible.attempt call use =
      (.ok (use fallible.store).1, { fallible with store := (use fallible.store).2 }) := by
  have hnone : ArmedFailure.strike call fallible.failures = (none, fallible.failures) :=
    ArmedFailure.strike_of_forall_ne h
  simp only [FallibleStore.attempt, hnone]

/-! ## Submissions -/

def stage (change : Change) (fallible : FallibleStore) : Except String Bool × FallibleStore :=
  match change with
  | .addPolicy rule => fallible.addPolicy rule
  | .addGrouping rule => fallible.addGrouping rule
  | .removeGrouping rule => fallible.removeGrouping rule

/-- Stage all changes and save. Says whether every one of these calls got through. -/
def submit (changes : List Change) (fallible : FallibleStore) : Bool × FallibleStore :=
  match Enforcer.stageAll stage changes fallible with
  | (.error _, store) => (false, store)
  | (.ok _, store) =>
      match store.save with
      | (.error _, store) => (false, store)
      | (.ok (), store) => (true, store)

theorem stage_eq (change : Change) (fallible : FallibleStore) :
    stage change fallible = fallible.attempt change.call fun store =>
      (store.staged.isChanged change, { store with staged := store.staged.change change }) := by
  cases change <;> rfl

theorem Spares.stage {fallible : FallibleStore} {call : StoreCall} (h : fallible.Spares call)
    (change : Change) : (FallibleStore.stage change fallible).2.Spares call := by
  rw [stage_eq]
  exact h.attempt change.call _

/-- If no call fails, all changes are staged and those that make a difference are counted. If one
does, the changes before it are staged. -/
theorem stageAll_eq (changes : List Change) (fallible : FallibleStore) :
    Enforcer.stageAll stage changes fallible =
      match ArmedFailure.strikeAll (changes.map Change.call) fallible.failures with
      | (none, failures) =>
          (.ok (fallible.store.staged.countChanged changes), { fallible with
            store := { fallible.store with staged := fallible.store.staged.replay changes }
            failures })
      | (some (passed, message), failures) =>
          (.error message, { fallible with
            store := { fallible.store with
              staged := fallible.store.staged.replay (changes.take passed) }
            failures }) := by
  induction changes generalizing fallible with
  | nil => rfl
  | cons change rest ih =>
      rw [Enforcer.stageAll, stage_eq, attempt, List.map_cons, ArmedFailure.strikeAll]
      cases ArmedFailure.strike change.call fallible.failures with
      | mk message left =>
          cases message with
          | some message => rfl
          | none =>
              -- the rest is staged on what this change leaves
              dsimp only
              rw [ih]
              cases ArmedFailure.strikeAll (rest.map Change.call) left with
              | mk found left' => cases found <;> rfl

theorem stageAll_cases (changes : List Change) (fallible : FallibleStore) :
    (∃ message staged failures, Enforcer.stageAll stage changes fallible = (.error message,
      { fallible with store := { fallible.store with staged }, failures })) ∨
    ∃ count failures, Enforcer.stageAll stage changes fallible = (.ok count, { fallible with
      store := { fallible.store with staged := fallible.store.staged.replay changes }
      failures }) := by
  rw [stageAll_eq]
  cases ArmedFailure.strikeAll (changes.map Change.call) fallible.failures with
  | mk first left =>
      cases first with
      | some first => exact Or.inl ⟨first.2, _, left, rfl⟩
      | none => exact Or.inr ⟨_, left, rfl⟩

theorem Spares.stageAll {fallible : FallibleStore} {call : StoreCall} (h : fallible.Spares call)
    (changes : List Change) :
    (Enforcer.stageAll FallibleStore.stage changes fallible).2.Spares call := by
  induction changes generalizing fallible with
  | nil => exact h
  | cons change rest ih =>
      have hfirst : (FallibleStore.stage change fallible).2.Spares call := h.stage change
      unfold Enforcer.stageAll
      cases hstage : FallibleStore.stage change fallible with
      | mk result store =>
          rw [hstage] at hfirst
          cases result with
          | error message => exact hfirst
          | ok changed =>
              have hrest := ih hfirst
              dsimp only
              split <;> next hall => rwa [hall] at hrest

theorem save_cases (fallible : FallibleStore) :
    (∃ message failures, fallible.save = (.error message, { fallible with failures })) ∨
    ∃ failures, fallible.save =
      (.ok (), { fallible with store := fallible.store.save, failures }) :=
  fallible.attempt_cases .save fun store => ((), store.save)

theorem Spares.save {fallible : FallibleStore} {call : StoreCall} (h : fallible.Spares call) :
    fallible.save.2.Spares call :=
  h.attempt .save fun store => ((), store.save)

/-- A submission shows readers nothing. It persists what it has staged on top of what was staged
before, or persists nothing. -/
theorem submit_cases (changes : List Change) (fallible : FallibleStore) :
    (∃ staged failures, fallible.submit changes =
      (false, { fallible with store := { fallible.store with staged }, failures })) ∨
    ∃ failures, fallible.submit changes = (true, { fallible with
      store := { fallible.store with staged := fallible.store.staged.replay changes }.save
      failures }) := by
  unfold submit
  rcases stageAll_cases changes fallible with
    ⟨message, staged, failures, hstage⟩ | ⟨count, failures, hstage⟩
  · exact Or.inl ⟨staged, failures, by rw [hstage]⟩
  · rw [hstage]
    dsimp only
    rcases save_cases { fallible with
        store := { fallible.store with staged := fallible.store.staged.replay changes }
        failures } with ⟨message, failures, hsave⟩ | ⟨failures, hsave⟩
    · exact Or.inl ⟨fallible.store.staged.replay changes, failures, by rw [hsave]⟩
    · exact Or.inr ⟨failures, by rw [hsave]⟩

theorem Spares.submit {fallible : FallibleStore} {call : StoreCall} (h : fallible.Spares call)
    (changes : List Change) : (fallible.submit changes).2.Spares call := by
  have hstaged := h.stageAll changes
  unfold FallibleStore.submit
  split
  · next hall => rwa [hall] at hstaged
  · next store hall =>
      rw [hall] at hstaged
      have hsaved : store.save.2.Spares call := hstaged.save
      split <;> next hsave => rwa [hsave] at hsaved

theorem load_cases (fallible : FallibleStore) :
    (∃ message failures, fallible.load = (.error message, { fallible with failures })) ∨
    ∃ failures, fallible.load =
      (.ok (), { fallible with store := fallible.store.load, failures }) :=
  fallible.attempt_cases .load fun store => ((), store.load)

/-- A view changes nothing but which failures are left, if nobody else is about to change the
rules. -/
theorem view_snd_of_quiet {fallible : FallibleStore} (h : fallible.interference = none) :
    fallible.view.2 =
      { fallible with failures := (ArmedFailure.strike .view fallible.failures).2 } := by
  unfold view attempt
  cases ArmedFailure.strike .view fallible.failures with
  | mk message failures =>
      cases message with
      | some message => rfl
      | none => simp only [interfere, h]

end FallibleStore

/-! ## Writes -/

namespace Enforcer

theorem stageAll_map {α : Type} (make : α → Change) (items : List α) (fallible : FallibleStore) :
    stageAll FallibleStore.stage (items.map make) fallible =
      stageAll (fun item => FallibleStore.stage (make item)) items fallible := by
  induction items generalizing fallible with
  | nil => rfl
  | cons item rest ih =>
      simp only [List.map_cons, stageAll]
      split
      · rfl
      · rw [ih]

theorem write_map {α : Type} (make : α → Change) (items : List α) (enforcer : Enforcer) :
    enforcer.write FallibleStore.stage (items.map make) =
      enforcer.write (fun item => FallibleStore.stage (make item)) items := by
  simp only [write, stageAll_map]

/-- However a write goes, it ends in a load. -/
theorem store_write (changes : List Change) (enforcer : Enforcer) :
    (enforcer.write FallibleStore.stage changes).2.store =
      (enforcer.store.submit changes).2.load.2 := by
  unfold write FallibleStore.submit
  cases hstage : stageAll FallibleStore.stage changes enforcer.store with
  | mk staged store =>
      cases staged with
      | error message => rfl
      | ok count =>
          dsimp only
          unfold commit
          cases hsave : store.save with
          | mk saved store =>
              cases saved with
              | error message => rfl
              | ok _ =>
                  dsimp only
                  unfold reload
                  cases hload : store.load with
                  | mk loaded store => cases loaded <;> rfl

theorem write_error_of_submit {changes : List Change} {enforcer : Enforcer}
    (h : (enforcer.store.submit changes).1 = false) :
    ∃ message, (enforcer.write FallibleStore.stage changes).1 = .error (.store message) := by
  unfold FallibleStore.submit at h
  unfold write
  cases hstage : stageAll FallibleStore.stage changes enforcer.store with
  | mk staged store =>
      simp only [hstage] at h
      cases staged with
      | error message => exact ⟨message, rfl⟩
      | ok count =>
          dsimp only at h ⊢
          unfold commit
          cases hsave : store.save with
          | mk saved store =>
              cases saved with
              | error message => exact ⟨message, rfl⟩
              | ok _ => simp [hsave] at h

end Enforcer

end ScopedAccess
