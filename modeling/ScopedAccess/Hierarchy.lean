/-!
# Expanding roles

Roles can be members of roles, in circles or not. A depth-first search lists the given roles and all
roles that they are in, each once, in the order in which they are first met. A circle and a chain
beyond the limit end it with a fault.
-/

namespace ScopedAccess

/-! ## Roles in roles -/

structure Hierarchy (ρ : Type) where
  parents : ρ → List ρ
  /-- A list that every parent is in. -/
  roles : List ρ
  parents_subset : ∀ role, ∀ parent ∈ parents role, parent ∈ roles

namespace Hierarchy

variable {ρ : Type}

/-- From a role through `links` memberships, each of a role in one of its parents. -/
inductive Chain (hierarchy : Hierarchy ρ) : ρ → Nat → ρ → Prop where
  | self (role : ρ) : Chain hierarchy role 0 role
  | step {role parent last : ρ} {links : Nat} (member : parent ∈ hierarchy.parents role)
      (rest : Chain hierarchy parent links last) : Chain hierarchy role (links + 1) last

def Reaches (hierarchy : Hierarchy ρ) (first last : ρ) : Prop :=
  ∃ links, hierarchy.Chain first links last

theorem Chain.append {hierarchy : Hierarchy ρ} {first middle last : ρ} {m n : Nat}
    (h : hierarchy.Chain first m middle) (h' : hierarchy.Chain middle n last) :
    hierarchy.Chain first (m + n) last := by
  induction h with
  | self role => simpa using h'
  | step member rest ih =>
      rw [Nat.add_right_comm]
      exact .step member (ih h')

theorem Reaches.refl (hierarchy : Hierarchy ρ) (role : ρ) : hierarchy.Reaches role role :=
  ⟨0, .self role⟩

theorem Reaches.trans {hierarchy : Hierarchy ρ} {first middle last : ρ}
    (h : hierarchy.Reaches first middle) (h' : hierarchy.Reaches middle last) :
    hierarchy.Reaches first last := by
  obtain ⟨m, hm⟩ := h
  obtain ⟨n, hn⟩ := h'
  exact ⟨m + n, hm.append hn⟩

end Hierarchy

/-! ## The search -/

namespace Hierarchy

variable {ρ : Type}

inductive Fault (ρ : Type) where
  | cycle (role : ρ)
  | tooDeep (role : ρ)
  deriving DecidableEq

/-- A role on the current path, its distance from the start, and its parents not yet looked at. -/
structure Frame (hierarchy : Hierarchy ρ) where
  role : ρ
  depth : Nat
  pending : List ρ
  pending_subset : ∀ parent ∈ pending, parent ∈ hierarchy.roles

def Frame.enter (hierarchy : Hierarchy ρ) (role : ρ) (depth : Nat) : Frame hierarchy :=
  ⟨role, depth, hierarchy.parents role, hierarchy.parents_subset role⟩

/-- The roles on the path, the roles that are done, and all of them in the order of entering. -/
structure Progress (ρ : Type) where
  active : List ρ := []
  finished : List ρ := []
  output : List ρ := []
  deriving DecidableEq

theorem countP_lt {p q : ρ → Bool} {roles : List ρ} (h : ∀ role, p role = true → q role = true)
    (role : ρ) (hmem : role ∈ roles) (hp : p role = false) (hq : q role = true) :
    roles.countP p < roles.countP q := by
  induction roles with
  | nil => simp at hmem
  | cons first rest ih =>
      have hle : rest.countP p ≤ rest.countP q :=
        List.countP_mono_left fun other _ => h other
      rcases List.mem_cons.mp hmem with rfl | hrest
      · rw [List.countP_cons, List.countP_cons, hp, hq]
        simp
        omega
      · have hlt := ih hrest
        rw [List.countP_cons, List.countP_cons]
        cases hfirst : p first with
        | false => simp; omega
        | true => simp [h first hfirst]; omega

variable [DecidableEq ρ]

namespace Progress

def enter (progress : Progress ρ) (role : ρ) : Progress ρ :=
  { progress with
    active := role :: progress.active
    output := progress.output ++ [role] }

def finish (progress : Progress ρ) (role : ρ) : Progress ρ :=
  { progress with
    active := progress.active.filter fun other => other ≠ role
    finished := role :: progress.finished }

def unseen (progress : Progress ρ) (role : ρ) : Bool :=
  role ∉ progress.active && role ∉ progress.finished

theorem unseen_iff {progress : Progress ρ} {role : ρ} :
    progress.unseen role = true ↔ role ∉ progress.active ∧ role ∉ progress.finished := by
  simp [unseen]

theorem unseen_of_finish {progress : Progress ρ} {role other : ρ}
    (h : (progress.finish role).unseen other = true) : progress.unseen other = true := by
  simp only [unseen_iff, finish, List.mem_filter, List.mem_cons, not_or, not_and,
    decide_eq_true_eq, Decidable.not_not] at h ⊢
  exact ⟨fun hactive => h.2.1 (h.1 hactive), h.2.2⟩

theorem unseen_of_enter {progress : Progress ρ} {role other : ρ}
    (h : (progress.enter role).unseen other = true) : progress.unseen other = true := by
  simp only [unseen_iff, enter, List.mem_cons, not_or] at h ⊢
  exact ⟨h.1.2, h.2⟩

end Progress

structure SearchState (hierarchy : Hierarchy ρ) where
  stack : List (Frame hierarchy)
  progress : Progress ρ

inductive Move (hierarchy : Hierarchy ρ) where
  | done
  | fail (fault : Fault ρ)
  | next (state : SearchState hierarchy)

namespace SearchState

variable {hierarchy : Hierarchy ρ}

/-- Look at the next parent of the role on top, or leave that role if it has no more. -/
def advance (limit : Nat) : SearchState hierarchy → Move hierarchy
  | ⟨[], _⟩ => .done
  | ⟨⟨role, _, [], _⟩ :: stack, progress⟩ => .next ⟨stack, progress.finish role⟩
  | ⟨⟨role, depth, parent :: rest, subset⟩ :: stack, progress⟩ =>
      let waiting : Frame hierarchy :=
        ⟨role, depth, rest, fun other hmem => subset other (List.mem_cons_of_mem _ hmem)⟩
      -- the limit counts before a cycle does, and both before what is done already
      if limit < depth + 1 then
        .fail (.tooDeep parent)
      else if parent ∈ progress.active then
        .fail (.cycle parent)
      else if parent ∈ progress.finished then
        .next ⟨waiting :: stack, progress⟩
      else
        .next ⟨.enter hierarchy parent (depth + 1) :: waiting :: stack, progress.enter parent⟩

def unseenCount (state : SearchState hierarchy) : Nat :=
  hierarchy.roles.countP state.progress.unseen

def stackWeight : List (Frame hierarchy) → Nat
  | [] => 0
  | frame :: rest => frame.pending.length + 1 + stackWeight rest

def weight (state : SearchState hierarchy) : Nat :=
  stackWeight state.stack

/-- A step sees a new role, or it sees none and makes the stack lighter. -/
theorem advance_measure {limit : Nat} {state after : SearchState hierarchy}
    (h : state.advance limit = .next after) :
    after.unseenCount < state.unseenCount ∨
      (after.unseenCount ≤ state.unseenCount ∧ after.weight < state.weight) := by
  match state with
  | ⟨[], _⟩ => exact nomatch h
  | ⟨⟨role, depth, [], subset⟩ :: stack, progress⟩ =>
      cases h
      right
      refine ⟨List.countP_mono_left fun other _ => Progress.unseen_of_finish, ?_⟩
      simp [weight, stackWeight]
  | ⟨⟨role, depth, parent :: rest, subset⟩ :: stack, progress⟩ =>
      simp only [advance] at h
      split at h
      · exact nomatch h
      · split at h
        · exact nomatch h
        · next hactive =>
            split at h
            · cases h
              right
              refine ⟨Nat.le_refl _, ?_⟩
              simp [weight, stackWeight]
            · next hfinished =>
                -- a new role is on the path now, so it is no longer among the unseen ones
                cases h
                left
                refine countP_lt (fun other => Progress.unseen_of_enter) parent
                  (subset parent (by simp)) ?_ ?_
                · simp [Progress.unseen, Progress.enter]
                · exact Progress.unseen_iff.mpr ⟨hactive, hfinished⟩

def run (limit : Nat) (state : SearchState hierarchy) : Except (Fault ρ) (Progress ρ) :=
  match _h : state.advance limit with
  | .done => .ok state.progress
  | .fail fault => .error fault
  | .next after => run limit after
termination_by (state.unseenCount, state.weight)
decreasing_by
  rcases advance_measure _h with hlt | ⟨hle, hlt⟩
  · exact Prod.Lex.left _ _ hlt
  · rcases Nat.lt_or_eq_of_le hle with hless | heq
    · exact Prod.Lex.left _ _ hless
    · rw [heq]
      exact Prod.Lex.right _ hlt

end SearchState

def expandFrom (hierarchy : Hierarchy ρ) (limit : Nat) (role : ρ) (progress : Progress ρ) :
    Except (Fault ρ) (Progress ρ) :=
  SearchState.run limit ⟨[.enter hierarchy role 0], progress.enter role⟩

def expandAll (hierarchy : Hierarchy ρ) (limit : Nat) :
    List ρ → Progress ρ → Except (Fault ρ) (Progress ρ)
  | [], progress => .ok progress
  | role :: rest, progress =>
      if role ∈ progress.finished then
        expandAll hierarchy limit rest progress
      else
        match expandFrom hierarchy limit role progress with
        | .ok after => expandAll hierarchy limit rest after
        | .error fault => .error fault

/-- The given roles and all roles they are in, or why these were not found. -/
def expand (hierarchy : Hierarchy ρ) (limit : Nat) (roles : List ρ) :
    Except (Fault ρ) (List ρ) :=
  (hierarchy.expandAll limit roles {}).map Progress.output

end Hierarchy

end ScopedAccess
