import ScopedAccess.Proofs.Hierarchy.Steps

/-!
# The search as a recursion

The search with a stack is the recursive visit of the given roles (`expansion_is_recursive`): what
its frames still have to do is the rest of the visits that are under way (`resume`), and a step does
not change what comes of them.
-/

namespace ScopedAccess

/-! ## Views -/

theorem finite_char : Finite Char :=
  Finite.of_injective (fun c : Char => c.val.toBitVec.toFin) fun _ _ h =>
    Char.ext (UInt32.toBitVec_inj.mp (BitVec.toFin_inj.mp h))

theorem Text.length_le_utf8Len (chars : List Char) : chars.length ≤ String.utf8Len chars := by
  induction chars with
  | nil => exact Nat.le_refl 0
  | cons c rest ih =>
      have hpos : 0 < c.utf8Size := c.utf8Size_pos
      rw [List.length_cons, String.utf8Len_cons]
      omega

theorem ScopeName.length_le (name : ScopeName) : name.text.toList.length ≤ 128 := by
  have hbytes : name.text.utf8ByteSize ≤ 128 := name.valid.bytes_le
  rw [← String.ofList_toList (s := name.text), String.utf8ByteSize_ofList] at hbytes
  exact (Text.length_le_utf8Len _).trans hbytes

instance : Finite ScopeName := by
  have hchar : Finite Char := finite_char
  have hlists : Finite {chars : List Char | chars.length ≤ 128} := List.finite_length_le Char 128
  refine Finite.of_injective (fun name =>
    (⟨name.text.toList, name.length_le⟩ : {chars : List Char | chars.length ≤ 128})) ?_
  intro first second h
  have htext : first.text = second.text := String.toList_inj.mp (congrArg Subtype.val h)
  cases first
  cases second
  cases htext
  rfl

instance : Finite RoleSubject := by
  have hkind : Finite RoleKind := Set.finite_univ_iff.mp <|
    (List.finite_toSet RoleKind.all).subset fun kind _ => Keyword.mem_all kind
  refine Finite.of_injective (fun role : RoleSubject =>
    (role.kind, role.scope.team, role.scope.environment, role.scope.entity)) ?_
  rintro ⟨kind, team, environment, entity⟩ ⟨kind', team', environment', entity'⟩ h
  cases h
  rfl

/-- Whatever lists the parents of every role is a hierarchy, since there are finitely many roles. -/
theorem exists_hierarchy (parents : RoleSubject → List RoleSubject) :
    ∃ hierarchy : Hierarchy RoleSubject, hierarchy.parents = parents := by
  obtain ⟨roles, hroles⟩ := (Set.finite_univ (α := RoleSubject)).exists_finset
  exact ⟨⟨parents, roles.toList, fun role parent _ => by simp [hroles]⟩, rfl⟩

/-! ## Visits -/

namespace Hierarchy

variable {ρ : Type} [DecidableEq ρ]

mutual

/-- List a role, look at its parents while it is on the path, and mark it as done. -/
def visit (hierarchy : Hierarchy ρ) (limit depth : Nat) (role : ρ) (progress : Progress ρ) :
    Except (Fault ρ) (Progress ρ) := do
  let after ← hierarchy.visitParents limit depth (hierarchy.parents role)
    { progress with
      active := role :: progress.active
      output := progress.output ++ [role] }
  return { after with
    active := after.active.filter fun other => other ≠ role
    finished := role :: after.finished }
termination_by (limit - depth, 1, 0)

/-- Look at the parents of a role that is `depth` memberships from the start. A parent is too deep,
or on the path, or done, or else it is visited. -/
def visitParents (hierarchy : Hierarchy ρ) (limit depth : Nat) (parents : List ρ)
    (progress : Progress ρ) : Except (Fault ρ) (Progress ρ) :=
  match parents with
  | [] => .ok progress
  | parent :: rest =>
      if limit < depth + 1 then
        .error (.tooDeep parent)
      else if parent ∈ progress.active then
        .error (.cycle parent)
      else if parent ∈ progress.finished then
        hierarchy.visitParents limit depth rest progress
      else do
        let after ← hierarchy.visit limit (depth + 1) parent progress
        hierarchy.visitParents limit depth rest after
termination_by (limit - depth, 0, parents.length)

end

def visitAll (hierarchy : Hierarchy ρ) (limit : Nat) :
    List ρ → Progress ρ → Except (Fault ρ) (Progress ρ)
  | [], progress => .ok progress
  | role :: rest, progress =>
      if role ∈ progress.finished then
        visitAll hierarchy limit rest progress
      else do
        let after ← hierarchy.visit limit 0 role progress
        visitAll hierarchy limit rest after

variable {hierarchy : Hierarchy ρ} {limit : Nat}

/-- A visit does to the progress what the search does when it enters a role and leaves it. -/
theorem visit_eq {depth : Nat} {role : ρ} {progress : Progress ρ} :
    hierarchy.visit limit depth role progress = do
      let after ← hierarchy.visitParents limit depth (hierarchy.parents role) (progress.enter role)
      return after.finish role := by
  rw [visit]
  rfl

namespace SearchState

/-- Go on with the visits that the frames of a stack stand for, the one on top first. -/
def resume (limit : Nat) : List (Frame hierarchy) → Progress ρ → Except (Fault ρ) (Progress ρ)
  | [], progress => .ok progress
  | frame :: below, progress => do
      let after ← hierarchy.visitParents limit frame.depth frame.pending progress
      resume limit below (after.finish frame.role)

theorem resume_of_fail {state : SearchState hierarchy} {fault : Fault ρ}
    (hstep : state.advance limit = .fail fault) :
    resume limit state.stack state.progress = .error fault := by
  have hends : Expansion.Ends limit ⟨[], state⟩ (.error fault) := Expansion.ends_of_fail hstep
  cases hends with
  | tooDeep hlimit =>
      rw [resume, visitParents, if_pos hlimit]
      rfl
  | cycle hlimit hactive =>
      rw [resume, visitParents, if_neg (Nat.not_lt.mpr hlimit), if_pos hactive]
      rfl

/-- A step leaves a role, passes over a parent or enters one, and what is still to be done after
it comes to the same. -/
theorem resume_of_next {state after : SearchState hierarchy}
    (hstep : state.advance limit = .next after) :
    resume limit state.stack state.progress = resume limit after.stack after.progress := by
  obtain ⟨asked, htaken⟩ := Expansion.exists_step_of_next [] hstep
  cases htaken with
  | leave =>
      rw [resume, visitParents]
      rfl
  | skip hlimit hactive hdone =>
      rw [resume, visitParents, if_neg (Nat.not_lt.mpr hlimit), if_neg hactive, if_pos hdone]
      rfl
  | enter hlimit hactive hnew =>
      -- the frame of the parent is the visit that the frame of the role waits for
      rw [resume, visitParents, if_neg (Nat.not_lt.mpr hlimit), if_neg hactive, if_neg hnew,
        visit_eq]
      simp only [resume, Frame.enter, bind_assoc, pure_bind]

theorem run_eq_resume (limit : Nat) (state : SearchState hierarchy) :
    state.run limit = resume limit state.stack state.progress := by
  fun_induction SearchState.run limit state with
  | case1 state hstep =>
      rw [stack_eq_nil_of_done hstep]
      rfl
  | case2 state fault hstep => exact (resume_of_fail hstep).symm
  | case3 state after hstep ih => rw [ih, resume_of_next hstep]

end SearchState

theorem expandFrom_eq_visit (hierarchy : Hierarchy ρ) (limit : Nat) (role : ρ)
    (progress : Progress ρ) :
    hierarchy.expandFrom limit role progress = hierarchy.visit limit 0 role progress := by
  rw [expandFrom, SearchState.run_eq_resume, visit_eq]
  rfl

theorem expandAll_eq_visitAll (hierarchy : Hierarchy ρ) (limit : Nat) (roles : List ρ)
    (progress : Progress ρ) :
    hierarchy.expandAll limit roles progress = hierarchy.visitAll limit roles progress := by
  induction roles generalizing progress with
  | nil => rfl
  | cons role rest ih =>
      unfold expandAll visitAll
      rw [expandFrom_eq_visit]
      by_cases hdone : role ∈ progress.finished
      · rw [if_pos hdone, if_pos hdone, ih]
      · rw [if_neg hdone, if_neg hdone]
        cases hierarchy.visit limit 0 role progress with
        | ok after => exact ih after
        | error fault => rfl

theorem expand_eq_visitAll (hierarchy : Hierarchy ρ) (limit : Nat) (given : List ρ) :
    hierarchy.expand limit given = (hierarchy.visitAll limit given {}).map Progress.output := by
  rw [expand, expandAll_eq_visitAll]

end Hierarchy

/-- The search with a stack is the recursive visit of the given roles: whatever the hierarchy, and
every view of roles in roles is one, whatever the limit and the given roles, both list the same
roles in the order of entering them, or both end with the same fault about the same role. So the
roles that count for an email are those of the visit of its direct roles, or the error that tells
the fault of that visit. -/
theorem expansion_is_recursive :
    (∀ parents : RoleSubject → List RoleSubject,
      ∃ hierarchy : Hierarchy RoleSubject, hierarchy.parents = parents) ∧
    (∀ (ρ : Type) [DecidableEq ρ] (hierarchy : Hierarchy ρ) (limit : Nat) (given : List ρ),
      hierarchy.expand limit given = (hierarchy.visitAll limit given {}).map
        Hierarchy.Progress.output) ∧
    ∀ (snapshot : Snapshot) (settings : Settings) (email : Email),
      snapshot.effectiveRoles settings email =
        if settings.followRoles then
          ((snapshot.hierarchy.visitAll settings.maxDepth (snapshot.userRoles email) {}).map
            Hierarchy.Progress.output).mapError (Error.ofFault settings.maxDepth)
        else
          .ok (snapshot.userRoles email) := by
  refine ⟨exists_hierarchy,
    fun ρ _ hierarchy limit given => hierarchy.expand_eq_visitAll limit given,
    fun snapshot settings email => ?_⟩
  split
  · next hfollow =>
      rw [Snapshot.effectiveRoles_eq_expandRoles hfollow, Snapshot.expandRoles,
        Hierarchy.expand_eq_visitAll]
  · next hdirect =>
      unfold Snapshot.effectiveRoles
      rw [if_neg hdirect]

end ScopedAccess
