import Mathlib
import ScopedAccess.Enforcer
import ScopedAccess.Proofs.Hierarchy.Expansion

/-!
# When an expansion fails

A cycle in reach, or a role in reach that is too far from every given role, makes an expansion fail.
An error tells the truth: it names a role on a cycle in reach, or one at the end of a chain that is
one membership too long (`Snapshot.expandRoles_fails`).
-/

namespace ScopedAccess

namespace Hierarchy

variable {ρ : Type} {hierarchy : Hierarchy ρ} {given : List ρ} {limit : Nat}

/-- Some chain from a given role to the role has no more than `limit` memberships. -/
def Within (hierarchy : Hierarchy ρ) (given : List ρ) (limit : Nat) (role : ρ) : Prop :=
  ∃ first ∈ given, ∃ links ≤ limit, hierarchy.Chain first links role

/-! ## Roles are met within the limit -/

theorem SearchState.Invariant.within {state : SearchState hierarchy}
    (h : Invariant given limit state) {frame : Frame hierarchy} (hmem : frame ∈ state.stack) :
    hierarchy.Within given limit frame.role := by
  obtain ⟨first, hfirst, hchain⟩ := h.linked.chain hmem
  exact ⟨first, hfirst, frame.depth, h.depth_le frame hmem, hchain⟩

variable [DecidableEq ρ]

namespace SearchState

theorem Invariant.within_of_advance {state after : SearchState hierarchy}
    (h : Invariant given limit state)
    (hwithin : ∀ role ∈ state.progress.finished, hierarchy.Within given limit role)
    (hstep : state.advance limit = .next after) :
    ∀ role ∈ after.progress.finished, hierarchy.Within given limit role := by
  match state with
  | ⟨[], _⟩ => exact nomatch hstep
  | ⟨⟨role, depth, [], subset⟩ :: stack, progress⟩ =>
      cases hstep
      intro other hother
      rcases List.mem_cons.mp hother with rfl | hother
      · exact h.within List.mem_cons_self
      · exact hwithin other hother
  | ⟨⟨role, depth, parent :: rest, subset⟩ :: stack, progress⟩ =>
      simp only [SearchState.advance] at hstep
      split at hstep
      · cases hstep
      · split at hstep
        · cases hstep
        · split at hstep <;> (cases hstep; exact hwithin)

theorem within_of_run {state : SearchState hierarchy} {progress : Progress ρ}
    (h : Invariant given limit state)
    (hwithin : ∀ role ∈ state.progress.finished, hierarchy.Within given limit role)
    (hrun : state.run limit = .ok progress) :
    ∀ role ∈ progress.finished, hierarchy.Within given limit role := by
  fun_induction SearchState.run limit state with
  | case1 state hstep =>
      cases hrun
      exact hwithin
  | case2 state fault hstep => cases hrun
  | case3 state after hstep ih =>
      exact ih (h.advance hstep) (h.within_of_advance hwithin hstep) hrun

end SearchState

theorem within_of_expandAll {roles : List ρ} {progress after : Progress ρ}
    (h : progress.Complete hierarchy given limit) (hgiven : ∀ role ∈ roles, role ∈ given)
    (hwithin : ∀ role ∈ progress.finished, hierarchy.Within given limit role)
    (hrun : hierarchy.expandAll limit roles progress = .ok after) :
    ∀ role ∈ after.finished, hierarchy.Within given limit role := by
  induction roles generalizing progress with
  | nil =>
      cases hrun
      exact hwithin
  | cons role rest ih =>
      have hrole : role ∈ given := hgiven role List.mem_cons_self
      have hrest : ∀ other ∈ rest, other ∈ given :=
        fun other hmem => hgiven other (List.mem_cons_of_mem _ hmem)
      unfold expandAll at hrun
      split at hrun
      · exact ih h hrest hwithin hrun
      · next hnew =>
          split at hrun
          · next middle hfrom =>
              have hmiddle := SearchState.within_of_run (h.enter hrole hnew) hwithin hfrom
              exact ih (expandFrom_ok h hrole hnew hfrom).1 hrest hmiddle hrun
          · exact nomatch hrun

/-- An expansion that ends well has no role in reach beyond the limit. -/
theorem within_of_expand {output : List ρ} (hrun : hierarchy.expand limit given = .ok output)
    {role : ρ} (hrole : hierarchy.ReachedFrom given role) :
    hierarchy.Within given limit role := by
  have hmem : role ∈ output := (mem_expand_iff hrun).mpr hrole
  unfold expand at hrun
  cases hall : hierarchy.expandAll limit given {} with
  | error fault =>
      rw [hall] at hrun
      exact nomatch hrun
  | ok progress =>
      rw [hall] at hrun
      cases hrun
      have hstart : (Progress.Complete hierarchy given limit {}) := Progress.complete_start
      have hcomplete := (expandAll_ok hstart (fun other hother => hother) hall).1
      exact within_of_expandAll hstart (fun other hother => hother) (by simp) hall role
        (hcomplete.mem_output_iff.mp hmem)

end Hierarchy

/-! ## Errors of expansions -/

/-- The error that a fault of an expansion is reported as. -/
def Error.ofFault (limit : Nat) : Hierarchy.Fault RoleSubject → Error
  | .cycle role => .roleCycle role
  | .tooDeep role => .roleDepth role limit

namespace Snapshot

def expandRoles (snapshot : Snapshot) (limit : Nat) (given : List RoleSubject) :
    Except Error (List RoleSubject) :=
  (snapshot.hierarchy.expand limit given).mapError (Error.ofFault limit)

theorem effectiveRoles_eq_expandRoles {snapshot : Snapshot} {settings : Settings}
    (h : settings.followRoles = true) (email : Email) :
    snapshot.effectiveRoles settings email =
      snapshot.expandRoles settings.maxDepth (snapshot.userRoles email) := by
  unfold effectiveRoles expandRoles
  rw [if_pos h]
  split <;> simp_all [Except.mapError, Error.ofFault]

variable {snapshot : Snapshot} {limit : Nat} {given : List RoleSubject}

theorem expandRoles_eq_ok_iff {roles : List RoleSubject} :
    snapshot.expandRoles limit given = .ok roles ↔
      snapshot.hierarchy.expand limit given = .ok roles := by
  unfold expandRoles
  cases snapshot.hierarchy.expand limit given <;> simp [Except.mapError]

theorem expandRoles_eq_error_iff {error : Error} :
    snapshot.expandRoles limit given = .error error ↔
      ∃ fault, snapshot.hierarchy.expand limit given = .error fault ∧
        error = .ofFault limit fault := by
  unfold expandRoles
  cases snapshot.hierarchy.expand limit given <;> simp [Except.mapError, eq_comm]

/-- An expansion fails if a cycle is in reach of the given roles, or a role that is more than
`limit` memberships away from each of them; and it ends well if there is no cycle in reach and no
chain from a given role has more than `limit` memberships. An error names a role on a cycle in
reach, or it names the limit and a role at the end of a chain one longer than that. The roles of an
email are expanded like that whenever the hierarchy is followed. -/
theorem expandRoles_fails (snapshot : Snapshot) (limit : Nat) (given : List RoleSubject) :
    (((∃ role, snapshot.hierarchy.ReachedFrom given role ∧ snapshot.hierarchy.OnCycle role) ∨
        (∃ role, snapshot.hierarchy.ReachedFrom given role ∧
          ∀ first ∈ given, ∀ links, snapshot.hierarchy.Chain first links role → limit < links)) →
      ∃ error, snapshot.expandRoles limit given = .error error) ∧
    ((∀ role, snapshot.hierarchy.ReachedFrom given role → ¬ snapshot.hierarchy.OnCycle role) →
      (∀ first ∈ given, ∀ links last,
        snapshot.hierarchy.Chain first links last → links ≤ limit) →
      ∃ roles, snapshot.expandRoles limit given = .ok roles) ∧
    (∀ error, snapshot.expandRoles limit given = .error error →
      (∃ role, error = .roleCycle role ∧ snapshot.hierarchy.ReachedFrom given role ∧
        snapshot.hierarchy.OnCycle role) ∨
      ∃ role, error = .roleDepth role limit ∧
        ∃ first ∈ given, snapshot.hierarchy.Chain first (limit + 1) role) ∧
    ∀ settings email, settings.followRoles = true →
      snapshot.effectiveRoles settings email =
        snapshot.expandRoles settings.maxDepth (snapshot.userRoles email) := by
  refine ⟨fun hbad => ?_, fun hcycle hdepth => ?_, fun error herror => ?_,
    fun settings email hfollow => effectiveRoles_eq_expandRoles hfollow email⟩
  · cases hrun : snapshot.expandRoles limit given with
    | error error => exact ⟨error, rfl⟩
    | ok roles =>
        have hexpand := expandRoles_eq_ok_iff.mp hrun
        rcases hbad with ⟨role, hreached, hcycle⟩ | ⟨role, hreached, hfar⟩
        · exact (Hierarchy.not_onCycle_of_expand hexpand hreached hcycle).elim
        · -- the role was met on a chain within the limit
          obtain ⟨first, hfirst, links, hlinks, hchain⟩ :=
            Hierarchy.within_of_expand hexpand hreached
          have hlong : limit < links := hfar first hfirst links hchain
          omega
  · have hlong : ∀ first ∈ given, ∀ last, ¬ snapshot.hierarchy.Chain first (limit + 1) last := by
      intro first hfirst last hchain
      have hle : limit + 1 ≤ limit := hdepth first hfirst (limit + 1) last hchain
      omega
    obtain ⟨roles, hexpand⟩ := Hierarchy.expand_ok_of_bounded hcycle hlong
    exact ⟨roles, expandRoles_eq_ok_iff.mpr hexpand⟩
  · obtain ⟨fault, hexpand, rfl⟩ := expandRoles_eq_error_iff.mp herror
    have htruthful := Hierarchy.truthful_of_expand hexpand
    cases fault with
    | cycle role => exact Or.inl ⟨role, rfl, htruthful⟩
    | tooDeep role => exact Or.inr ⟨role, rfl, htruthful⟩

theorem expandRoles_fails_on_circle :
    let view : RoleSubject := ⟨.view, .every⟩
    let admin : RoleSubject := ⟨.admin, .every⟩
    let line : Snapshot := ⟨1, (RuleSet.empty.addGrouping ⟨.role view, admin⟩).2⟩
    let circle : Snapshot := ⟨2, (line.rules.addGrouping ⟨.role admin, view⟩).2⟩
    (∃ error, circle.expandRoles 5 [view] = .error error) ∧
      (∃ roles, line.expandRoles 1 [view] = .ok roles) ∧
      circle.expandRoles 5 [view] = .error (.roleCycle view) ∧ circle.hierarchy.OnCycle view ∧
      circle.expandRoles 1 [view] = .error (.roleDepth view 1) ∧
      circle.hierarchy.Chain view 2 view := by
  intro view admin line circle
  have hup : admin ∈ circle.hierarchy.parents view := by decide
  have hdown : view ∈ circle.hierarchy.parents admin := by decide
  have hback : circle.hierarchy.Reaches admin view := .step hdown (.refl _ view)
  have hreached : circle.hierarchy.ReachedFrom [view] view :=
    ⟨view, List.mem_singleton_self view, .refl _ view⟩
  have hshort : ∀ first ∈ [view], ∀ links last, line.hierarchy.Chain first links last →
      links ≤ 1 := by
    intro first hfirst links last hchain
    rw [List.mem_singleton.mp hfirst] at hchain
    have hview : line.hierarchy.parents view = [admin] := by decide
    have hadmin : line.hierarchy.parents admin = [] := by decide
    cases hchain with
    | self => omega
    | @step _ parent _ _ member rest =>
        rw [hview, List.mem_singleton] at member
        rw [member] at rest
        cases rest with
        | self => omega
        | step member => simp [hadmin] at member
  have hline : ∀ role, line.hierarchy.ReachedFrom [view] role → ¬ line.hierarchy.OnCycle role := by
    rintro role ⟨first, hfirst, links, hchain⟩ ⟨parent, member, around, hround⟩
    have hlong := hshort first hfirst _ _ (((hchain.snoc member).append hround).snoc member)
    omega
  have hcycle : circle.expandRoles 5 [view] = .error (.roleCycle view) := by
    dsimp only [circle, line, admin, view]
    cbv
  have hdeep : circle.expandRoles 1 [view] = .error (.roleDepth view 1) := by
    dsimp only [circle, line, admin, view]
    cbv
  refine ⟨(expandRoles_fails circle 5 [view]).1 (Or.inl ⟨view, hreached, admin, hup, hback⟩),
    (expandRoles_fails line 1 [view]).2.1 hline hshort, hcycle, ?_, hdeep, ?_⟩
  · have htruthful := (expandRoles_fails circle 5 [view]).2.2.1 _ hcycle
    simp only [Error.roleCycle.injEq, exists_eq_left', reduceCtorEq, false_and, exists_false,
      or_false] at htruthful
    exact htruthful.2
  · have htruthful := (expandRoles_fails circle 1 [view]).2.2.1 _ hdeep
    simpa using htruthful

end Snapshot

end ScopedAccess
