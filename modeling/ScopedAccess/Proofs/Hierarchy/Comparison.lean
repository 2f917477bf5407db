import Mathlib.Data.List.Forall2
import Mathlib.Data.List.Perm.Subperm
import ScopedAccess.Proofs.Hierarchy.Expansion

/-!
# Searches side by side

A search looks only at the parents of roles it has met, and the limit enters only where a parent is
compared with it. So hierarchies that agree in reach have the same expansions
(`expand_eq_of_agree`), and a larger limit changes no settled one (`expand_of_le`).
-/

namespace ScopedAccess

/-! ## Hierarchies that agree in reach -/

namespace Hierarchy

variable {ρ : Type} {hierarchy other : Hierarchy ρ} {given : List ρ} {limit : Nat}

/-- Every role that the given ones reach has the same parents, in the same order. -/
def AgreeFrom (hierarchy other : Hierarchy ρ) (given : List ρ) : Prop :=
  ∀ role, hierarchy.ReachedFrom given role → other.parents role = hierarchy.parents role

theorem reachedFrom_of_mem {role : ρ} (h : role ∈ given) : hierarchy.ReachedFrom given role :=
  ⟨role, h, .refl hierarchy role⟩

/-! ## Searches at the same point -/

structure Frame.Alike (frame : Frame hierarchy) (frame' : Frame other) : Prop where
  role_eq : frame'.role = frame.role
  depth_eq : frame'.depth = frame.depth
  pending_eq : frame'.pending = frame.pending

theorem exists_eq_cons_of_alike {role : ρ} {depth : Nat} {pending : List ρ}
    {subset : ∀ parent ∈ pending, parent ∈ hierarchy.roles} {stack : List (Frame hierarchy)}
    {stack' : List (Frame other)}
    (h : List.Forall₂ Frame.Alike (⟨role, depth, pending, subset⟩ :: stack) stack') :
    ∃ subset' rest, stack' = ⟨role, depth, pending, subset'⟩ :: rest ∧
      List.Forall₂ Frame.Alike stack rest := by
  obtain ⟨⟨role', depth', pending', subset'⟩, rest, hframe, hrest, rfl⟩ :=
    List.forall₂_cons_left_iff.mp h
  cases hframe.role_eq
  cases hframe.depth_eq
  cases hframe.pending_eq
  exact ⟨subset', rest, rfl, hrest⟩

structure SearchState.Alike (state : SearchState hierarchy) (state' : SearchState other) :
    Prop where
  stack : List.Forall₂ Frame.Alike state.stack state'.stack
  progress_eq : state'.progress = state.progress

inductive Move.Alike : Move hierarchy → Move other → Prop where
  | done : Alike .done .done
  | fail (fault : Fault ρ) : Alike (.fail fault) (.fail fault)
  | next {state : SearchState hierarchy} {state' : SearchState other} (alike : state.Alike state') :
      Alike (.next state) (.next state')

theorem AgreeFrom.frame_enter (h : hierarchy.AgreeFrom other given) {role : ρ}
    (hrole : hierarchy.ReachedFrom given role) (depth : Nat) :
    (Frame.enter hierarchy role depth).Alike (Frame.enter other role depth) :=
  ⟨rfl, rfl, h role hrole⟩

variable [DecidableEq ρ]

/-- From the same point, both searches take the same step. -/
theorem AgreeFrom.advance (h : hierarchy.AgreeFrom other given) {state : SearchState hierarchy}
    {state' : SearchState other} (hinvariant : SearchState.Invariant given limit state)
    (halike : state.Alike state') : (state.advance limit).Alike (state'.advance limit) := by
  obtain ⟨stack', progress'⟩ := state'
  obtain ⟨hstack, hprogress⟩ := halike
  dsimp only at hstack hprogress
  subst hprogress
  match state with
  | ⟨[], progress⟩ =>
      cases hstack
      exact .done
  | ⟨⟨role, depth, [], subset⟩ :: stack, progress⟩ =>
      obtain ⟨subset', rest', rfl, hrest⟩ := exists_eq_cons_of_alike hstack
      exact .next ⟨hrest, rfl⟩
  | ⟨⟨role, depth, parent :: pending, subset⟩ :: stack, progress⟩ =>
      obtain ⟨subset', rest', rfl, hrest⟩ := exists_eq_cons_of_alike hstack
      -- the parent is in reach, since the path to its member is
      obtain ⟨first, hfirst, hchain⟩ := hinvariant.linked.chain List.mem_cons_self
      have hparent : hierarchy.ReachedFrom given parent :=
        ⟨first, hfirst, depth + 1, hchain.snoc hinvariant.parent_mem⟩
      simp only [SearchState.advance]
      split
      · exact .fail _
      · split
        · exact .fail _
        · split
          · exact .next ⟨.cons ⟨rfl, rfl, rfl⟩ hrest, rfl⟩
          · exact .next ⟨.cons (h.frame_enter hparent _) (.cons ⟨rfl, rfl, rfl⟩ hrest), rfl⟩

theorem AgreeFrom.run_eq (h : hierarchy.AgreeFrom other given) {state : SearchState hierarchy}
    {state' : SearchState other} (hinvariant : SearchState.Invariant given limit state)
    (halike : state.Alike state') : state'.run limit = state.run limit := by
  fun_induction SearchState.run limit state generalizing state' with
  | case1 state hstep =>
      have hmove := h.advance hinvariant halike
      rw [hstep] at hmove
      generalize hother : state'.advance limit = move at hmove
      cases hmove
      rw [SearchState.run_of_done hother, halike.progress_eq]
  | case2 state fault hstep =>
      have hmove := h.advance hinvariant halike
      rw [hstep] at hmove
      generalize hother : state'.advance limit = move at hmove
      cases hmove
      exact SearchState.run_of_fail hother
  | case3 state after hstep ih =>
      have hmove := h.advance hinvariant halike
      rw [hstep] at hmove
      generalize hother : state'.advance limit = move at hmove
      cases hmove with
      | next hafter =>
          rw [SearchState.run_of_next hother]
          exact ih (hinvariant.advance hstep) hafter

/-! ## Expansions -/

theorem AgreeFrom.expandFrom_eq (h : hierarchy.AgreeFrom other given) {role : ρ}
    {progress : Progress ρ} (hcomplete : progress.Complete hierarchy given limit)
    (hgiven : role ∈ given) (hnew : role ∉ progress.finished) :
    other.expandFrom limit role progress = hierarchy.expandFrom limit role progress :=
  h.run_eq (hcomplete.enter hgiven hnew)
    ⟨.cons (h.frame_enter (reachedFrom_of_mem hgiven) 0) .nil, rfl⟩

theorem AgreeFrom.expandAll_eq (h : hierarchy.AgreeFrom other given) {roles : List ρ}
    {progress : Progress ρ} (hcomplete : progress.Complete hierarchy given limit)
    (hgiven : ∀ role ∈ roles, role ∈ given) :
    other.expandAll limit roles progress = hierarchy.expandAll limit roles progress := by
  induction roles generalizing progress with
  | nil => rfl
  | cons role rest ih =>
      have hrole : role ∈ given := hgiven role List.mem_cons_self
      have hrest : ∀ later ∈ rest, later ∈ given :=
        fun later hmem => hgiven later (List.mem_cons_of_mem _ hmem)
      unfold expandAll
      split
      · exact ih hcomplete hrest
      · next hnew =>
          rw [h.expandFrom_eq hcomplete hrole hnew]
          cases hfrom : hierarchy.expandFrom limit role progress with
          | error fault => rfl
          | ok after => exact ih (expandFrom_ok hcomplete hrole hnew hfrom).1 hrest

/-- What is out of reach has no part in an expansion, neither in its list nor in its fault. -/
theorem expand_eq_of_agree (h : hierarchy.AgreeFrom other given) (limit : Nat) :
    other.expand limit given = hierarchy.expand limit given := by
  unfold expand
  rw [h.expandAll_eq Progress.complete_start fun role hrole => hrole]

end Hierarchy

/-! ## Larger limits -/

namespace Hierarchy

variable {ρ : Type} {hierarchy : Hierarchy ρ} {given : List ρ} {limit limit' : Nat}

/-! ## Ends that a larger limit keeps -/

/-- The other end is the same one, unless this one is that the limit was broken. -/
def KeptBy {α : Type} (result other : Except (Fault ρ) α) : Prop :=
  other = result ∨ ∃ role, result = .error (.tooDeep role)

theorem KeptBy.map {α β : Type} {result other : Except (Fault ρ) α} (h : KeptBy result other)
    (use : α → β) : KeptBy (result.map use) (other.map use) := by
  rcases h with hsame | ⟨role, hdeep⟩
  · exact Or.inl (by rw [hsame])
  · exact Or.inr ⟨role, by rw [hdeep]; rfl⟩

theorem KeptBy.eq_ok {α : Type} {result other : Except (Fault ρ) α} (h : KeptBy result other)
    {value : α} (hok : result = .ok value) : other = .ok value := by
  rcases h with hsame | ⟨role, hdeep⟩
  · exact hsame.trans hok
  · exact nomatch hok.symm.trans hdeep

theorem KeptBy.eq_cycle {α : Type} {result other : Except (Fault ρ) α} (h : KeptBy result other)
    {role : ρ} (hcycle : result = .error (.cycle role)) : other = .error (.cycle role) := by
  rcases h with hsame | ⟨parent, hdeep⟩
  · exact hsame.trans hcycle
  · exact nomatch hcycle.symm.trans hdeep

section Search

variable [DecidableEq ρ]

/-- A step with a larger limit is the same step, unless it breaks the smaller limit. -/
theorem SearchState.advance_of_le (hle : limit ≤ limit') (state : SearchState hierarchy) :
    state.advance limit' = state.advance limit ∨
      ∃ role, state.advance limit = .fail (.tooDeep role) := by
  match state with
  | ⟨[], _⟩ => exact Or.inl rfl
  | ⟨⟨_, _, [], _⟩ :: _, _⟩ => exact Or.inl rfl
  | ⟨⟨_, depth, parent :: rest, _⟩ :: _, _⟩ =>
      by_cases hbroken : limit < depth + 1
      · exact Or.inr ⟨parent, by simp only [advance, if_pos hbroken]⟩
      · have hkept : ¬ limit' < depth + 1 := by omega
        exact Or.inl (by simp only [advance, if_neg hbroken, if_neg hkept])

theorem SearchState.run_of_le (hle : limit ≤ limit') (state : SearchState hierarchy) :
    KeptBy (state.run limit) (state.run limit') := by
  -- along the run with the smaller limit, which ends where the two first differ
  fun_induction SearchState.run limit state with
  | case1 state hstep =>
      rcases advance_of_le hle state with hsame | ⟨role, hdeep⟩
      · exact Or.inl (run_of_done (hsame.trans hstep))
      · cases hstep.symm.trans hdeep
  | case2 state fault hstep =>
      rcases advance_of_le hle state with hsame | ⟨role, hdeep⟩
      · exact Or.inl (run_of_fail (hsame.trans hstep))
      · cases hstep.symm.trans hdeep
        exact Or.inr ⟨role, rfl⟩
  | case3 state after hstep ih =>
      rcases advance_of_le hle state with hsame | ⟨role, hdeep⟩
      · rw [run_of_next (hsame.trans hstep)]
        exact ih
      · cases hstep.symm.trans hdeep

theorem expandAll_of_le (hle : limit ≤ limit') (roles : List ρ) (progress : Progress ρ) :
    KeptBy (hierarchy.expandAll limit roles progress)
      (hierarchy.expandAll limit' roles progress) := by
  induction roles generalizing progress with
  | nil => exact Or.inl rfl
  | cons role rest ih =>
      unfold expandAll
      split
      · exact ih progress
      · rcases SearchState.run_of_le hle ⟨[.enter hierarchy role 0], progress.enter role⟩ with
          hsame | ⟨parent, hdeep⟩
        · have hfrom : hierarchy.expandFrom limit' role progress =
              hierarchy.expandFrom limit role progress := hsame
          rw [hfrom]
          cases hierarchy.expandFrom limit role progress with
          | ok after => exact ih after
          | error fault => exact Or.inl rfl
        · have hfrom : hierarchy.expandFrom limit role progress = .error (.tooDeep parent) := hdeep
          exact Or.inr ⟨parent, by rw [hfrom]⟩

theorem expand_of_le (hle : limit ≤ limit') (given : List ρ) :
    KeptBy (hierarchy.expand limit given) (hierarchy.expand limit' given) :=
  (expandAll_of_le hle given {}).map Progress.output

end Search

/-! ## Where no cycle is in reach -/

theorem Path.subset_roles {first : ρ} {path : List ρ} (h : hierarchy.Path first path) :
    path ⊆ hierarchy.roles := by
  induction path generalizing first with
  | nil => exact List.nil_subset _
  | cons parent rest ih =>
      exact List.cons_subset.mpr ⟨hierarchy.parents_subset first parent h.1, ih h.2⟩

/-- A chain that meets no cycle passes through different roles, so it runs out of them. -/
theorem Chain.links_le_length_roles {first last : ρ} {links : Nat}
    (h : hierarchy.Chain first links last)
    (hcycle : ∀ role, hierarchy.Reaches first role → ¬ hierarchy.OnCycle role) :
    links ≤ hierarchy.roles.length := by
  obtain ⟨path, hpath, hlength⟩ := h.exists_path
  have hnodup : path.Nodup := (List.nodup_cons.mp (hpath.nodup hcycle)).2
  have hle : path.length ≤ hierarchy.roles.length :=
    (hnodup.subperm hpath.subset_roles).length_le
  omega

theorem exists_expand_of_acyclic [DecidableEq ρ]
    (hcycle : ∀ role, hierarchy.ReachedFrom given role → ¬ hierarchy.OnCycle role) :
    ∃ output, ∀ limit, hierarchy.roles.length ≤ limit →
      hierarchy.expand limit given = .ok output := by
  have hdepth : ∀ first ∈ given, ∀ last,
      ¬ hierarchy.Chain first (hierarchy.roles.length + 1) last := by
    intro first hfirst last hchain
    have hle := hchain.links_le_length_roles fun role hreaches =>
      hcycle role ⟨first, hfirst, hreaches⟩
    omega
  obtain ⟨output, hoks⟩ := expand_ok_of_bounded hcycle hdepth
  exact ⟨output, fun limit hle => (expand_of_le hle given).eq_ok hoks⟩

end Hierarchy

end ScopedAccess
