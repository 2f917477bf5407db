import ScopedAccess.Hierarchy

/-!
# The invariant of the search

Between any two steps of a search the stack is a path from a given role, the roles on it are the
active ones, and a finished role has all of its parents finished before it. The result of a run is
read off that (`SearchState.run_ok`, `SearchState.run_error`).
-/

namespace ScopedAccess

namespace Hierarchy

variable {ρ : Type} {hierarchy : Hierarchy ρ}

/-! ## Chains -/

theorem Chain.snoc {first last parent : ρ} {links : Nat} (h : hierarchy.Chain first links last)
    (member : parent ∈ hierarchy.parents last) : hierarchy.Chain first (links + 1) parent :=
  h.append (.step member (.self parent))

theorem Reaches.step {role parent last : ρ} (member : parent ∈ hierarchy.parents role)
    (h : hierarchy.Reaches parent last) : hierarchy.Reaches role last := by
  obtain ⟨links, hchain⟩ := h
  exact ⟨links + 1, .step member hchain⟩

/-- Some chain of at least one membership leads from the role back to it. -/
def OnCycle (hierarchy : Hierarchy ρ) (role : ρ) : Prop :=
  ∃ parent ∈ hierarchy.parents role, hierarchy.Reaches parent role

theorem onCycle_of_reaches {role last : ρ} (h : hierarchy.Reaches role last)
    (member : role ∈ hierarchy.parents last) : hierarchy.OnCycle role := by
  obtain ⟨links, hchain⟩ := h
  cases hchain with
  | self => exact ⟨role, member, .refl hierarchy role⟩
  | @step _ parent _ links first rest => exact ⟨parent, first, links + 1, rest.snoc member⟩

def ReachedFrom (hierarchy : Hierarchy ρ) (given : List ρ) (role : ρ) : Prop :=
  ∃ first ∈ given, hierarchy.Reaches first role

/-! ## Finished roles -/

/-- Every role of the list has all of its parents later in the list. -/
def Grounded (hierarchy : Hierarchy ρ) : List ρ → Prop
  | [] => True
  | role :: earlier =>
      (∀ parent ∈ hierarchy.parents role, parent ∈ earlier) ∧ Grounded hierarchy earlier

theorem Grounded.mem_of_parent {finished : List ρ} (h : hierarchy.Grounded finished)
    {role parent : ρ} (hrole : role ∈ finished) (member : parent ∈ hierarchy.parents role) :
    parent ∈ finished := by
  induction finished with
  | nil => simp at hrole
  | cons latest earlier ih =>
      rcases List.mem_cons.mp hrole with rfl | hrole
      · exact List.mem_cons_of_mem _ (h.1 parent member)
      · exact List.mem_cons_of_mem _ (ih h.2 hrole)

theorem Grounded.mem_of_chain {finished : List ρ} (h : hierarchy.Grounded finished)
    {first last : ρ} {links : Nat} (hchain : hierarchy.Chain first links last)
    (hfirst : first ∈ finished) : last ∈ finished := by
  induction hchain with
  | self role => exact hfirst
  | step member rest ih => exact ih (h.mem_of_parent hfirst member)

theorem Grounded.mem_of_reaches {finished : List ρ} (h : hierarchy.Grounded finished)
    {first last : ρ} (hreaches : hierarchy.Reaches first last) (hfirst : first ∈ finished) :
    last ∈ finished := by
  obtain ⟨links, hchain⟩ := hreaches
  exact h.mem_of_chain hchain hfirst

/-- A finished role is on no cycle: its parents, and all they reach, were finished before it. -/
theorem Grounded.not_onCycle {finished : List ρ} (h : hierarchy.Grounded finished)
    (hnodup : finished.Nodup) {role : ρ} (hrole : role ∈ finished) :
    ¬ hierarchy.OnCycle role := by
  induction finished with
  | nil => simp at hrole
  | cons latest earlier ih =>
      have hnot : latest ∉ earlier := (List.nodup_cons.mp hnodup).1
      rcases List.mem_cons.mp hrole with rfl | hrole
      · intro hcycle
        obtain ⟨parent, member, hreaches⟩ := hcycle
        exact hnot (h.2.mem_of_reaches hreaches (h.1 parent member))
      · exact ih h.2 (List.nodup_cons.mp hnodup).2 hrole

/-! ## The stack -/

/-- The stack is a path: it starts at a given role, and every further role is a parent of the
one below it and one membership deeper. -/
def Linked (given : List ρ) : List (Frame hierarchy) → Prop
  | [] => True
  | [frame] => frame.role ∈ given ∧ frame.depth = 0
  | frame :: below :: rest =>
      frame.role ∈ hierarchy.parents below.role ∧ frame.depth = below.depth + 1 ∧
        Linked given (below :: rest)

/-- Of the parents of a role on the stack, those that no longer wait are finished, apart from the
one that the role right above was entered as. -/
def Explored (finished : List ρ) : List ρ → List (Frame hierarchy) → Prop
  | _, [] => True
  | above, frame :: rest =>
      (∀ parent ∈ hierarchy.parents frame.role,
        parent ∈ frame.pending ∨ parent ∈ finished ∨ parent ∈ above) ∧
        Explored finished [frame.role] rest

theorem Linked.tail {given : List ρ} {frame : Frame hierarchy} {rest : List (Frame hierarchy)}
    (h : Linked given (frame :: rest)) : Linked given rest := by
  cases rest with
  | nil => trivial
  | cons below rest => exact h.2.2

theorem Linked.replace {given : List ρ} {frame frame' : Frame hierarchy}
    {rest : List (Frame hierarchy)} (h : Linked given (frame :: rest))
    (hrole : frame'.role = frame.role) (hdepth : frame'.depth = frame.depth) :
    Linked given (frame' :: rest) := by
  cases rest with
  | nil =>
      rw [Linked, hrole, hdepth]
      exact h
  | cons below rest =>
      rw [Linked, hrole, hdepth]
      exact h

theorem Linked.chain {given : List ρ} {stack : List (Frame hierarchy)} (h : Linked given stack)
    {frame : Frame hierarchy} (hmem : frame ∈ stack) :
    ∃ first ∈ given, hierarchy.Chain first frame.depth frame.role := by
  induction stack generalizing frame with
  | nil => simp at hmem
  | cons top rest ih =>
      rcases List.mem_cons.mp hmem with rfl | hrest
      · cases rest with
        | nil =>
            refine ⟨frame.role, h.1, ?_⟩
            rw [h.2]
            exact .self frame.role
        | cons below rest =>
            obtain ⟨first, hfirst, hchain⟩ := ih h.2.2 List.mem_cons_self
            refine ⟨first, hfirst, ?_⟩
            rw [h.2.1]
            exact hchain.snoc h.1
      · exact ih h.tail hrest

theorem Linked.reaches_top {given : List ρ} {top : Frame hierarchy}
    {rest : List (Frame hierarchy)} (h : Linked given (top :: rest)) {frame : Frame hierarchy}
    (hmem : frame ∈ top :: rest) : hierarchy.Reaches frame.role top.role := by
  induction rest generalizing top with
  | nil =>
      rw [List.mem_singleton.mp hmem]
      exact .refl hierarchy top.role
  | cons below rest ih =>
      rcases List.mem_cons.mp hmem with rfl | hrest
      · exact .refl hierarchy frame.role
      · have hbelow : hierarchy.Reaches frame.role below.role := ih h.2.2 hrest
        have hlast : hierarchy.Reaches below.role top.role :=
          .step h.1 (.refl hierarchy top.role)
        exact hbelow.trans hlast

theorem Explored.mono {finished finished' above above' : List ρ}
    {stack : List (Frame hierarchy)} (h : Explored finished above stack)
    (hfinished : ∀ role ∈ finished, role ∈ finished')
    (habove : ∀ role ∈ above, role ∈ finished' ∨ role ∈ above') :
    Explored finished' above' stack := by
  induction stack generalizing above above' with
  | nil => trivial
  | cons frame rest ih =>
      refine ⟨?_, ih h.2 fun role hrole => Or.inr hrole⟩
      intro parent member
      rcases h.1 parent member with hpending | hdone | hup
      · exact Or.inl hpending
      · exact Or.inr (Or.inl (hfinished parent hdone))
      · exact Or.inr (habove parent hup)

/-! ## Between two steps -/

/-- What the search maintains while it expands some of the given roles. -/
structure SearchState.Invariant (given : List ρ) (limit : Nat) (state : SearchState hierarchy) :
    Prop where
  active_eq : state.progress.active = state.stack.map Frame.role
  active_nodup : state.progress.active.Nodup
  finished_nodup : state.progress.finished.Nodup
  disjoint : ∀ role ∈ state.progress.active, role ∉ state.progress.finished
  linked : Linked given state.stack
  depth_le : ∀ frame ∈ state.stack, frame.depth ≤ limit
  pending_suffix : ∀ frame ∈ state.stack, frame.pending <:+ hierarchy.parents frame.role
  explored : Explored state.progress.finished [] state.stack
  grounded : hierarchy.Grounded state.progress.finished
  reached : ∀ role ∈ state.progress.finished, hierarchy.ReachedFrom given role
  output_nodup : state.progress.output.Nodup
  mem_output : ∀ role, role ∈ state.progress.output ↔
    role ∈ state.progress.active ∨ role ∈ state.progress.finished

/-- Progress between two searches: no role is active, and what is finished keeps the invariant. -/
def Progress.Complete (hierarchy : Hierarchy ρ) (given : List ρ) (limit : Nat)
    (progress : Progress ρ) : Prop :=
  SearchState.Invariant given limit (⟨[], progress⟩ : SearchState hierarchy)

/-- Whether the reason for which a search failed is there to be seen in the hierarchy. -/
def Fault.Truthful (hierarchy : Hierarchy ρ) (given : List ρ) (limit : Nat) : Fault ρ → Prop
  | .cycle role => hierarchy.ReachedFrom given role ∧ hierarchy.OnCycle role
  | .tooDeep role => ∃ first ∈ given, hierarchy.Chain first (limit + 1) role

namespace SearchState

variable {given : List ρ} {limit : Nat}

theorem Invariant.skip {role parent : ρ} {depth : Nat} {rest : List ρ}
    {subset : ∀ other ∈ parent :: rest, other ∈ _} {subset' : ∀ other ∈ rest, other ∈ _}
    {stack : List (Frame hierarchy)} {progress : Progress ρ}
    (h : Invariant given limit ⟨⟨role, depth, parent :: rest, subset⟩ :: stack, progress⟩)
    (hfinished : parent ∈ progress.finished) :
    Invariant given limit ⟨⟨role, depth, rest, subset'⟩ :: stack, progress⟩ := by
  constructor
  case linked => exact h.linked.replace rfl rfl
  case depth_le =>
    intro frame hmem
    rcases List.mem_cons.mp hmem with rfl | hmem
    · exact h.depth_le ⟨role, depth, parent :: rest, subset⟩ List.mem_cons_self
    · exact h.depth_le frame (List.mem_cons_of_mem _ hmem)
  case pending_suffix =>
    intro frame hmem
    rcases List.mem_cons.mp hmem with rfl | hmem
    · exact (List.suffix_cons parent rest).trans
        (h.pending_suffix ⟨role, depth, parent :: rest, subset⟩ List.mem_cons_self)
    · exact h.pending_suffix frame (List.mem_cons_of_mem _ hmem)
  case explored =>
    refine ⟨fun other member => ?_, h.explored.2⟩
    rcases h.explored.1 other member with hpending | hdone
    · rcases List.mem_cons.mp hpending with rfl | hpending
      · exact Or.inr (Or.inl hfinished)
      · exact Or.inl hpending
    · exact Or.inr hdone
  case active_eq => exact h.active_eq
  case active_nodup => exact h.active_nodup
  case finished_nodup => exact h.finished_nodup
  case disjoint => exact h.disjoint
  case grounded => exact h.grounded
  case reached => exact h.reached
  case output_nodup => exact h.output_nodup
  case mem_output => exact h.mem_output

theorem Invariant.parent_mem {role parent : ρ} {depth : Nat} {rest : List ρ}
    {subset : ∀ other ∈ parent :: rest, other ∈ _} {stack : List (Frame hierarchy)}
    {progress : Progress ρ}
    (h : Invariant given limit ⟨⟨role, depth, parent :: rest, subset⟩ :: stack, progress⟩) :
    parent ∈ hierarchy.parents role :=
  (h.pending_suffix ⟨role, depth, parent :: rest, subset⟩ List.mem_cons_self).subset
    List.mem_cons_self

theorem Invariant.enter {role parent : ρ} {depth : Nat} {rest : List ρ}
    {subset : ∀ other ∈ parent :: rest, other ∈ _} {subset' : ∀ other ∈ rest, other ∈ _}
    {stack : List (Frame hierarchy)} {progress : Progress ρ}
    (h : Invariant given limit ⟨⟨role, depth, parent :: rest, subset⟩ :: stack, progress⟩)
    (hlimit : depth + 1 ≤ limit) (hactive : parent ∉ progress.active)
    (hfinished : parent ∉ progress.finished) :
    Invariant given limit
      ⟨.enter hierarchy parent (depth + 1) :: ⟨role, depth, rest, subset'⟩ :: stack,
        progress.enter parent⟩ := by
  have hparent : parent ∈ hierarchy.parents role := h.parent_mem
  have hnew : parent ∉ progress.output := by
    rw [h.mem_output parent]
    exact fun hseen => hseen.elim hactive hfinished
  constructor
  case active_eq => exact congrArg (parent :: ·) h.active_eq
  case active_nodup => exact List.nodup_cons.mpr ⟨hactive, h.active_nodup⟩
  case finished_nodup => exact h.finished_nodup
  case disjoint =>
    intro other hother
    rcases List.mem_cons.mp hother with rfl | hother
    · exact hfinished
    · exact h.disjoint other hother
  case linked => exact ⟨hparent, rfl, h.linked.replace rfl rfl⟩
  case depth_le =>
    intro frame hmem
    rcases List.mem_cons.mp hmem with rfl | hmem
    · exact hlimit
    · rcases List.mem_cons.mp hmem with rfl | hmem
      · exact h.depth_le ⟨role, depth, parent :: rest, subset⟩ List.mem_cons_self
      · exact h.depth_le frame (List.mem_cons_of_mem _ hmem)
  case pending_suffix =>
    intro frame hmem
    rcases List.mem_cons.mp hmem with rfl | hmem
    · exact List.suffix_refl _
    · rcases List.mem_cons.mp hmem with rfl | hmem
      · exact (List.suffix_cons parent rest).trans
          (h.pending_suffix ⟨role, depth, parent :: rest, subset⟩ List.mem_cons_self)
      · exact h.pending_suffix frame (List.mem_cons_of_mem _ hmem)
  case explored =>
    -- all parents of the new role wait; of those of `role` the new one is on the path now
    refine ⟨fun other member => Or.inl member, fun other member => ?_, h.explored.2⟩
    rcases h.explored.1 other member with hpending | hdone | hup
    · rcases List.mem_cons.mp hpending with rfl | hpending
      · exact Or.inr (Or.inr List.mem_cons_self)
      · exact Or.inl hpending
    · exact Or.inr (Or.inl hdone)
    · simp at hup
  case grounded => exact h.grounded
  case reached => exact h.reached
  case output_nodup =>
    refine List.nodup_append.mpr ⟨h.output_nodup, by simp, ?_⟩
    intro a ha b hb heq
    rw [List.mem_singleton] at hb
    exact hnew (hb ▸ heq ▸ ha)
  case mem_output =>
    intro other
    simp only [Progress.enter, List.mem_append, List.mem_cons, h.mem_output other]
    grind

variable [DecidableEq ρ]

theorem Invariant.finish {role : ρ} {depth : Nat} {subset : ∀ parent ∈ [], parent ∈ _}
    {stack : List (Frame hierarchy)} {progress : Progress ρ}
    (h : Invariant given limit ⟨⟨role, depth, [], subset⟩ :: stack, progress⟩) :
    Invariant given limit ⟨stack, progress.finish role⟩ := by
  have hactive : progress.active = role :: stack.map Frame.role := h.active_eq
  have hnodup := h.active_nodup
  simp only [hactive, List.nodup_cons] at hnodup
  have hrest : (progress.finish role).active = stack.map Frame.role := by
    rw [Progress.finish, hactive, List.filter_cons_of_neg (by simp), List.filter_eq_self]
    intro other hother
    have hne : other ≠ role := fun heq => hnodup.1 (heq ▸ hother)
    simpa using hne
  have hrole : role ∉ progress.finished := h.disjoint role (by simp [hactive])
  have hlater : ∀ other ∈ progress.finished, other ∈ role :: progress.finished :=
    fun other hmem => List.mem_cons_of_mem _ hmem
  constructor
  case active_eq => exact hrest
  case active_nodup =>
    rw [hrest]
    exact hnodup.2
  case finished_nodup => exact List.nodup_cons.mpr ⟨hrole, h.finished_nodup⟩
  case disjoint =>
    intro other hother
    rw [hrest] at hother
    have hne : other ≠ role := fun heq => hnodup.1 (heq ▸ hother)
    have hnot : other ∉ progress.finished := h.disjoint other (by simp [hactive, hother])
    simp [Progress.finish, hne, hnot]
  case linked => exact h.linked.tail
  case depth_le => exact fun frame hmem => h.depth_le frame (List.mem_cons_of_mem _ hmem)
  case pending_suffix =>
    exact fun frame hmem => h.pending_suffix frame (List.mem_cons_of_mem _ hmem)
  case explored =>
    refine h.explored.2.mono hlater fun other hother => Or.inl ?_
    rw [List.mem_singleton.mp hother]
    exact List.mem_cons_self
  case grounded =>
    -- nothing waits on the frame, so every parent of the role is finished
    refine ⟨fun parent member => ?_, h.grounded⟩
    rcases h.explored.1 parent member with hpending | hdone | hup
    · simp at hpending
    · exact hdone
    · simp at hup
  case reached =>
    intro other hother
    rcases List.mem_cons.mp hother with rfl | hother
    · obtain ⟨first, hfirst, hchain⟩ := h.linked.chain List.mem_cons_self
      exact ⟨first, hfirst, depth, hchain⟩
    · exact h.reached other hother
  case output_nodup => exact h.output_nodup
  case mem_output =>
    intro other
    rw [hrest]
    have hmem := h.mem_output other
    simp only [hactive, List.mem_cons] at hmem
    simp only [Progress.finish, List.mem_cons, hmem]
    grind

theorem Invariant.advance {state after : SearchState hierarchy}
    (h : Invariant given limit state) (hstep : state.advance limit = .next after) :
    Invariant given limit after := by
  match state with
  | ⟨[], _⟩ => exact nomatch hstep
  | ⟨⟨role, depth, [], subset⟩ :: stack, progress⟩ =>
      cases hstep
      exact h.finish
  | ⟨⟨role, depth, parent :: rest, subset⟩ :: stack, progress⟩ =>
      simp only [SearchState.advance] at hstep
      split at hstep
      · cases hstep
      · next hlimit =>
          split at hstep
          · cases hstep
          · next hactive =>
              split at hstep
              · next hfinished =>
                  cases hstep
                  exact h.skip hfinished
              · next hfinished =>
                  cases hstep
                  exact h.enter (by omega) hactive hfinished

theorem Invariant.truthful {state : SearchState hierarchy} {fault : Fault ρ}
    (h : Invariant given limit state) (hstep : state.advance limit = .fail fault) :
    fault.Truthful hierarchy given limit := by
  match state with
  | ⟨[], _⟩ => exact nomatch hstep
  | ⟨⟨role, depth, [], subset⟩ :: stack, progress⟩ => exact nomatch hstep
  | ⟨⟨role, depth, parent :: rest, subset⟩ :: stack, progress⟩ =>
      have hparent : parent ∈ hierarchy.parents role := h.parent_mem
      obtain ⟨first, hfirst, hchain⟩ := h.linked.chain List.mem_cons_self
      simp only [SearchState.advance] at hstep
      split at hstep
      · next hlimit =>
          cases hstep
          have hdepth : depth ≤ limit :=
            h.depth_le ⟨role, depth, parent :: rest, subset⟩ List.mem_cons_self
          have heq : depth = limit := by omega
          refine ⟨first, hfirst, ?_⟩
          rw [← heq]
          exact hchain.snoc hparent
      · split at hstep
        · next hactive =>
            cases hstep
            have hmem : parent ∈ List.map Frame.role _ := h.active_eq ▸ hactive
            obtain ⟨frame, hframe, rfl⟩ := List.mem_map.mp hmem
            -- the parent is on the path, and the path leads from it to the role on top
            have htop : hierarchy.Reaches frame.role role := h.linked.reaches_top hframe
            exact ⟨⟨first, hfirst, depth + 1, hchain.snoc hparent⟩,
              onCycle_of_reaches htop hparent⟩
        · split at hstep <;> cases hstep

theorem output_subset_of_advance {state after : SearchState hierarchy}
    (hstep : state.advance limit = .next after) :
    ∀ role ∈ state.progress.output, role ∈ after.progress.output := by
  intro role hrole
  match state with
  | ⟨[], _⟩ => exact nomatch hstep
  | ⟨⟨_, _, [], _⟩ :: stack, progress⟩ =>
      cases hstep
      exact hrole
  | ⟨⟨_, depth, parent :: rest, subset⟩ :: stack, progress⟩ =>
      simp only [SearchState.advance] at hstep
      split at hstep
      · cases hstep
      · split at hstep
        · cases hstep
        · split at hstep
          · cases hstep
            exact hrole
          · cases hstep
            exact List.mem_append_left _ hrole

/-! ## Whole runs -/

theorem run_of_done {state : SearchState hierarchy} (h : state.advance limit = .done) :
    state.run limit = .ok state.progress := by
  rw [run]
  split <;> simp_all

theorem run_of_fail {state : SearchState hierarchy} {fault : Fault ρ}
    (h : state.advance limit = .fail fault) : state.run limit = .error fault := by
  rw [run]
  split <;> simp_all

theorem run_of_next {state after : SearchState hierarchy}
    (h : state.advance limit = .next after) : state.run limit = after.run limit := by
  rw [run]
  split <;> simp_all

theorem stack_eq_nil_of_done {state : SearchState hierarchy}
    (hstep : state.advance limit = .done) : state.stack = [] := by
  match state with
  | ⟨[], _⟩ => rfl
  | ⟨⟨_, _, [], _⟩ :: _, _⟩ => exact nomatch hstep
  | ⟨⟨_, depth, parent :: rest, subset⟩ :: stack, progress⟩ =>
      simp only [SearchState.advance] at hstep
      split at hstep
      · cases hstep
      · split at hstep
        · cases hstep
        · split at hstep <;> cases hstep

/-- A run that ends well has left every role that it entered, and forgets none it had met. -/
theorem run_ok {state : SearchState hierarchy} {progress : Progress ρ}
    (h : Invariant given limit state) (hrun : state.run limit = .ok progress) :
    progress.Complete hierarchy given limit ∧
      ∀ role ∈ state.progress.output, role ∈ progress.output := by
  fun_induction SearchState.run limit state with
  | case1 state hstep =>
      cases hrun
      have hstack : state.stack = [] := stack_eq_nil_of_done hstep
      refine ⟨?_, fun role hrole => hrole⟩
      rw [Progress.Complete, ← hstack]
      exact h
  | case2 state fault hstep => exact nomatch hrun
  | case3 state after hstep ih =>
      obtain ⟨hcomplete, hkept⟩ := ih (h.advance hstep) hrun
      exact ⟨hcomplete, fun role hrole => hkept role (output_subset_of_advance hstep role hrole)⟩

theorem run_error {state : SearchState hierarchy} {fault : Fault ρ}
    (h : Invariant given limit state) (hrun : state.run limit = .error fault) :
    fault.Truthful hierarchy given limit := by
  fun_induction SearchState.run limit state with
  | case1 state hstep => exact nomatch hrun
  | case2 state other hstep =>
      cases hrun
      exact h.truthful hstep
  | case3 state after hstep ih => exact ih (h.advance hstep) hrun

end SearchState

end Hierarchy

end ScopedAccess
