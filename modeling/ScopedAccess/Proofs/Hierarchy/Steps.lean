import ScopedAccess.Proofs.Hierarchy.Failure

/-!
# The steps of an expansion

Every step is one of five (`Expansion.Step`). Each uses up a given role, a frame or a waiting
parent, and only an entered role brings new ones, so an expansion comes to its end, whatever the
limit and however the memberships run (`Snapshot.expansion_terminates`).
-/

namespace ScopedAccess

namespace Hierarchy

variable {ρ : Type} {hierarchy : Hierarchy ρ} {given : List ρ} {limit : Nat}

/-! ## The path on the stack -/

theorem Linked.depth_eq {top : Frame hierarchy} {rest : List (Frame hierarchy)}
    (h : Linked given (top :: rest)) : top.depth = rest.length := by
  induction rest generalizing top with
  | nil => exact h.2
  | cons below rest ih => rw [h.2.1, ih h.2.2, List.length_cons]

theorem Linked.depths_eq {stack : List (Frame hierarchy)} (h : Linked given stack) :
    stack.reverse.map Frame.depth = List.range stack.length := by
  induction stack with
  | nil => rfl
  | cons top rest ih =>
      rw [List.reverse_cons, List.map_append, ih h.tail, List.map_singleton, h.depth_eq,
        List.length_cons, List.range_succ]

theorem Linked.isChain {stack : List (Frame hierarchy)} (h : Linked given stack) :
    stack.IsChain fun above below => above.role ∈ hierarchy.parents below.role := by
  induction stack with
  | nil => exact .nil
  | cons top rest ih =>
      cases rest with
      | nil => exact .singleton top
      | cons below rest => exact .cons_cons h.1 (ih h.2.2)

theorem Chain.mem_roles {first last : ρ} {links : Nat} (h : hierarchy.Chain first links last) :
    last = first ∨ last ∈ hierarchy.roles := by
  induction h with
  | self role => exact Or.inl rfl
  | step member rest ih =>
      rcases ih with rfl | hroles
      · exact Or.inr (hierarchy.parents_subset _ _ member)
      · exact Or.inr hroles

theorem SearchState.Invariant.output_subset {state : SearchState hierarchy}
    (h : state.Invariant given limit) :
    state.progress.output ⊆ given ++ hierarchy.roles := by
  intro role hrole
  have hreached : hierarchy.ReachedFrom given role := by
    rcases (h.mem_output role).mp hrole with hactive | hfinished
    · rw [h.active_eq] at hactive
      obtain ⟨frame, hframe, rfl⟩ := List.mem_map.mp hactive
      obtain ⟨first, hfirst, hchain⟩ := h.linked.chain hframe
      exact ⟨first, hfirst, frame.depth, hchain⟩
    · exact h.reached role hfinished
  obtain ⟨first, hfirst, links, hchain⟩ := hreached
  rcases hchain.mem_roles with rfl | hroles
  · exact List.mem_append_left _ hfirst
  · exact List.mem_append_right _ hroles

/-- What it takes to work off the roles: one step for each parent, and one to leave the role. -/
def work (hierarchy : Hierarchy ρ) (roles : List ρ) : Nat :=
  (roles.map fun role => (hierarchy.parents role).length + 1).sum

theorem work_le_of_subset [DecidableEq ρ] {roles roles' : List ρ} (hnodup : roles.Nodup)
    (hsubset : roles ⊆ roles') : hierarchy.work roles ≤ hierarchy.work roles'.dedup := by
  rw [work, work, ← List.sum_toFinset _ hnodup, ← List.sum_toFinset _ roles'.nodup_dedup]
  apply Finset.sum_le_sum_of_subset
  intro role hrole
  rw [List.mem_toFinset] at hrole ⊢
  exact List.mem_dedup.mpr (hsubset hrole)

/-! ## Steps -/

/-- An expansion under way: the given roles that are yet to be taken up, and the search from the
one that was taken up last. -/
structure Expansion (hierarchy : Hierarchy ρ) where
  waiting : List ρ
  search : SearchState hierarchy

namespace Expansion

variable {state after : Expansion hierarchy} {asked : Option ρ} {trace : List (Option ρ)}

def start (hierarchy : Hierarchy ρ) (given : List ρ) : Expansion hierarchy :=
  ⟨given, ⟨[], {}⟩⟩

/-- The roles on the path are those on the stack, each of them once, at the depths from zero on and
each in the one above it. No role on the path is done, and the output lists all roles of both
sorts, each of them once. Without a stack there is no path. -/
structure Coherent (state : Expansion hierarchy) : Prop where
  active_eq : state.search.progress.active = state.search.stack.map Frame.role
  path_nodup : (state.search.stack.map Frame.role).Nodup
  depths_eq : state.search.stack.reverse.map Frame.depth = List.range state.search.stack.length
  linked : state.search.stack.IsChain fun above below =>
    above.role ∈ hierarchy.parents below.role
  disjoint : ∀ role ∈ state.search.progress.active, role ∉ state.search.progress.finished
  mem_output_iff : ∀ role, role ∈ state.search.progress.output ↔
    role ∈ state.search.progress.active ∨ role ∈ state.search.progress.finished
  output_nodup : state.search.progress.output.Nodup
  idle : state.search.stack = [] → state.search.progress.active = []

/-- The search keeps its invariant, and no role is taken up that was not given. -/
structure Sound (given : List ρ) (limit : Nat) (state : Expansion hierarchy) : Prop where
  waiting_subset : state.waiting ⊆ given
  invariant : state.search.Invariant given limit

theorem sound_start (hierarchy : Hierarchy ρ) (given : List ρ) (limit : Nat) :
    (start hierarchy given).Sound given limit :=
  ⟨List.Subset.refl given, Progress.complete_start⟩

theorem Sound.coherent (h : state.Sound given limit) : state.Coherent where
  active_eq := h.invariant.active_eq
  path_nodup := h.invariant.active_eq ▸ h.invariant.active_nodup
  depths_eq := h.invariant.linked.depths_eq
  linked := h.invariant.linked.isChain
  disjoint := h.invariant.disjoint
  mem_output_iff := h.invariant.mem_output
  output_nodup := h.invariant.output_nodup
  idle hstack := by rw [h.invariant.active_eq, hstack, List.map_nil]

/-- The path has no more roles than there are, so no depth goes beyond their number. -/
theorem Sound.depth_lt [DecidableEq ρ] (h : state.Sound given limit) {frame : Frame hierarchy}
    (hframe : frame ∈ state.search.stack) :
    frame.depth < (given ++ hierarchy.roles).dedup.length := by
  have hdepth : frame.depth ∈ List.range state.search.stack.length := by
    rw [← h.invariant.linked.depths_eq]
    exact List.mem_map_of_mem (List.mem_reverse.mpr hframe)
  have hpath : state.search.stack.map Frame.role ⊆ (given ++ hierarchy.roles).dedup := by
    intro role hrole
    have hactive : role ∈ state.search.progress.active := h.coherent.active_eq ▸ hrole
    have houtput := (h.invariant.mem_output role).mpr (Or.inl hactive)
    exact List.mem_dedup.mpr (h.invariant.output_subset houtput)
  have hle := (h.coherent.path_nodup.subperm hpath).length_le
  rw [List.length_map] at hle
  exact Nat.lt_of_lt_of_le (List.mem_range.mp hdepth) hle

variable [DecidableEq ρ]

/-- One step, with the role whose parents it asks for, if it asks for any. -/
inductive Step (limit : Nat) : Expansion hierarchy → Option ρ → Expansion hierarchy → Prop where
  | pass {role : ρ} {waiting : List ρ} {progress : Progress ρ}
      (hdone : role ∈ progress.finished) :
      Step limit ⟨role :: waiting, ⟨[], progress⟩⟩ none ⟨waiting, ⟨[], progress⟩⟩
  | take {role : ρ} {waiting : List ρ} {progress : Progress ρ}
      (hnew : role ∉ progress.finished) :
      Step limit ⟨role :: waiting, ⟨[], progress⟩⟩ (some role)
        ⟨waiting, ⟨[.enter hierarchy role 0], progress.enter role⟩⟩
  | leave {waiting : List ρ} {role : ρ} {depth : Nat} {subset : ∀ parent ∈ [], parent ∈ _}
      {stack : List (Frame hierarchy)} {progress : Progress ρ} :
      Step limit ⟨waiting, ⟨⟨role, depth, [], subset⟩ :: stack, progress⟩⟩ none
        ⟨waiting, ⟨stack, progress.finish role⟩⟩
  | skip {waiting : List ρ} {role parent : ρ} {depth : Nat} {rest : List ρ}
      {subset : ∀ other ∈ parent :: rest, other ∈ _} {subset' : ∀ other ∈ rest, other ∈ _}
      {stack : List (Frame hierarchy)} {progress : Progress ρ} (hlimit : depth + 1 ≤ limit)
      (hactive : parent ∉ progress.active) (hdone : parent ∈ progress.finished) :
      Step limit ⟨waiting, ⟨⟨role, depth, parent :: rest, subset⟩ :: stack, progress⟩⟩ none
        ⟨waiting, ⟨⟨role, depth, rest, subset'⟩ :: stack, progress⟩⟩
  | enter {waiting : List ρ} {role parent : ρ} {depth : Nat} {rest : List ρ}
      {subset : ∀ other ∈ parent :: rest, other ∈ _} {subset' : ∀ other ∈ rest, other ∈ _}
      {stack : List (Frame hierarchy)} {progress : Progress ρ} (hlimit : depth + 1 ≤ limit)
      (hactive : parent ∉ progress.active) (hnew : parent ∉ progress.finished) :
      Step limit ⟨waiting, ⟨⟨role, depth, parent :: rest, subset⟩ :: stack, progress⟩⟩
        (some parent)
        ⟨waiting, ⟨.enter hierarchy parent (depth + 1) :: ⟨role, depth, rest, subset'⟩ :: stack,
          progress.enter parent⟩⟩

inductive Steps (limit : Nat) :
    Expansion hierarchy → List (Option ρ) → Expansion hierarchy → Prop where
  | nil (state : Expansion hierarchy) : Steps limit state [] state
  | cons {state middle after : Expansion hierarchy} {asked : Option ρ} {trace : List (Option ρ)}
      (first : Step limit state asked middle) (rest : Steps limit middle trace after) :
      Steps limit state (asked :: trace) after

/-- No step is left, and this is what the expansion has come to. -/
inductive Ends (limit : Nat) : Expansion hierarchy → Except (Fault ρ) (List ρ) → Prop where
  | done (progress : Progress ρ) : Ends limit ⟨[], ⟨[], progress⟩⟩ (.ok progress.output)
  | tooDeep {waiting : List ρ} {role parent : ρ} {depth : Nat} {rest : List ρ}
      {subset : ∀ other ∈ parent :: rest, other ∈ _} {stack : List (Frame hierarchy)}
      {progress : Progress ρ} (hlimit : limit < depth + 1) :
      Ends limit ⟨waiting, ⟨⟨role, depth, parent :: rest, subset⟩ :: stack, progress⟩⟩
        (.error (.tooDeep parent))
  | cycle {waiting : List ρ} {role parent : ρ} {depth : Nat} {rest : List ρ}
      {subset : ∀ other ∈ parent :: rest, other ∈ _} {stack : List (Frame hierarchy)}
      {progress : Progress ρ} (hlimit : depth + 1 ≤ limit) (hactive : parent ∈ progress.active) :
      Ends limit ⟨waiting, ⟨⟨role, depth, parent :: rest, subset⟩ :: stack, progress⟩⟩
        (.error (.cycle parent))

theorem Steps.trans {middle : Expansion hierarchy} {trace' : List (Option ρ)}
    (h : Steps limit state trace middle) (h' : Steps limit middle trace' after) :
    Steps limit state (trace ++ trace') after := by
  induction h with
  | nil state => exact h'
  | cons first rest ih => exact .cons first (ih h')

theorem Step.advance (h : Step limit state asked after) (hstack : state.search.stack ≠ []) :
    after.waiting = state.waiting ∧ state.search.advance limit = .next after.search := by
  cases h with
  | pass => exact (hstack rfl).elim
  | take => exact (hstack rfl).elim
  | leave => exact ⟨rfl, rfl⟩
  | skip hlimit hactive hdone =>
      refine ⟨rfl, ?_⟩
      rw [SearchState.advance, if_neg (by omega), if_neg hactive, if_pos hdone]
  | enter hlimit hactive hnew =>
      refine ⟨rfl, ?_⟩
      rw [SearchState.advance, if_neg (by omega), if_neg hactive, if_neg hnew]

theorem exists_step_of_next (waiting : List ρ) {search search' : SearchState hierarchy}
    (hstep : search.advance limit = .next search') :
    ∃ asked, Step limit ⟨waiting, search⟩ asked ⟨waiting, search'⟩ := by
  match search with
  | ⟨[], _⟩ => exact nomatch hstep
  | ⟨⟨role, depth, [], subset⟩ :: stack, progress⟩ =>
      cases hstep
      exact ⟨none, .leave⟩
  | ⟨⟨role, depth, parent :: rest, subset⟩ :: stack, progress⟩ =>
      simp only [SearchState.advance] at hstep
      split at hstep
      · cases hstep
      · next hlimit =>
          split at hstep
          · cases hstep
          · next hactive =>
              split at hstep
              · next hdone =>
                  cases hstep
                  exact ⟨none, .skip (by omega) hactive hdone⟩
              · next hnew =>
                  cases hstep
                  exact ⟨some parent, .enter (by omega) hactive hnew⟩

theorem ends_of_fail {waiting : List ρ} {search : SearchState hierarchy} {fault : Fault ρ}
    (hstep : search.advance limit = .fail fault) :
    Ends limit ⟨waiting, search⟩ (.error fault) := by
  match search with
  | ⟨[], _⟩ => exact nomatch hstep
  | ⟨⟨role, depth, [], subset⟩ :: stack, progress⟩ => exact nomatch hstep
  | ⟨⟨role, depth, parent :: rest, subset⟩ :: stack, progress⟩ =>
      simp only [SearchState.advance] at hstep
      split at hstep
      · next hlimit =>
          cases hstep
          exact .tooDeep hlimit
      · next hlimit =>
          split at hstep
          · next hactive =>
              cases hstep
              exact .cycle (by omega) hactive
          · split at hstep <;> cases hstep

/-! ## The end -/

def result (limit : Nat) (state : Expansion hierarchy) : Except (Fault ρ) (List ρ) :=
  match state.search.run limit with
  | .ok progress => (hierarchy.expandAll limit state.waiting progress).map Progress.output
  | .error fault => .error fault

theorem result_start (hierarchy : Hierarchy ρ) (limit : Nat) (given : List ρ) :
    (start hierarchy given).result limit = hierarchy.expand limit given := by
  rw [result, start, SearchState.run_of_done rfl]
  rfl

theorem Step.result_eq (h : Step limit state asked after) :
    after.result limit = state.result limit := by
  by_cases hstack : state.search.stack = []
  · cases h with
    | pass hdone =>
        unfold result
        rw [SearchState.run_of_done rfl]
        simp only [expandAll, if_pos hdone]
    | @take role waiting progress hnew =>
        have hrun : SearchState.run limit (⟨[], progress⟩ : SearchState hierarchy) =
            .ok progress := SearchState.run_of_done rfl
        have hfrom : SearchState.run limit ⟨[.enter hierarchy role 0], progress.enter role⟩ =
            hierarchy.expandFrom limit role progress := rfl
        simp only [result, hrun, hfrom, expandAll, if_neg hnew]
        cases hierarchy.expandFrom limit role progress <;> rfl
    | leave => cases hstack
    | skip => cases hstack
    | enter => cases hstack
  · obtain ⟨hwaiting, hnext⟩ := h.advance hstack
    rw [result, result, SearchState.run_of_next hnext, hwaiting]

theorem Steps.result_eq (h : Steps limit state trace after) :
    after.result limit = state.result limit := by
  induction h with
  | nil state => rfl
  | cons first rest ih => exact ih.trans first.result_eq

/-- The search from one given role takes its steps until it has left that role, or ends the whole
expansion. -/
theorem exists_steps_of_run (limit : Nat) (waiting : List ρ) (search : SearchState hierarchy) :
    ∃ trace last, Steps limit ⟨waiting, search⟩ trace last ∧
      ((∃ progress, last = ⟨waiting, ⟨[], progress⟩⟩) ∨
        ∃ fault, last.Ends limit (.error fault)) := by
  fun_induction SearchState.run limit search with
  | case1 search hstep =>
      refine ⟨[], ⟨waiting, search⟩, .nil _, Or.inl ⟨search.progress, ?_⟩⟩
      rw [← SearchState.stack_eq_nil_of_done hstep]
  | case2 search fault hstep =>
      exact ⟨[], ⟨waiting, search⟩, .nil _, Or.inr ⟨fault, ends_of_fail hstep⟩⟩
  | case3 search next hstep ih =>
      obtain ⟨asked, hfirst⟩ := exists_step_of_next waiting hstep
      obtain ⟨trace, last, hrest, hlast⟩ := ih
      exact ⟨asked :: trace, last, .cons hfirst hrest, hlast⟩

theorem Ends.advance_eq {fault : Fault ρ} (h : state.Ends limit (.error fault)) :
    state.search.advance limit = .fail fault := by
  cases h with
  | tooDeep hlimit => rw [SearchState.advance, if_pos hlimit]
  | cycle hlimit hactive => rw [SearchState.advance, if_neg (by omega), if_pos hactive]

theorem Ends.result_eq {outcome : Except (Fault ρ) (List ρ)} (h : state.Ends limit outcome) :
    state.result limit = outcome := by
  cases outcome with
  | error fault => rw [result, SearchState.run_of_fail h.advance_eq]
  | ok roles =>
      cases h with
      | done progress =>
          rw [result, SearchState.run_of_done rfl]
          rfl

theorem exists_ends (limit : Nat) (waiting : List ρ) (search : SearchState hierarchy) :
    ∃ trace last outcome, Steps limit ⟨waiting, search⟩ trace last ∧ last.Ends limit outcome := by
  -- on what waits: the search from one role either clears the stack or ends everything
  induction waiting generalizing search with
  | nil =>
      obtain ⟨trace, last, hsteps, ⟨progress, rfl⟩ | ⟨fault, hends⟩⟩ :=
        exists_steps_of_run limit [] search
      · exact ⟨trace, _, _, hsteps, .done progress⟩
      · exact ⟨trace, last, _, hsteps, hends⟩
  | cons role rest ih =>
      obtain ⟨trace, last, hsteps, ⟨progress, rfl⟩ | ⟨fault, hends⟩⟩ :=
        exists_steps_of_run limit (role :: rest) search
      · by_cases hdone : role ∈ progress.finished
        · obtain ⟨more, last, outcome, hmore, hends⟩ := ih ⟨[], progress⟩
          exact ⟨_, last, outcome, hsteps.trans (.cons (.pass hdone) hmore), hends⟩
        · obtain ⟨more, last, outcome, hmore, hends⟩ :=
            ih ⟨[.enter hierarchy role 0], progress.enter role⟩
          exact ⟨_, last, outcome, hsteps.trans (.cons (.take hdone) hmore), hends⟩
      · exact ⟨trace, last, _, hsteps, hends⟩

/-- From every state some steps lead to an end, and the end is the result. -/
theorem exists_ends_result (limit : Nat) (state : Expansion hierarchy) :
    ∃ trace last, Steps limit state trace last ∧ last.Ends limit (state.result limit) := by
  obtain ⟨trace, last, outcome, hsteps, hends⟩ := exists_ends limit state.waiting state.search
  refine ⟨trace, last, hsteps, ?_⟩
  rw [← hsteps.result_eq, hends.result_eq]
  exact hends

/-! ## What steps keep -/

theorem Step.sound (h : Step limit state asked after) (hsound : state.Sound given limit) :
    after.Sound given limit := by
  by_cases hstack : state.search.stack = []
  · cases h with
    | pass hdone =>
        exact ⟨List.subset_of_cons_subset hsound.waiting_subset, hsound.invariant⟩
    | take hnew =>
        have hgiven := hsound.waiting_subset List.mem_cons_self
        exact ⟨List.subset_of_cons_subset hsound.waiting_subset,
          Progress.Complete.enter hsound.invariant hgiven hnew⟩
    | leave => cases hstack
    | skip => cases hstack
    | enter => cases hstack
  · obtain ⟨hwaiting, hnext⟩ := h.advance hstack
    refine ⟨?_, hsound.invariant.advance hnext⟩
    rw [hwaiting]
    exact hsound.waiting_subset

theorem Steps.sound (h : Steps limit state trace after) (hsound : state.Sound given limit) :
    after.Sound given limit := by
  induction h with
  | nil state => exact hsound
  | cons first rest ih => exact ih (first.sound hsound)

theorem Step.output_eq (h : Step limit state asked after) :
    after.search.progress.output = state.search.progress.output ++ asked.toList := by
  cases h with
  | pass => exact (List.append_nil _).symm
  | take => rfl
  | leave => exact (List.append_nil _).symm
  | skip => exact (List.append_nil _).symm
  | enter => rfl

/-- The output grows by the roles that are asked for. -/
theorem Steps.output_eq (h : Steps limit state trace after) :
    after.search.progress.output = state.search.progress.output ++ trace.reduceOption := by
  induction h with
  | nil state => exact (List.append_nil _).symm
  | @cons state middle after asked trace first rest ih =>
      rw [ih, first.output_eq, List.append_assoc]
      cases asked <;> rfl

/-! ## How many steps there are -/

theorem Step.length_add (h : Step limit state asked after) :
    after.waiting.length + after.search.weight + 1 =
      state.waiting.length + state.search.weight + hierarchy.work asked.toList := by
  cases h <;> simp [SearchState.weight, SearchState.stackWeight, Frame.enter, work] <;> omega

/-- Every step uses up a given role, a frame or a waiting parent. -/
theorem Steps.length_add (h : Steps limit state trace after) :
    after.waiting.length + after.search.weight + trace.length =
      state.waiting.length + state.search.weight + hierarchy.work trace.reduceOption := by
  induction h with
  | nil state => rfl
  | @cons state middle after asked trace first rest ih =>
      have hfirst := first.length_add
      have hwork : hierarchy.work (asked :: trace).reduceOption =
          hierarchy.work asked.toList + hierarchy.work trace.reduceOption := by
        cases asked <;> simp [work, List.reduceOption]
      rw [List.length_cons, hwork]
      omega

theorem Steps.length_le (h : Steps limit (start hierarchy given) trace state) :
    trace.length ≤ given.length + hierarchy.work (given ++ hierarchy.roles).dedup := by
  have hsound := h.sound (sound_start hierarchy given limit)
  have houtput : state.search.progress.output = trace.reduceOption := h.output_eq
  have hwork : hierarchy.work trace.reduceOption ≤
      hierarchy.work (given ++ hierarchy.roles).dedup := by
    rw [← houtput]
    exact work_le_of_subset hsound.invariant.output_nodup hsound.invariant.output_subset
  have hlength : state.waiting.length + state.search.weight + trace.length =
      given.length + 0 + hierarchy.work trace.reduceOption := h.length_add
  omega

end Expansion

end Hierarchy

open Hierarchy (Expansion)

/-- However the memberships of a snapshot run and whatever the limit, every expansion ends. Whatever
state it has come to, it has taken no more steps than to take up each given role, to look once at
every parent of each role and to leave each role; and some steps lead on from there to the end,
which is the answer. In every such state the stack is a path through the memberships that agrees
with the active, the finished and the listed roles (`Coherent`). The roles whose parents were asked
for are those listed, in the same order, so none is asked for twice. No depth on the path is beyond
the limit, nor as much as the number of roles. -/
theorem Snapshot.expansion_terminates (snapshot : Snapshot) (limit : Nat)
    (given : List RoleSubject) (trace : List (Option RoleSubject))
    (state : Expansion snapshot.hierarchy)
    (hsteps : Expansion.Steps limit (.start snapshot.hierarchy given) trace state) :
    trace.length ≤
      given.length + snapshot.hierarchy.work (given ++ snapshot.hierarchy.roles).dedup ∧
    (∃ more last, Expansion.Steps limit state more last ∧
      last.Ends limit (snapshot.hierarchy.expand limit given)) ∧
    state.Coherent ∧
    (state.search.stack.IsChain fun above below =>
      snapshot.rules.HasGrouping ⟨.role below.role, above.role⟩) ∧
    trace.reduceOption = state.search.progress.output ∧
    ∀ frame ∈ state.search.stack, frame.depth ≤ limit ∧
      frame.depth < (given ++ snapshot.hierarchy.roles).dedup.length := by
  have hsound := hsteps.sound (Expansion.sound_start snapshot.hierarchy given limit)
  refine ⟨hsteps.length_le, ?_, hsound.coherent, hsound.coherent.linked, hsteps.output_eq.symm,
    fun frame hframe => ⟨hsound.invariant.depth_le frame hframe, hsound.depth_lt hframe⟩⟩
  obtain ⟨more, last, hmore, hends⟩ := Expansion.exists_ends_result limit state
  rw [hsteps.result_eq, Expansion.result_start] at hends
  exact ⟨more, last, hmore, hends⟩

theorem Snapshot.expansion_terminates_on_circle :
    let view : RoleSubject := ⟨.view, .every⟩
    let admin : RoleSubject := ⟨.admin, .every⟩
    let line : RuleSet := (RuleSet.empty.addGrouping ⟨.role view, admin⟩).2
    let circle : Snapshot := ⟨1, (line.addGrouping ⟨.role admin, view⟩).2⟩
    let limit : Nat := 18446744073709551615
    ∃ trace last, Expansion.Steps limit (.start circle.hierarchy [view]) trace last ∧
      last.Ends limit (.error (.cycle view)) ∧ trace.length ≤ 5 ∧ last.Coherent := by
  intro view admin line circle limit
  have hstart := expansion_terminates circle limit [view] [] (.start circle.hierarchy [view])
    (.nil _)
  obtain ⟨trace, last, hsteps, hends⟩ := hstart.2.1
  have hcycle : circle.hierarchy.expand limit [view] = .error (.cycle view) := by
    dsimp only [circle, line, admin, view, limit]
    cbv
  have hbound : 1 + circle.hierarchy.work ([view] ++ circle.hierarchy.roles).dedup = 5 := by
    decide
  rw [hcycle] at hends
  have hlast := expansion_terminates circle limit [view] trace last hsteps
  exact ⟨trace, last, hsteps, hends, hlast.1.trans (Nat.le_of_eq hbound), hlast.2.2.1⟩

end ScopedAccess
