import ScopedAccess.Proofs.Hierarchy.SearchInvariant

/-!
# What an expansion finds

An expansion that ends well lists exactly the roles that the given roles reach (`mem_expand_iff`).
In another order of the roles and of their parents it finds the same roles or breaks the limit
(`expand_reordered`).
-/

namespace ScopedAccess

/-! ## Roles in reach -/

namespace Hierarchy

variable {ρ : Type} {hierarchy : Hierarchy ρ} {given : List ρ} {limit : Nat}

/-! ## One given role after the other -/

theorem Progress.complete_start : Progress.Complete hierarchy given limit {} := by
  constructor <;> simp [Linked, Explored, Grounded]

theorem Progress.Complete.invariant {progress : Progress ρ}
    (h : progress.Complete hierarchy given limit) :
    SearchState.Invariant given limit (⟨[], progress⟩ : SearchState hierarchy) :=
  h

theorem Progress.Complete.active_eq_nil {progress : Progress ρ}
    (h : progress.Complete hierarchy given limit) : progress.active = [] :=
  h.invariant.active_eq

theorem Progress.Complete.mem_output_iff {progress : Progress ρ}
    (h : progress.Complete hierarchy given limit) {role : ρ} :
    role ∈ progress.output ↔ role ∈ progress.finished := by
  have hmem := h.invariant.mem_output role
  simpa [h.active_eq_nil] using hmem

theorem Progress.Complete.enter {progress : Progress ρ}
    (h : progress.Complete hierarchy given limit) {role : ρ} (hgiven : role ∈ given)
    (hnew : role ∉ progress.finished) :
    SearchState.Invariant given limit ⟨[.enter hierarchy role 0], progress.enter role⟩ := by
  have hactive : progress.active = [] := h.active_eq_nil
  have houtput : role ∉ progress.output := fun hmem => hnew (h.mem_output_iff.mp hmem)
  constructor
  case active_eq => simp [Progress.enter, Frame.enter, hactive]
  case active_nodup => simp [Progress.enter, hactive]
  case finished_nodup => exact h.invariant.finished_nodup
  case disjoint => simpa [Progress.enter, hactive] using hnew
  case linked => exact ⟨hgiven, rfl⟩
  case depth_le => simp [Frame.enter]
  case pending_suffix => simp [Frame.enter]
  case explored => exact ⟨fun parent member => Or.inl member, trivial⟩
  case grounded => exact h.invariant.grounded
  case reached => exact h.invariant.reached
  case output_nodup =>
    refine List.nodup_append.mpr ⟨h.invariant.output_nodup, by simp, ?_⟩
    intro a ha b hb heq
    rw [List.mem_singleton] at hb
    exact houtput (hb ▸ heq ▸ ha)
  case mem_output =>
    intro other
    have hmem : other ∈ progress.output ↔ other ∈ progress.finished := h.mem_output_iff
    simp only [Progress.enter, hactive, List.mem_append, List.mem_singleton, hmem]
    grind

variable [DecidableEq ρ]

theorem expandFrom_ok {progress after : Progress ρ} {role : ρ}
    (h : progress.Complete hierarchy given limit) (hgiven : role ∈ given)
    (hnew : role ∉ progress.finished)
    (hrun : hierarchy.expandFrom limit role progress = .ok after) :
    after.Complete hierarchy given limit ∧ role ∈ after.finished ∧
      ∀ other ∈ progress.finished, other ∈ after.finished := by
  obtain ⟨hcomplete, hkept⟩ := SearchState.run_ok (h.enter hgiven hnew) hrun
  refine ⟨hcomplete, ?_, fun other hother => ?_⟩
  · have hentered : role ∈ (progress.enter role).output := by simp [Progress.enter]
    exact hcomplete.mem_output_iff.mp (hkept role hentered)
  · have houtput : other ∈ (progress.enter role).output :=
      List.mem_append_left _ (h.mem_output_iff.mpr hother)
    exact hcomplete.mem_output_iff.mp (hkept other houtput)

theorem expandAll_ok {roles : List ρ} {progress after : Progress ρ}
    (h : progress.Complete hierarchy given limit) (hgiven : ∀ role ∈ roles, role ∈ given)
    (hrun : hierarchy.expandAll limit roles progress = .ok after) :
    after.Complete hierarchy given limit ∧ (∀ role ∈ roles, role ∈ after.finished) ∧
      ∀ other ∈ progress.finished, other ∈ after.finished := by
  induction roles generalizing progress with
  | nil =>
      cases hrun
      exact ⟨h, by simp, fun other hother => hother⟩
  | cons role rest ih =>
      have hrest : ∀ other ∈ rest, other ∈ given :=
        fun other hmem => hgiven other (List.mem_cons_of_mem _ hmem)
      unfold expandAll at hrun
      split at hrun
      · next hdone =>
          -- a role that is done already stays done
          obtain ⟨hcomplete, hall, hkept⟩ := ih h hrest hrun
          refine ⟨hcomplete, fun other hmem => ?_, hkept⟩
          rcases List.mem_cons.mp hmem with rfl | hmem
          · exact hkept other hdone
          · exact hall other hmem
      · next hnew =>
          split at hrun
          · next middle hfrom =>
              obtain ⟨hmiddle, hrole, hsame⟩ :=
                expandFrom_ok h (hgiven role List.mem_cons_self) hnew hfrom
              obtain ⟨hcomplete, hall, hkept⟩ := ih hmiddle hrest hrun
              refine ⟨hcomplete, fun other hmem => ?_, fun other hmem => ?_⟩
              · rcases List.mem_cons.mp hmem with rfl | hmem
                · exact hkept other hrole
                · exact hall other hmem
              · exact hkept other (hsame other hmem)
          · exact nomatch hrun

theorem expandAll_error {roles : List ρ} {progress : Progress ρ} {fault : Fault ρ}
    (h : progress.Complete hierarchy given limit) (hgiven : ∀ role ∈ roles, role ∈ given)
    (hrun : hierarchy.expandAll limit roles progress = .error fault) :
    fault.Truthful hierarchy given limit := by
  induction roles generalizing progress with
  | nil => exact nomatch hrun
  | cons role rest ih =>
      have hrest : ∀ other ∈ rest, other ∈ given :=
        fun other hmem => hgiven other (List.mem_cons_of_mem _ hmem)
      unfold expandAll at hrun
      split at hrun
      · exact ih h hrest hrun
      · next hnew =>
          split at hrun
          · next middle hfrom =>
              exact ih (expandFrom_ok h (hgiven role List.mem_cons_self) hnew hfrom).1 hrest hrun
          · next other hfrom =>
              cases hrun
              exact SearchState.run_error (h.enter (hgiven role List.mem_cons_self) hnew) hfrom

/-! ## The whole expansion -/

theorem exists_complete_of_expand {output : List ρ}
    (hrun : hierarchy.expand limit given = .ok output) :
    ∃ progress : Progress ρ, progress.Complete hierarchy given limit ∧
      (∀ role ∈ given, role ∈ progress.finished) ∧ progress.output = output := by
  unfold expand at hrun
  cases hall : hierarchy.expandAll limit given {} with
  | error fault =>
      rw [hall] at hrun
      exact nomatch hrun
  | ok progress =>
      rw [hall] at hrun
      cases hrun
      obtain ⟨hcomplete, hdone, -⟩ :=
        expandAll_ok Progress.complete_start (fun role hrole => hrole) hall
      exact ⟨progress, hcomplete, hdone, rfl⟩

theorem truthful_of_expand {fault : Fault ρ} (hrun : hierarchy.expand limit given = .error fault) :
    fault.Truthful hierarchy given limit := by
  unfold expand at hrun
  cases hall : hierarchy.expandAll limit given {} with
  | error other =>
      rw [hall] at hrun
      cases hrun
      exact expandAll_error Progress.complete_start (fun role hrole => hrole) hall
  | ok progress =>
      rw [hall] at hrun
      exact nomatch hrun

/-- No role in reach is missed, and none is invented. -/
theorem mem_expand_iff {output : List ρ} (hrun : hierarchy.expand limit given = .ok output)
    {role : ρ} : role ∈ output ↔ hierarchy.ReachedFrom given role := by
  obtain ⟨progress, hcomplete, hdone, rfl⟩ := exists_complete_of_expand hrun
  rw [hcomplete.mem_output_iff]
  constructor
  · exact hcomplete.invariant.reached role
  · rintro ⟨first, hfirst, hreaches⟩
    have hgrounded : hierarchy.Grounded progress.finished :=
      hcomplete.invariant.grounded
    exact hgrounded.mem_of_reaches hreaches (hdone first hfirst)

theorem not_onCycle_of_expand {output : List ρ}
    (hrun : hierarchy.expand limit given = .ok output) {role : ρ}
    (hrole : hierarchy.ReachedFrom given role) : ¬ hierarchy.OnCycle role := by
  have hmem : role ∈ output := (mem_expand_iff hrun).mpr hrole
  obtain ⟨progress, hcomplete, -, rfl⟩ := exists_complete_of_expand hrun
  have hgrounded : hierarchy.Grounded progress.finished :=
    hcomplete.invariant.grounded
  exact hgrounded.not_onCycle hcomplete.invariant.finished_nodup
    (hcomplete.mem_output_iff.mp hmem)

theorem expand_ok_of_bounded
    (hcycle : ∀ role, hierarchy.ReachedFrom given role → ¬ hierarchy.OnCycle role)
    (hdepth : ∀ first ∈ given, ∀ last, ¬ hierarchy.Chain first (limit + 1) last) :
    ∃ output, hierarchy.expand limit given = .ok output := by
  cases hrun : hierarchy.expand limit given with
  | ok output => exact ⟨output, rfl⟩
  | error fault =>
      have htruthful := truthful_of_expand hrun
      cases fault with
      | cycle role => exact (hcycle role htruthful.1 htruthful.2).elim
      | tooDeep role =>
          obtain ⟨first, hfirst, hchain⟩ := htruthful
          exact (hdepth first hfirst role hchain).elim

end Hierarchy

/-! ## Other orders -/

namespace Hierarchy

variable {ρ : Type}

/-! ## The same memberships -/

/-- The memberships are the same, in whatever order. -/
def SameParents (hierarchy other : Hierarchy ρ) : Prop :=
  ∀ role parent, parent ∈ hierarchy.parents role ↔ parent ∈ other.parents role

section SameParents

variable {hierarchy other : Hierarchy ρ}

theorem SameParents.symm (h : hierarchy.SameParents other) : other.SameParents hierarchy :=
  fun role parent => (h role parent).symm

theorem SameParents.chain (h : hierarchy.SameParents other) {first last : ρ} {links : Nat}
    (hchain : hierarchy.Chain first links last) : other.Chain first links last := by
  induction hchain with
  | self role => exact .self role
  | step member rest ih => exact .step ((h _ _).mp member) ih

theorem SameParents.reaches (h : hierarchy.SameParents other) {first last : ρ}
    (hreaches : hierarchy.Reaches first last) : other.Reaches first last := by
  obtain ⟨links, hchain⟩ := hreaches
  exact ⟨links, h.chain hchain⟩

theorem SameParents.onCycle (h : hierarchy.SameParents other) {role : ρ}
    (hcycle : hierarchy.OnCycle role) : other.OnCycle role := by
  obtain ⟨parent, member, hreaches⟩ := hcycle
  exact ⟨parent, (h role parent).mp member, h.reaches hreaches⟩

theorem SameParents.reachedFrom (h : hierarchy.SameParents other) {given given' : List ρ}
    (hgiven : ∀ role, role ∈ given ↔ role ∈ given') {role : ρ}
    (hreached : hierarchy.ReachedFrom given role) : other.ReachedFrom given' role := by
  obtain ⟨first, hfirst, hreaches⟩ := hreached
  exact ⟨first, (hgiven first).mp hfirst, h.reaches hreaches⟩

/-- Another order finds the same roles, or it finds a chain too long. -/
theorem expand_reordered [DecidableEq ρ] (h : hierarchy.SameParents other) {limit : Nat}
    {given given' output : List ρ} (hgiven : ∀ role, role ∈ given ↔ role ∈ given')
    (hrun : hierarchy.expand limit given = .ok output) :
    (∃ output', other.expand limit given' = .ok output' ∧
      ∀ role, role ∈ output' ↔ role ∈ output) ∨
    ∃ role, other.expand limit given' = .error (.tooDeep role) ∧
      ∃ first ∈ given, hierarchy.Chain first (limit + 1) role := by
  have hgiven' : ∀ role, role ∈ given' ↔ role ∈ given := fun role => (hgiven role).symm
  cases hother : other.expand limit given' with
  | ok output' =>
      have hsame : ∀ role, role ∈ output' ↔ role ∈ output := by
        intro role
        rw [mem_expand_iff hother, mem_expand_iff hrun]
        exact ⟨h.symm.reachedFrom hgiven', h.reachedFrom hgiven⟩
      exact Or.inl ⟨output', rfl, hsame⟩
  | error fault =>
      have htruthful := truthful_of_expand hother
      cases fault with
      | cycle role =>
          obtain ⟨hreached, hcycle⟩ := htruthful
          have hnot : ¬ hierarchy.OnCycle role :=
            not_onCycle_of_expand hrun (h.symm.reachedFrom hgiven' hreached)
          exact (hnot (h.symm.onCycle hcycle)).elim
      | tooDeep role =>
          obtain ⟨first, hfirst, hchain⟩ := htruthful
          exact Or.inr ⟨role, rfl, first, (hgiven' first).mp hfirst, h.symm.chain hchain⟩

end SameParents

/-! ## Looking along a chain first -/

variable {hierarchy : Hierarchy ρ}

/-- Every role of the path is the first parent that the one before it lists. -/
def Leads (hierarchy : Hierarchy ρ) : ρ → List ρ → Prop
  | _, [] => True
  | role, parent :: rest =>
      (∃ others, hierarchy.parents role = parent :: others) ∧ Leads hierarchy parent rest

section Leads

variable [DecidableEq ρ] {limit : Nat}

/-- Before any role is finished, a search that is led beyond the limit goes there and fails. -/
theorem SearchState.run_error_of_leads {path : List ρ} {role : ρ} {depth : Nat}
    {stack : List (Frame hierarchy)} {progress : Progress ρ}
    (hleads : hierarchy.Leads role path) (hlong : limit < depth + path.length)
    (hdepth : depth ≤ limit) (hfinished : progress.finished = []) :
    ∃ fault, SearchState.run limit ⟨.enter hierarchy role depth :: stack, progress⟩ =
      .error fault := by
  induction path generalizing role depth stack progress with
  | nil =>
      simp only [List.length_nil] at hlong
      omega
  | cons parent rest ih =>
      obtain ⟨⟨others, hparents⟩, hrest⟩ := hleads
      simp only [List.length_cons] at hlong
      have hsubset : ∀ other ∈ parent :: others, other ∈ hierarchy.roles :=
        hparents ▸ hierarchy.parents_subset role
      have henter : Frame.enter hierarchy role depth =
          ⟨role, depth, parent :: others, hsubset⟩ := by
        simp [Frame.enter, hparents]
      rw [henter]
      by_cases hlimit : limit < depth + 1
      · refine ⟨.tooDeep parent, ?_⟩
        apply run_of_fail
        simp only [advance, if_pos hlimit]
      · by_cases hactive : parent ∈ progress.active
        · refine ⟨.cycle parent, ?_⟩
          apply run_of_fail
          simp only [advance, if_neg hlimit, if_pos hactive]
        · -- nothing is finished, so the search cannot skip the parent and enters it
          have hnew : parent ∉ progress.finished := by simp [hfinished]
          have hrests : ∀ other ∈ others, other ∈ hierarchy.roles :=
            fun other hmem => hsubset other (List.mem_cons_of_mem _ hmem)
          obtain ⟨fault, hrun⟩ := @ih parent (depth + 1) (⟨role, depth, others, hrests⟩ :: stack)
            (progress.enter parent) hrest (by omega) (by omega) hfinished
          refine ⟨fault, (run_of_next ?_).trans hrun⟩
          simp only [advance, if_neg hlimit, if_neg hactive, if_neg hnew]

theorem expand_error_of_leads {first : ρ} {path : List ρ} (hleads : hierarchy.Leads first path)
    (hlong : limit < path.length) (rest : List ρ) :
    ∃ fault, hierarchy.expand limit (first :: rest) = .error fault := by
  have hlong' : limit < 0 + path.length := by omega
  have hnone : (Progress.enter {} first).finished = [] := rfl
  obtain ⟨fault, hrun⟩ := @SearchState.run_error_of_leads ρ hierarchy _ limit path first 0 []
    (Progress.enter {} first) hleads hlong' (Nat.zero_le limit) hnone
  have hfrom : hierarchy.expandFrom limit first {} = .error fault := hrun
  exact ⟨fault, by simp [expand, expandAll, hfrom, Except.map]⟩

end Leads

/-! ## Chains as paths -/

def Path (hierarchy : Hierarchy ρ) : ρ → List ρ → Prop
  | _, [] => True
  | role, parent :: rest => parent ∈ hierarchy.parents role ∧ Path hierarchy parent rest

theorem Chain.exists_path {first last : ρ} {links : Nat} (h : hierarchy.Chain first links last) :
    ∃ path, hierarchy.Path first path ∧ path.length = links := by
  induction h with
  | self role => exact ⟨[], trivial, rfl⟩
  | @step role parent last links member rest ih =>
      obtain ⟨path, hpath, hlength⟩ := ih
      exact ⟨parent :: path, ⟨member, hpath⟩, by rw [List.length_cons, hlength]⟩

theorem Path.reaches {first : ρ} {path : List ρ} (h : hierarchy.Path first path) :
    ∀ role ∈ path, hierarchy.Reaches first role := by
  induction path generalizing first with
  | nil => simp
  | cons parent rest ih =>
      intro role hrole
      rcases List.mem_cons.mp hrole with rfl | hrole
      · exact .step h.1 (.refl hierarchy role)
      · exact .step h.1 (ih h.2 role hrole)

/-- A path that meets no cycle passes through different roles. -/
theorem Path.nodup {first : ρ} {path : List ρ} (h : hierarchy.Path first path)
    (hcycle : ∀ role, hierarchy.Reaches first role → ¬ hierarchy.OnCycle role) :
    (first :: path).Nodup := by
  induction path generalizing first with
  | nil => simp
  | cons parent rest ih =>
      have hrest : (parent :: rest).Nodup :=
        ih h.2 fun role hreaches => hcycle role (.step h.1 hreaches)
      have hnot : first ∉ parent :: rest := by
        intro hmem
        have hback : hierarchy.Reaches parent first := by
          rcases List.mem_cons.mp hmem with heq | hmem
          · rw [heq]
            exact .refl hierarchy parent
          · exact h.2.reaches first hmem
        exact hcycle first (.refl hierarchy first) ⟨parent, h.1, hback⟩
      exact List.nodup_cons.mpr ⟨hnot, hrest⟩

end Hierarchy

end ScopedAccess
