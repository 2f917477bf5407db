import ScopedAccess.Proofs.Check.Meaning
import ScopedAccess.Proofs.Hierarchy.Expansion

/-!
# Rules added in another order

The order in which the same rules were added never turns one decision into another, but it can turn
a decision into the error that a chain of roles is too deep. `sameOutcome_iff` says exactly when.
-/

namespace ScopedAccess

/-! ## The same rules -/

namespace RuleSet

variable {rules other : RuleSet}

/-- The rules are the same, in whatever order. -/
structure SameRules (rules other : RuleSet) : Prop where
  policies : ∀ rule, rules.HasPolicy rule ↔ other.HasPolicy rule
  groupings : ∀ rule, rules.HasGrouping rule ↔ other.HasGrouping rule

theorem SameRules.symm (h : rules.SameRules other) : other.SameRules rules :=
  ⟨fun rule => (h.policies rule).symm, fun rule => (h.groupings rule).symm⟩

theorem SameRules.trans {last : RuleSet} (h : rules.SameRules other)
    (h' : other.SameRules last) : rules.SameRules last :=
  ⟨fun rule => (h.policies rule).trans (h'.policies rule),
    fun rule => (h.groupings rule).trans (h'.groupings rule)⟩

theorem SameRules.mem_rolesOf (h : rules.SameRules other) (member : Member) (role : RoleSubject) :
    role ∈ rules.rolesOf member ↔ role ∈ other.rolesOf member :=
  h.groupings ⟨member, role⟩

theorem mem_rulesOf_iff {role : RoleSubject} {rule : PolicyRule} :
    rule ∈ rules.rulesOf role ↔ rules.HasPolicy rule ∧ rule.subject = role := by
  constructor
  · intro hmem
    have hsubject : rule.subject = role := rules.subject_eq role rule hmem
    have hpolicy : rules.HasPolicy rule := by
      show rule ∈ rules.rulesOf rule.subject
      rw [hsubject]
      exact hmem
    exact ⟨hpolicy, hsubject⟩
  · rintro ⟨hpolicy, rfl⟩
    exact hpolicy

theorem SameRules.mem_rulesOf (h : rules.SameRules other) (role : RoleSubject)
    (rule : PolicyRule) : rule ∈ rules.rulesOf role ↔ rule ∈ other.rulesOf role := by
  rw [mem_rulesOf_iff, mem_rulesOf_iff, h.policies rule]

/-! ## Histories of additions -/

def additions (groupings : List GroupingRule) (policies : List PolicyRule) : List Change :=
  groupings.map .addGrouping ++ policies.map .addPolicy

theorem hasGrouping_addGrouping {added rule : GroupingRule} :
    (rules.addGrouping added).2.HasGrouping rule ↔ rules.HasGrouping rule ∨ rule = added := by
  unfold HasGrouping
  rw [rolesOf_addGrouping]
  have heq : rule = added ↔ rule.member = added.member ∧ rule.role = added.role := by
    cases rule
    cases added
    simp
  split
  · next hnew => simp [heq, hnew.1]
  · next hold =>
      constructor
      · exact Or.inl
      · rintro (hrule | rfl)
        · exact hrule
        · by_cases hthere : rules.HasGrouping rule
          · exact hthere
          · exact (hold ⟨rfl, hthere⟩).elim

theorem hasGrouping_removeGrouping {removed rule : GroupingRule} :
    (rules.removeGrouping removed).2.HasGrouping rule ↔
      rules.HasGrouping rule ∧ rule ≠ removed := by
  unfold HasGrouping
  rw [rolesOf_removeGrouping]
  have heq : rule = removed ↔ rule.member = removed.member ∧ rule.role = removed.role := by
    cases rule
    cases removed
    simp
  by_cases hmember : rule.member = removed.member
  · simp [heq, hmember]
  · simp [heq, hmember]

/-- A grouping rule that is removed and added again only comes later. -/
theorem sameRules_readd {rule : GroupingRule} (h : rules.HasGrouping rule) :
    ((rules.removeGrouping rule).2.addGrouping rule).2.SameRules rules := by
  constructor
  · intro policy
    exact Iff.rfl
  · intro other
    rw [hasGrouping_addGrouping, hasGrouping_removeGrouping]
    by_cases heq : other = rule
    · simp [heq, h]
    · simp [heq]

theorem hasPolicy_addPolicy {added rule : PolicyRule} :
    (rules.addPolicy added).2.HasPolicy rule ↔ rules.HasPolicy rule ∨ rule = added := by
  unfold HasPolicy
  rw [rulesOf_addPolicy]
  split
  · next hnew => simp
  · next hold =>
      constructor
      · exact Or.inl
      · rintro (hrule | rfl)
        · exact hrule
        · by_cases hthere : rules.HasPolicy rule
          · exact hthere
          · exact (hold ⟨rfl, hthere⟩).elim

theorem hasGrouping_replay {groupings : List GroupingRule} {rule : GroupingRule} :
    (rules.replay (groupings.map .addGrouping)).HasGrouping rule ↔
      rules.HasGrouping rule ∨ rule ∈ groupings := by
  induction groupings generalizing rules with
  | nil => simp
  | cons added rest ih =>
      rw [List.map_cons, replay_cons, ih, change, hasGrouping_addGrouping, List.mem_cons, or_assoc]

theorem hasPolicy_replay {policies : List PolicyRule} {rule : PolicyRule} :
    (rules.replay (policies.map .addPolicy)).HasPolicy rule ↔
      rules.HasPolicy rule ∨ rule ∈ policies := by
  induction policies generalizing rules with
  | nil => simp
  | cons added rest ih =>
      rw [List.map_cons, replay_cons, ih, change, hasPolicy_addPolicy, List.mem_cons, or_assoc]

@[simp] theorem rulesOf_replay_groupings (groupings : List GroupingRule) (role : RoleSubject) :
    (rules.replay (groupings.map .addGrouping)).rulesOf role = rules.rulesOf role := by
  induction groupings generalizing rules with
  | nil => rfl
  | cons added rest ih => rw [List.map_cons, replay_cons, ih, change, rulesOf_addGrouping]

@[simp] theorem rolesOf_replay_policies (policies : List PolicyRule) (member : Member) :
    (rules.replay (policies.map .addPolicy)).rolesOf member = rules.rolesOf member := by
  induction policies generalizing rules with
  | nil => rfl
  | cons added rest ih => rw [List.map_cons, replay_cons, ih, change, rolesOf_addPolicy]

theorem hasGrouping_additions {groupings : List GroupingRule} {policies : List PolicyRule}
    {rule : GroupingRule} :
    (empty.replay (additions groupings policies)).HasGrouping rule ↔ rule ∈ groupings := by
  have hgroupings := @hasGrouping_replay empty groupings rule
  unfold HasGrouping at hgroupings ⊢
  rw [additions, replay_append, rolesOf_replay_policies, hgroupings]
  simp

theorem hasPolicy_additions {groupings : List GroupingRule} {policies : List PolicyRule}
    {rule : PolicyRule} :
    (empty.replay (additions groupings policies)).HasPolicy rule ↔ rule ∈ policies := by
  rw [additions, replay_append, hasPolicy_replay]
  unfold HasPolicy
  rw [rulesOf_replay_groupings]
  simp

theorem head?_rolesOf_replay (groupings : List GroupingRule) (member : Member) :
    ((rules.replay (groupings.map .addGrouping)).rolesOf member).head? =
      (rules.rolesOf member).head?.or
        ((groupings.find? fun rule => rule.member = member).map GroupingRule.role) := by
  induction groupings generalizing rules with
  | nil => simp
  | cons added rest ih =>
      rw [List.map_cons, replay_cons, ih, change, rolesOf_addGrouping]
      by_cases hmember : added.member = member
      · subst hmember
        rw [List.find?_cons_of_pos (by simp)]
        cases hroles : rules.rolesOf added.member with
        | nil => simp [HasGrouping, hroles]
        | cons first others => split <;> simp
      · rw [List.find?_cons_of_neg (by simpa using hmember),
          if_neg fun hnew => hmember hnew.1.symm]

def groupingList (rules : RuleSet) : List GroupingRule :=
  rules.groupings.toList.map fun pair => ⟨pair.1, pair.2⟩

def policyList (rules : RuleSet) : List PolicyRule :=
  rules.policies.toList.map Prod.snd

theorem mem_groupingList {rule : GroupingRule} :
    rule ∈ rules.groupingList ↔ rules.HasGrouping rule := by
  rw [groupingList, List.mem_map]
  constructor
  · rintro ⟨⟨member, role⟩, hmem, rfl⟩
    exact Index.mem_toList.mp hmem
  · exact fun hgrouping => ⟨(rule.member, rule.role), Index.mem_toList.mpr hgrouping, rfl⟩

theorem mem_policyList {rule : PolicyRule} :
    rule ∈ rules.policyList ↔ rules.HasPolicy rule := by
  rw [policyList, List.mem_map]
  constructor
  · rintro ⟨⟨role, stored⟩, hmem, rfl⟩
    exact (mem_rulesOf_iff.mp (Index.mem_toList.mp hmem)).1
  · exact fun hpolicy => ⟨(rule.subject, rule), Index.mem_toList.mpr hpolicy, rfl⟩

/-- Additions that make the same rules, those grouping rules first. -/
def relisted (rules : RuleSet) (first : List GroupingRule) : List Change :=
  additions (first ++ rules.groupingList) rules.policyList

theorem sameRules_relisted {first : List GroupingRule}
    (hfirst : ∀ rule ∈ first, rules.HasGrouping rule) :
    (empty.replay (rules.relisted first)).SameRules rules := by
  constructor
  · intro rule
    rw [relisted, hasPolicy_additions, mem_policyList]
  · intro rule
    rw [relisted, hasGrouping_additions, List.mem_append, mem_groupingList]
    exact ⟨fun hmem => hmem.elim (hfirst rule) id, Or.inr⟩

theorem head?_rolesOf_relisted (rules : RuleSet) (first : List GroupingRule) (member : Member) :
    ((empty.replay (rules.relisted first)).rolesOf member).head? =
      ((first ++ rules.groupingList).find? fun rule => rule.member = member).map
        GroupingRule.role := by
  rw [relisted, additions, replay_append, rolesOf_replay_policies, head?_rolesOf_replay]
  simp

end RuleSet

/-! ## Snapshots of the same rules -/

namespace Snapshot

variable {snapshot other : Snapshot} {settings : Settings} {email : Email}

theorem sameParents (h : snapshot.rules.SameRules other.rules) :
    snapshot.hierarchy.SameParents other.hierarchy :=
  fun role parent => h.mem_rolesOf (.role role) parent

theorem IsIn.of_sameRules (h : snapshot.rules.SameRules other.rules) {role : RoleSubject}
    (hrole : snapshot.IsIn settings email role) : other.IsIn settings email role := by
  obtain ⟨first, hfirst, hreaches⟩ := hrole
  have hfirst' : first ∈ other.userRoles email := (h.mem_rolesOf (.user email) first).mp hfirst
  by_cases hfollow : settings.followRoles = true
  · rw [if_pos hfollow] at hreaches
    have hreaches' : other.hierarchy.Reaches first role := (sameParents h).reaches hreaches
    exact ⟨first, hfirst', by rwa [if_pos hfollow]⟩
  · rw [if_neg hfollow] at hreaches
    exact ⟨first, hfirst', by rwa [if_neg hfollow]⟩

theorem Allows.of_sameRules (h : snapshot.rules.SameRules other.rules) {resource : Resource}
    {action : Action} {object : ObjectPath}
    (hallows : snapshot.Allows settings email resource action object) :
    other.Allows settings email resource action object := by
  obtain ⟨role, hrole, rule, hrule, hgrants⟩ := hallows
  have hrule' : rule ∈ other.rulesOf role := (h.mem_rulesOf role rule).mp hrule
  exact ⟨role, hrole.of_sameRules h, rule, hrule', hgrants⟩

/-- In another order the same roles count, or a chain of roles is too deep. -/
theorem effectiveRoles_reordered (h : snapshot.rules.SameRules other.rules)
    {roles : List RoleSubject} (hroles : snapshot.effectiveRoles settings email = .ok roles) :
    (∃ roles', other.effectiveRoles settings email = .ok roles') ∨
    ∃ role, other.effectiveRoles settings email = .error (.roleDepth role settings.maxDepth) ∧
      settings.followRoles = true ∧
      ∃ first ∈ snapshot.userRoles email,
        snapshot.hierarchy.Chain first (settings.maxDepth + 1) role := by
  unfold effectiveRoles at hroles ⊢
  by_cases hfollow : settings.followRoles = true
  · simp only [if_pos hfollow] at hroles ⊢
    split at hroles
    · next hexpand =>
        rcases Hierarchy.expand_reordered (sameParents h) (h.mem_rolesOf (.user email)) hexpand with
          ⟨output, houtput, -⟩ | ⟨role, hdeep, hchain⟩
        · exact Or.inl ⟨output, by rw [userRoles, houtput]⟩
        · exact Or.inr ⟨role, by rw [userRoles, hdeep], hfollow, hchain⟩
    · cases hroles
    · cases hroles
  · simp only [if_neg hfollow]
    exact Or.inl ⟨other.userRoles email, rfl⟩

/-- The grouping rules by which every role of a path is a parent of the one before it. -/
def pathGroupings : RoleSubject → List RoleSubject → List GroupingRule
  | _, [] => []
  | role, parent :: rest => ⟨.role role, parent⟩ :: pathGroupings parent rest

theorem hasGrouping_of_path {role : RoleSubject} {path : List RoleSubject}
    (h : snapshot.hierarchy.Path role path) :
    ∀ rule ∈ pathGroupings role path, snapshot.rules.HasGrouping rule := by
  induction path generalizing role with
  | nil => simp [pathGroupings]
  | cons parent rest ih =>
      intro rule hrule
      rcases List.mem_cons.mp hrule with rfl | hrule
      · exact h.1
      · exact ih h.2 rule hrule

/-- If the grouping rules of a path are the first ones of its roles, the search is led along it. -/
theorem leads_of_head (later : List GroupingRule) {role : RoleSubject} {path : List RoleSubject}
    (hnodup : (role :: path).Nodup)
    (hhead : ∀ entered ∈ role :: path, (snapshot.parentRoles entered).head? =
      ((pathGroupings role path ++ later).find? fun rule => rule.member = .role entered).map
        GroupingRule.role) :
    snapshot.hierarchy.Leads role path := by
  induction path generalizing role with
  | nil => trivial
  | cons parent rest ih =>
      obtain ⟨hnot, hrest⟩ := List.nodup_cons.mp hnodup
      have hfirst : (snapshot.parentRoles role).head? = some parent := by
        rw [hhead role List.mem_cons_self]
        simp [pathGroupings]
      have hleads : snapshot.hierarchy.Leads parent rest := by
        apply ih hrest
        intro entered hentered
        have hne : role ≠ entered := fun heq => hnot (heq ▸ hentered)
        rw [hhead entered (List.mem_cons_of_mem _ hentered), pathGroupings, List.cons_append,
          List.find?_cons_of_neg (by simpa using hne)]
      exact ⟨List.head?_eq_some_iff.mp hfirst, hleads⟩

theorem not_onCycle_of_effectiveRoles (hfollow : settings.followRoles = true)
    {roles : List RoleSubject} (hroles : snapshot.effectiveRoles settings email = .ok roles)
    {role : RoleSubject}
    (hreached : snapshot.hierarchy.ReachedFrom (snapshot.userRoles email) role) :
    ¬ snapshot.hierarchy.OnCycle role := by
  unfold effectiveRoles at hroles
  rw [if_pos hfollow] at hroles
  split at hroles
  · next hexpand => exact Hierarchy.not_onCycle_of_expand hexpand hreached
  · exact nomatch hroles
  · exact nomatch hroles

/-- A chain beyond the limit breaks it when it is what the search looks at first. -/
theorem exists_relisted_error (hfollow : settings.followRoles = true) {roles : List RoleSubject}
    (hroles : snapshot.effectiveRoles settings email = .ok roles) {first last : RoleSubject}
    (hfirst : first ∈ snapshot.userRoles email)
    (hchain : snapshot.hierarchy.Chain first (settings.maxDepth + 1) last) :
    ∃ changes, (RuleSet.empty.replay changes).SameRules snapshot.rules ∧
      ∀ revision, ∃ error,
        effectiveRoles ⟨revision, RuleSet.empty.replay changes⟩ settings email = .error error := by
  obtain ⟨path, hpath, hlength⟩ := hchain.exists_path
  have hnodup : (first :: path).Nodup := by
    apply hpath.nodup
    intro role hreaches
    exact not_onCycle_of_effectiveRoles hfollow hroles ⟨first, hfirst, hreaches⟩
  have hlong : settings.maxDepth < path.length := by omega
  -- with the grouping rules of the chain stored first, each of its roles lists the next one first
  have hstored : ∀ rule ∈ (⟨.user email, first⟩ : GroupingRule) :: pathGroupings first path,
      snapshot.rules.HasGrouping rule := by
    intro rule hrule
    rcases List.mem_cons.mp hrule with rfl | hrule
    · exact hfirst
    · exact hasGrouping_of_path hpath rule hrule
  have hsame := RuleSet.sameRules_relisted hstored
  have hhead := snapshot.rules.head?_rolesOf_relisted
    (⟨.user email, first⟩ :: pathGroupings first path)
  refine ⟨_, hsame, fun revision => ?_⟩
  generalize RuleSet.empty.replay (snapshot.rules.relisted
    (⟨.user email, first⟩ :: pathGroupings first path)) = rules at hhead ⊢
  have huser : (userRoles ⟨revision, rules⟩ email).head? = some first := by
    rw [userRoles, hhead]
    simp
  have hleads : (hierarchy ⟨revision, rules⟩).Leads first path := by
    apply leads_of_head snapshot.rules.groupingList hnodup
    intro entered _
    rw [parentRoles, hhead, List.cons_append, List.find?_cons_of_neg (by simp)]
  obtain ⟨others, hothers⟩ := List.head?_eq_some_iff.mp huser
  obtain ⟨fault, hfault⟩ := Hierarchy.expand_error_of_leads hleads hlong others
  unfold effectiveRoles
  rw [if_pos hfollow, hothers, hfault]
  cases fault with
  | cycle role => exact ⟨.roleCycle role, rfl⟩
  | tooDeep role => exact ⟨.roleDepth role settings.maxDepth, rfl⟩

def decision (snapshot : Snapshot) (settings : Settings) (email : Email) (resource : Resource)
    (action : Action) (object : ObjectPath) : Except Error Decision :=
  (snapshot.effectiveRules settings email).map fun rules => .ofRules rules resource action object

theorem decision_eq_ok {resource : Resource} {action : Action} {object : ObjectPath}
    {decision : Decision}
    (h : snapshot.decision settings email resource action object = .ok decision) :
    (∃ roles, snapshot.effectiveRoles settings email = .ok roles) ∧
      (decision = .allow ↔ snapshot.Allows settings email resource action object) := by
  unfold Snapshot.decision at h
  cases hrules : snapshot.effectiveRules settings email with
  | error error =>
      rw [hrules] at h
      exact nomatch h
  | ok rules =>
      rw [hrules] at h
      cases h
      have hallow := @ofRules_eq_allow_iff _ _ _ _ hrules resource action object
      unfold effectiveRules at hrules
      cases hroles : snapshot.effectiveRoles settings email with
      | error error =>
          rw [hroles] at hrules
          exact nomatch hrules
      | ok roles => exact ⟨⟨roles, rfl⟩, hallow⟩

theorem decision_of_effectiveRoles_ok {roles : List RoleSubject}
    (hroles : snapshot.effectiveRoles settings email = .ok roles) (resource : Resource)
    (action : Action) (object : ObjectPath) :
    ∃ decision, snapshot.decision settings email resource action object = .ok decision := by
  unfold Snapshot.decision effectiveRules
  rw [hroles]
  exact ⟨_, rfl⟩

theorem decision_of_effectiveRoles_error {error : Error}
    (hroles : snapshot.effectiveRoles settings email = .error error) (resource : Resource)
    (action : Action) (object : ObjectPath) :
    snapshot.decision settings email resource action object = .error error := by
  unfold Snapshot.decision effectiveRules
  rw [hroles]
  rfl

theorem decision_reordered (h : snapshot.rules.SameRules other.rules) {resource : Resource}
    {action : Action} {object : ObjectPath} {decision : Decision}
    (hdecision : snapshot.decision settings email resource action object = .ok decision) :
    other.decision settings email resource action object = .ok decision ∨
    ∃ role, other.decision settings email resource action object =
        .error (.roleDepth role settings.maxDepth) ∧
      settings.followRoles = true ∧
      ∃ first ∈ snapshot.userRoles email,
        snapshot.hierarchy.Chain first (settings.maxDepth + 1) role := by
  obtain ⟨⟨roles, hroles⟩, hallow⟩ := decision_eq_ok hdecision
  rcases effectiveRoles_reordered h hroles with ⟨roles', hroles'⟩ | ⟨role, hdeep, hchain⟩
  · obtain ⟨decision', hdecision'⟩ :=
      decision_of_effectiveRoles_ok hroles' resource action object
    have hallow' := (decision_eq_ok hdecision').2
    have hiff : decision = .allow ↔ decision' = .allow := by
      rw [hallow, hallow']
      exact ⟨Allows.of_sameRules h, Allows.of_sameRules h.symm⟩
    have heq : decision' = decision := by
      cases decision <;> cases decision' <;> simp_all
    exact Or.inl (heq ▸ hdecision')
  · exact Or.inr ⟨role, decision_of_effectiveRoles_error hdeep resource action object, hchain⟩

end Snapshot

/-! ## Histories -/

namespace Store

def change (store : Store) : Change → Store
  | .addPolicy rule => (store.addPolicy rule).2
  | .addGrouping rule => (store.addGrouping rule).2
  | .removeGrouping rule => (store.removeGrouping rule).2

def ofHistory (changes : List Change) : Store :=
  (changes.foldl change .empty).save.load

theorem foldl_change (changes : List Change) (store : Store) :
    changes.foldl change store = { store with staged := store.staged.replay changes } := by
  induction changes generalizing store with
  | nil => rfl
  | cons change rest ih =>
      rw [List.foldl_cons, ih]
      cases change <;> rfl

theorem loaded_ofHistory (changes : List Change) :
    (ofHistory changes).loaded = some ⟨1, RuleSet.empty.replay changes⟩ := by
  rw [ofHistory, foldl_change]
  rfl

end Store

namespace Enforcer

def afterHistory (settings : Settings) (changes : List Change) : Enforcer :=
  { settings, store := { store := .ofHistory changes } }

/-- What an enforcer decides over a store with that history. -/
def outcome (settings : Settings) (changes : List Change) (email : Email) (resource : Resource)
    (action : Action) (object : ObjectPath) : Except Error Decision :=
  ((afterHistory settings changes).authorize ⟨0, 0⟩ email resource action object).1

theorem outcome_eq (settings : Settings) (changes : List Change) (email : Email)
    (resource : Resource) (action : Action) (object : ObjectPath) :
    outcome settings changes email resource action object =
      Snapshot.decision ⟨1, RuleSet.empty.replay changes⟩ settings email resource action
        object := by
  have hloaded := Store.loaded_ofHistory changes
  have hsound : (afterHistory settings changes).CacheSound :=
    (afterHistory settings changes).cacheSound_uncached
  have hview : (afterHistory settings changes).takeView.1 =
      .ok ⟨1, RuleSet.empty.replay changes⟩ := by
    simp only [afterHistory, takeView, FallibleStore.view, FallibleStore.attempt,
      ArmedFailure.strike, hloaded]
  unfold outcome authorize Snapshot.decision
  dsimp only
  rw [(hsound.effectiveRules ⟨0, 0⟩ email).1, hview]
  rfl

/-- The histories make the same rules, in whatever order. -/
def SameHistory (changes other : List Change) : Prop :=
  (RuleSet.empty.replay changes).SameRules (RuleSet.empty.replay other)

/-- Both decide alike, or both fail. -/
def SameOutcome : Except Error Decision → Except Error Decision → Prop
  | .ok decision, .ok other => decision = other
  | .error _, .error _ => True
  | _, _ => False

/-- Some chain of more memberships than the limit starts at a role of the email. -/
def DeepChain (settings : Settings) (changes : List Change) (email : Email) : Prop :=
  ∃ first ∈ (RuleSet.empty.replay changes).rolesOf (.user email), ∃ last,
    (Snapshot.mk 1 (RuleSet.empty.replay changes)).hierarchy.Chain first
      (settings.maxDepth + 1) last

variable {settings : Settings} {changes other : List Change} {email : Email}
  {resource : Resource} {action : Action} {object : ObjectPath}

theorem DeepChain.of_sameHistory (h : SameHistory changes other)
    (hdeep : DeepChain settings changes email) : DeepChain settings other email := by
  obtain ⟨first, hfirst, last, hchain⟩ := hdeep
  have hparents : (Snapshot.mk 1 (RuleSet.empty.replay changes)).hierarchy.SameParents
      (Snapshot.mk 1 (RuleSet.empty.replay other)).hierarchy := Snapshot.sameParents h
  exact ⟨first, (h.mem_rolesOf _ first).mp hfirst, last, hparents.chain hchain⟩

theorem outcome_reordered (h : SameHistory changes other) {decision : Decision}
    (hok : outcome settings changes email resource action object = .ok decision) :
    outcome settings other email resource action object = .ok decision ∨
      ∃ role, outcome settings other email resource action object =
          .error (.roleDepth role settings.maxDepth) ∧
        settings.followRoles = true ∧ DeepChain settings changes email := by
  rw [outcome_eq] at hok ⊢
  have hcases := @Snapshot.decision_reordered ⟨1, RuleSet.empty.replay changes⟩
    ⟨1, RuleSet.empty.replay other⟩ settings email h resource action object decision hok
  rcases hcases with hsame | ⟨role, hdeep, hfollow, first, hfirst, hchain⟩
  · exact Or.inl hsame
  · exact Or.inr ⟨role, hdeep, hfollow, first, hfirst, role, hchain⟩

theorem exists_error_of_deepChain (hfollow : settings.followRoles = true)
    (hdeep : DeepChain settings changes email) {decision : Decision}
    (hok : outcome settings changes email resource action object = .ok decision) :
    ∃ other error, SameHistory other changes ∧
      outcome settings other email resource action object = .error error := by
  obtain ⟨first, hfirst, last, hchain⟩ := hdeep
  rw [outcome_eq] at hok
  obtain ⟨⟨roles, hroles⟩, -⟩ := Snapshot.decision_eq_ok hok
  obtain ⟨other, hsame, herror⟩ := Snapshot.exists_relisted_error hfollow hroles hfirst hchain
  obtain ⟨error, hfail⟩ := herror 1
  have hdecision := Snapshot.decision_of_effectiveRoles_error hfail resource action object
  rw [← outcome_eq] at hdecision
  exact ⟨other, error, hsame, hdecision⟩

/-- If the same rules give a decision after one history, then after every other they give the same
decision or the error that a chain of roles is too deep. The outcome is the same after all of
their histories exactly if none of these gives a decision or no chain from a role of the email is
beyond the limit. -/
theorem sameOutcome_iff (settings : Settings) (changes : List Change) (email : Email)
    (resource : Resource) (action : Action) (object : ObjectPath) :
    (∀ first second decision, SameHistory first changes → SameHistory second changes →
      outcome settings first email resource action object = .ok decision →
      outcome settings second email resource action object = .ok decision ∨
        ∃ role, outcome settings second email resource action object =
          .error (.roleDepth role settings.maxDepth)) ∧
    ((∀ first second, SameHistory first changes → SameHistory second changes →
      SameOutcome (outcome settings first email resource action object)
        (outcome settings second email resource action object)) ↔
      ((∃ first decision, SameHistory first changes ∧
          outcome settings first email resource action object = .ok decision) →
        settings.followRoles = true → ¬ DeepChain settings changes email)) := by
  constructor
  · intro first second decision hfirst hsecond hok
    rcases outcome_reordered (hfirst.trans hsecond.symm) hok with hsame | ⟨role, hdeep, -⟩
    · exact Or.inl hsame
    · exact Or.inr ⟨role, hdeep⟩
  constructor
  · rintro hagree ⟨first, decision, hfirst, hok⟩ hfollow hdeep
    -- another history of the same rules looks along the deep chain first
    have hdeep' : DeepChain settings first email := hdeep.of_sameHistory hfirst.symm
    obtain ⟨second, error, hsecond, hfail⟩ := exists_error_of_deepChain hfollow hdeep' hok
    have hsame := hagree first second hfirst (hsecond.trans hfirst)
    rw [hok, hfail] at hsame
    exact hsame
  · intro hshallow first second hfirst hsecond
    -- the only way out of a decision is a chain too deep, and there is none
    have hstays {changes' other decision} (hchanges : SameHistory changes' changes)
        (hother : SameHistory other changes)
        (hok : outcome settings changes' email resource action object = .ok decision) :
        outcome settings other email resource action object = .ok decision := by
      rcases outcome_reordered (hchanges.trans hother.symm) hok with
        hsame | ⟨role, -, hfollow, hdeep⟩
      · exact hsame
      · have hnot := hshallow ⟨changes', decision, hchanges, hok⟩ hfollow
        exact (hnot (hdeep.of_sameHistory hchanges)).elim
    cases hone : outcome settings first email resource action object with
    | ok decision =>
        rw [hstays hfirst hsecond hone]
        exact rfl
    | error error =>
        cases htwo : outcome settings second email resource action object with
        | ok decision =>
            rw [hstays hsecond hfirst htwo] at hone
            exact nomatch hone
        | error other => trivial

/-- With at most one membership in a chain, an email that is in a role and in one below it may do
what the role above them may, until it is removed from the upper role and added to it again: then
the lower role is looked at first, and the chain from it is too deep. -/
theorem outcome_depends_on_order :
    let email : Email := ⟨"a@b", by decide, by decide, by decide⟩
    let low : RoleSubject := ⟨.view, .every⟩
    let middle : RoleSubject := ⟨.admin, .every⟩
    let top : RoleSubject := ⟨.manager, .every⟩
    let first : List Change := RuleSet.additions
      [⟨.user email, middle⟩, ⟨.user email, low⟩, ⟨.role low, middle⟩, ⟨.role middle, top⟩]
      [⟨top, .team, .any, .parse "dev", .allow⟩]
    let second : List Change :=
      first ++ [.removeGrouping ⟨.user email, middle⟩, .addGrouping ⟨.user email, middle⟩]
    SameHistory second first ∧
      outcome ⟨true, 1⟩ first email .team .get (.parse "dev") = .ok .allow ∧
      outcome ⟨true, 1⟩ second email .team .get (.parse "dev") = .error (.roleDepth top 1) := by
  intro email low middle top first second
  have hthere : (RuleSet.empty.replay first).HasGrouping ⟨.user email, middle⟩ := by
    rw [RuleSet.hasGrouping_additions]
    exact List.mem_cons_self
  refine ⟨?_, ?_, ?_⟩
  · show (RuleSet.empty.replay second).SameRules (RuleSet.empty.replay first)
    rw [RuleSet.replay_append]
    exact RuleSet.sameRules_readd hthere
  · dsimp only [first, top, middle, low, email]
    cbv
  · dsimp only [second, first, top, middle, low, email]
    cbv

end Enforcer

end ScopedAccess
