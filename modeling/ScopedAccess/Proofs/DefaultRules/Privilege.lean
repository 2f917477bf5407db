import ScopedAccess.Proofs.DefaultRules.Template

/-!
# What generated groups grant

A generated group grants what its kind permits on the objects that fit the normalized texts
(`grants_generate_iff`). Groups are ordered as kinds and scopes are, except on objects that bear a
name which the wider scope leaves open (`grants_generate_mono`).
-/

namespace ScopedAccess

namespace RuleGroup

/-- Some rule of the group grants the request. -/
def Grants (group : RuleGroup) (resource : Resource) (action : Action) (object : ObjectPath) :
    Prop :=
  ∃ rule ∈ group.rules, rule.grants resource action object = true

/-- What covers an object is not empty, so a rule that grants anything can be stored. -/
theorem installable_of_grants {rule : PolicyRule} {resource : Resource} {action : Action}
    {object : ObjectPath} (h : rule.grants resource action object = true) :
    rule.installable = true := by
  obtain ⟨-, -, hcovers⟩ := PolicyRule.grants_iff.mp h
  have hne : rule.object.text ≠ "" := (ObjectPath.covers_iff.mp hcovers).1
  simp [PolicyRule.installable, ObjectPath.isEmpty, hne]

theorem exists_installable_iff {group : RuleGroup} {resource : Resource} {action : Action}
    {object : ObjectPath} :
    (∃ rule ∈ group.installable, rule.grants resource action object = true) ↔
      group.Grants resource action object := by
  constructor
  · rintro ⟨rule, hrule, hgrants⟩
    exact ⟨rule, List.mem_of_mem_filter hrule, hgrants⟩
  · rintro ⟨rule, hrule, hgrants⟩
    exact ⟨rule, List.mem_filter.mpr ⟨hrule, installable_of_grants hgrants⟩, hgrants⟩

end RuleGroup

/-! ## Kinds and scopes in order -/

def RoleKind.rank : RoleKind → Nat
  | view => 0
  | trigger => 1
  | admin => 2
  | manager => 3

theorem RoleKind.permits_of_rank_le {kind kind' : RoleKind} (h : kind.rank ≤ kind'.rank)
    {resource : Resource} {action : Action} (hpermits : kind.permits resource action = true) :
    kind'.permits resource action = true := by
  revert h hpermits
  cases kind <;> cases kind' <;> cases resource <;> cases action <;> decide

theorem ScopeName.Admits.trans {wide name : ScopeName} {text : String}
    (h : wide.Admits name.text) (h' : name.Admits text) : wide.Admits text := by
  rcases h with hempty | hsame
  · exact Or.inl hempty
  · rcases h' with hempty | rfl
    · exact Or.inl (hsame.symm.trans hempty)
    · exact Or.inr hsame

namespace Scope

/-- Each of the three names is empty or that of the other scope. -/
structure Widens (wide scope : Scope) : Prop where
  team : wide.team.Admits scope.team.text
  environment : wide.environment.Admits scope.environment.text
  entity : wide.entity.Admits scope.entity.text

/-- The scope has the name of the other one that stands alone in objects of the resource. -/
def Keeps (wide scope : Scope) : Resource → Prop
  | .applications | .environment => True
  | .team | .user | .notification => wide.team = scope.team
  | .globalEnvironment => wide.environment = scope.environment

theorem Widens.fits {wide scope : Scope} (h : wide.Widens scope) {resource : Resource}
    (hkeeps : wide.Keeps scope resource) {object : ObjectPath}
    (hfits : scope.Fits object resource) : wide.Fits object resource := by
  cases resource with
  | applications =>
      obtain ⟨team, entity, hsegments, hteam, hentity⟩ := hfits
      exact ⟨team, entity, hsegments, h.team.trans hteam, h.entity.trans hentity⟩
  | environment =>
      obtain ⟨environment, entity, hsegments, henvironment, hentity⟩ := hfits
      exact ⟨environment, entity, hsegments, h.environment.trans henvironment,
        h.entity.trans hentity⟩
  | team | user | notification =>
      have hteam : wide.team = scope.team := hkeeps
      unfold Fits at hfits ⊢
      rwa [hteam]
  | globalEnvironment =>
      have henvironment : wide.environment = scope.environment := hkeeps
      unfold Fits at hfits ⊢
      rwa [henvironment]

end Scope

namespace DefaultRules

/-! ## Generated groups -/

theorem grants_groupOf_iff {role : RoleSubject} {resource : Resource} {action : Action}
    {object : ObjectPath} :
    (groupOf role).Grants resource action object ↔
      role.kind.permits resource action = true ∧ role.scope.Fits object resource := by
  rw [← grants_template_iff, RuleGroup.Grants, groupOf]
  simp only [List.mem_map, exists_exists_and_eq_and]

theorem generate_texts (kind : RoleKind) (scope : Scope) :
    generate kind scope.team.text scope.entity.text scope.environment.text =
      .ok (groupOf ⟨kind, scope⟩) := by
  rw [generate_eq, Scope.parse_texts]

/-- A generated group is of the kind and of the normalized texts. It grants exactly what the kind
permits on objects that fit these, and so do those of its rules that can be stored. -/
theorem grants_generate_iff {kind : RoleKind} {team entity environment : String}
    {group : RuleGroup} (h : generate kind team entity environment = .ok group) :
    group.role.kind = kind ∧ group.role.scope.team.text = Text.normalize team ∧
      group.role.scope.environment.text = Text.normalize environment ∧
      group.role.scope.entity.text = Text.normalize entity ∧
      ∀ resource action object,
        (group.Grants resource action object ↔
          kind.permits resource action = true ∧ group.role.scope.Fits object resource) ∧
        ((∃ rule ∈ group.installable, rule.grants resource action object = true) ↔
          group.Grants resource action object) := by
  rw [generate_eq] at h
  cases hscope : Scope.parse team environment entity with
  | error fault => simp [hscope] at h
  | ok scope =>
      simp only [hscope, Except.ok.injEq] at h
      subst h
      obtain ⟨hteam, henvironment, hentity⟩ := Scope.texts_of_parse hscope
      refine ⟨rfl, hteam, henvironment, hentity, fun resource action object => ?_⟩
      exact ⟨grants_groupOf_iff, RuleGroup.exists_installable_iff⟩

theorem grants_generate_iff_for_trigger :
    let role : RoleSubject :=
      ⟨.trigger, ⟨⟨"dev", by decide, by decide⟩, .every, ⟨"app", by decide, by decide⟩⟩⟩
    generate .trigger " Dev" "app" "" = .ok (groupOf role) ∧
      (groupOf role).Grants .applications .trigger (.parse "dev/app") ∧
      (groupOf role).Grants .environment .get (.parse "demo/app") ∧
      ¬ (groupOf role).Grants .applications .delete (.parse "dev/app") ∧
      ¬ (groupOf role).Grants .globalEnvironment .get (.parse "demo") := by
  intro role
  have hgenerate : generate .trigger " Dev" "app" "" = .ok (groupOf role) := by rfl
  obtain ⟨-, -, -, -, hiff⟩ := grants_generate_iff hgenerate
  refine ⟨hgenerate, (hiff _ _ _).1.mpr ?_, (hiff _ _ _).1.mpr ?_, mt (hiff _ _ _).1.mp ?_,
    mt (hiff _ _ _).1.mp ?_⟩
  · exact ⟨rfl, "dev", "app", by decide, Or.inr rfl, Or.inr rfl⟩
  · exact ⟨rfl, "demo", "app", by decide, Or.inl rfl, Or.inr rfl⟩
  · rintro ⟨hpermits, -⟩
    exact nomatch hpermits
  · rintro ⟨-, hopen, -⟩
    exact hopen rfl

/-- A kind of at least the rank, with a scope at least as wide, is granted everything that the
other one is on applications and environments; on teams, users and notifications if it keeps the
team, and on global environments if it keeps the environment. -/
theorem grants_generate_mono {kind kind' : RoleKind} {scope scope' : Scope}
    (hkind : kind.rank ≤ kind'.rank) (hscope : scope'.Widens scope) :
    ∃ group group',
      generate kind scope.team.text scope.entity.text scope.environment.text = .ok group ∧
      generate kind' scope'.team.text scope'.entity.text scope'.environment.text = .ok group' ∧
      ∀ action object,
        (∀ resource ∈ [Resource.applications, .environment],
          group.Grants resource action object → group'.Grants resource action object) ∧
        (scope'.team = scope.team → ∀ resource ∈ [Resource.team, .user, .notification],
          group.Grants resource action object → group'.Grants resource action object) ∧
        (scope'.environment = scope.environment →
          group.Grants .globalEnvironment action object →
            group'.Grants .globalEnvironment action object) := by
  have hmono (resource : Resource) (hkeeps : scope'.Keeps scope resource) {action : Action}
      {object : ObjectPath} (hgrants : (groupOf ⟨kind, scope⟩).Grants resource action object) :
      (groupOf ⟨kind', scope'⟩).Grants resource action object := by
    obtain ⟨hpermits, hfits⟩ := grants_groupOf_iff.mp hgrants
    exact grants_groupOf_iff.mpr
      ⟨RoleKind.permits_of_rank_le hkind hpermits, hscope.fits hkeeps hfits⟩
  refine ⟨_, _, generate_texts kind scope, generate_texts kind' scope', fun action object => ?_⟩
  refine ⟨?_, fun hteam => ?_, fun henvironment => hmono .globalEnvironment henvironment⟩
  · rw [List.forall_mem_cons, List.forall_mem_singleton]
    exact ⟨hmono .applications trivial, hmono .environment trivial⟩
  · rw [List.forall_mem_cons, List.forall_mem_cons, List.forall_mem_singleton]
    exact ⟨hmono .team hteam, hmono .user hteam, hmono .notification hteam⟩

theorem grants_generate_mono_in_team :
    let dev : ScopeName := ⟨"dev", by decide, by decide⟩
    let narrow : Scope := ⟨dev, .every, ⟨"app", by decide, by decide⟩⟩
    let wide : Scope := ⟨dev, .every, .every⟩
    RoleKind.view.rank ≤ RoleKind.admin.rank ∧ wide.Widens narrow ∧ wide.team = narrow.team ∧
      ∃ group group', generate .view "dev" "app" "" = .ok group ∧
        generate .admin "dev" "" "" = .ok group' ∧
        group.Grants .applications .get (.parse "dev/app") ∧
        group'.Grants .applications .get (.parse "dev/app") ∧
        ∀ action object, group.Grants .team action object → group'.Grants .team action object := by
  intro dev narrow wide
  have hkind : RoleKind.view.rank ≤ RoleKind.admin.rank := by decide
  have hwidens : wide.Widens narrow := ⟨Or.inr rfl, Or.inr rfl, Or.inl rfl⟩
  obtain ⟨group, group', hgroup, hgroup', hmono⟩ := grants_generate_mono hkind hwidens
  have hgrants : group.Grants .applications .get (.parse "dev/app") := by
    obtain rfl := Except.ok.inj (hgroup.symm.trans (generate_texts .view narrow))
    exact grants_groupOf_iff.mpr ⟨rfl, "dev", "app", by decide, Or.inr rfl, Or.inr rfl⟩
  have hgrants' := (hmono .get (.parse "dev/app")).1 .applications (by decide) hgrants
  exact ⟨hkind, hwidens, rfl, group, group', hgroup, hgroup', hgrants, hgrants',
    fun action object => (hmono action object).2.1 rfl .team (by decide)⟩

end DefaultRules

end ScopedAccess
