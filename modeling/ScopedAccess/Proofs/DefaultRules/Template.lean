import ScopedAccess.DefaultRules
import ScopedAccess.Proofs.Check.Meaning
import ScopedAccess.Proofs.Object.Subsumption
import ScopedAccess.Proofs.Role.Grammar

/-!
# What default rules grant

The default rules of a role grant what its kind permits on the objects in its scope, and nothing
else (`grants_template_iff`). They are generated for all kinds or for none, and fail only for a name
of the scope (`generateAll_all_or_nothing`).
-/

namespace ScopedAccess

/-! ## Permissions and objects of a role -/

/-- What a role of the kind may do to the objects in its scope. -/
def RoleKind.permits (kind : RoleKind) (resource : Resource) (action : Action) : Bool :=
  match kind, resource with
  | manager, _ => true
  | _, .user | _, .notification => false
  | _, .team | _, .globalEnvironment => action = .get
  | admin, _ => true
  | trigger, _ => action = .get || action = .trigger
  | view, _ => action = .get

/-- An empty name admits every text, any other name only itself. -/
def ScopeName.Admits (name : ScopeName) (text : String) : Prop :=
  name.text = "" ∨ text = name.text

/-- The object lies in the scope, as objects of the resource are written. -/
def Scope.Fits (scope : Scope) (object : ObjectPath) : Resource → Prop
  | .applications => ∃ team entity, object.segments = [team, entity] ∧
      scope.team.Admits team ∧ scope.entity.Admits entity
  | .environment => ∃ environment entity, object.segments = [environment, entity] ∧
      scope.environment.Admits environment ∧ scope.entity.Admits entity
  | .team | .user | .notification => scope.team.text ≠ "" ∧ object.text = scope.team.text
  | .globalEnvironment => scope.environment.text ≠ "" ∧ object.text = scope.environment.text

namespace DefaultRules

open ObjectPath

/-! ## Objects of default rules -/

theorem slash_not_mem_orWildcard (name : ScopeName) :
    '/' ∉ (orWildcard name.text).toList := by
  unfold orWildcard
  split
  · decide
  · exact name.slash_not_mem_text

theorem isPlain_of_mem_orWildcard (name : ScopeName) :
    ∀ c ∈ (orWildcard name.text).toList, Text.isPlain c = true := by
  have hstar : wildcard.toList.all Text.isPlain = true := by decide
  unfold orWildcard
  split
  · exact List.all_eq_true.mp hstar
  · exact fun c hc => name.isPlain_of_mem_text hc

theorem orWildcard_standsFor_iff {name : ScopeName} {text : String} :
    StandsFor (orWildcard name.text) text ↔ name.Admits text := by
  unfold StandsFor orWildcard ScopeName.Admits
  by_cases hempty : name.text = ""
  · simp [hempty]
  · simp [hempty, name.text_ne_wildcard, eq_comm]

theorem segments_parse_pair (first second : ScopeName) :
    (ObjectPath.parse (orWildcard first.text ++ "/" ++ orWildcard second.text)).segments =
      [orWildcard first.text, orWildcard second.text] := by
  have hnormal : Text.normalize (orWildcard first.text ++ "/" ++ orWildcard second.text) =
      orWildcard first.text ++ "/" ++ orWildcard second.text := by
    have hslash : "/".toList.all Text.isPlain = true := by decide
    apply Text.normalize_eq_self_of_isPlain
    intro c hc
    simp only [String.toList_append, List.mem_append] at hc
    rcases hc with (hc | hc) | hc
    · exact isPlain_of_mem_orWildcard first c hc
    · exact List.all_eq_true.mp hslash c hc
    · exact isPlain_of_mem_orWildcard second c hc
  rw [segments, text_parse, hnormal, Text.fields]
  simp only [String.toList_append, List.append_assoc]
  show (Text.fieldChars '/' ((orWildcard first.text).toList ++
    '/' :: (orWildcard second.text).toList)).map String.ofList = _
  rw [Text.fieldChars_append_cons (slash_not_mem_orWildcard first),
    Text.fieldChars_of_not_mem (slash_not_mem_orWildcard second)]
  simp

theorem covers_parse_pair_iff {first second : ScopeName} {object : ObjectPath} :
    (ObjectPath.parse (orWildcard first.text ++ "/" ++ orWildcard second.text)).covers object =
        true ↔
      ∃ a b, object.segments = [a, b] ∧ first.Admits a ∧ second.Admits b := by
  rw [covers_iff, segments_parse_pair]
  constructor
  · rintro ⟨-, -, hsegments⟩
    obtain ⟨a, rest, ha, hrest, hobject⟩ := List.forall₂_cons_left_iff.mp hsegments
    obtain ⟨b, nothing, hb, hnothing, rfl⟩ := List.forall₂_cons_left_iff.mp hrest
    rw [List.forall₂_nil_left_iff.mp hnothing] at hobject
    exact ⟨a, b, hobject, orWildcard_standsFor_iff.mp ha, orWildcard_standsFor_iff.mp hb⟩
  · rintro ⟨a, b, hobject, ha, hb⟩
    refine ⟨text_ne_empty_of_segments (segments_parse_pair first second),
      text_ne_empty_of_segments hobject, ?_⟩
    rw [hobject]
    exact .cons (orWildcard_standsFor_iff.mpr ha) (.cons (orWildcard_standsFor_iff.mpr hb) .nil)

theorem covers_parse_name_iff {name : ScopeName} {object : ObjectPath} :
    (ObjectPath.parse name.text).covers object = true ↔
      name.text ≠ "" ∧ object.text = name.text := by
  have hsegments (path : ObjectPath) (h : path.text = name.text) :
      path.segments = [name.text] := by
    rw [segments, h, Text.fields, Text.fieldChars_of_not_mem name.slash_not_mem_text]
    simp
  have hself : (ObjectPath.parse name.text).segments = [name.text] :=
    hsegments _ name.normalize_text
  rw [covers_iff, hself, text_parse, name.normalize_text]
  constructor
  · rintro ⟨hne, -, hall⟩
    obtain ⟨segment, rest, hsegment, hrest, hobject⟩ := List.forall₂_cons_left_iff.mp hall
    rw [List.forall₂_nil_left_iff.mp hrest] at hobject
    rw [Text.eq_of_fields_eq_singleton hobject]
    -- no name is `*`, so it stands for itself only
    exact ⟨hne, (hsegment.resolve_left name.text_ne_wildcard).symm⟩
  · rintro ⟨hne, hobject⟩
    refine ⟨hne, hobject ▸ hne, ?_⟩
    rw [hsegments object hobject]
    exact .cons (Or.inr rfl) .nil

/-! ## Templates -/

def shapeOf : Resource → ObjectShape
  | .applications => .teamEntity
  | .environment => .environmentEntity
  | .team | .user | .notification => .team
  | .globalEnvironment => .environment

theorem object_of_mem_template {kind : RoleKind} {entry : Entry} (h : entry ∈ template kind) :
    entry.object = shapeOf entry.resource := by
  revert entry
  cases kind <;> decide

theorem permits_iff {kind : RoleKind} {resource : Resource} {action : Action} :
    kind.permits resource action = true ↔
      ∃ entry ∈ template kind, entry.resource = resource ∧
        (entry.action = action ∨ entry.action = .any) := by
  cases kind <;> cases resource <;> cases action <;> decide

theorem covers_render_iff {scope : Scope} {resource : Resource} {object : ObjectPath} :
    ((shapeOf resource).render scope).covers object = true ↔ scope.Fits object resource := by
  cases resource with
  | applications | environment => exact covers_parse_pair_iff
  | team | user | notification | globalEnvironment => exact covers_parse_name_iff

/-- A rule of a role's template grants what the kind permits on what the scope fits. -/
theorem grants_template_iff {role : RoleSubject} {resource : Resource} {action : Action}
    {object : ObjectPath} :
    (∃ entry ∈ template role.kind, (entry.render role).grants resource action object = true) ↔
      role.kind.permits resource action = true ∧ role.scope.Fits object resource := by
  simp only [PolicyRule.grants_iff, permits_iff, ← covers_render_iff]
  constructor
  · rintro ⟨entry, hentry, hresource, haction, hcovers⟩
    have hobject := object_of_mem_template hentry
    dsimp only [Entry.render] at hresource hcovers
    rw [hobject, hresource] at hcovers
    exact ⟨⟨entry, hentry, hresource, haction⟩, hcovers⟩
  · rintro ⟨⟨entry, hentry, hresource, haction⟩, hcovers⟩
    have hobject := object_of_mem_template hentry
    refine ⟨entry, hentry, hresource, haction, ?_⟩
    dsimp only [Entry.render]
    rwa [hobject, hresource]

/-! ## Generated groups -/

def groupOf (role : RoleSubject) : RuleGroup :=
  ⟨role, (template role.kind).map fun entry => entry.render role⟩

theorem checkDecodes_eq (role : RoleSubject) : checkDecodes role = .ok () := by
  unfold checkDecodes
  rw [RoleSubject.parse_text]
  exact if_pos rfl

/-- The text of a role is always read as that role, so only the scope can be at fault. -/
theorem generate_eq (kind : RoleKind) (team entity environment : String) :
    generate kind team entity environment =
      match Scope.parse team environment entity with
      | .ok scope => .ok (groupOf ⟨kind, scope⟩)
      | .error fault => .error (.render kind fault) := by
  unfold generate
  cases Scope.parse team environment entity with
  | error fault => rfl
  | ok scope =>
      simp only [Except.mapError, bind, Except.bind, checkDecodes_eq]
      rfl

theorem generateAll_eq (team entity environment : String) :
    generateAll team entity environment =
      match Scope.parse team environment entity with
      | .ok scope => .ok (RoleKind.all.map fun kind => groupOf ⟨kind, scope⟩)
      | .error fault => .error (.render .manager fault) := by
  unfold generateAll RoleKind.all
  simp only [List.mapM_cons, List.mapM_nil, generate_eq]
  cases Scope.parse team environment entity <;> rfl

end DefaultRules

/-! ## Generation -/

namespace DefaultRules

variable {team entity environment : String} {fault : GenerationFault}

theorem subject_of_mem_groupOf {role : RoleSubject} {rule : PolicyRule}
    (h : rule ∈ (groupOf role).rules) : rule.subject = role := by
  obtain ⟨entry, -, rfl⟩ := List.mem_map.mp h
  rfl

theorem generate_eq_error_iff {kind : RoleKind} :
    generate kind team entity environment = .error fault ↔
      ∃ reason, fault = .render kind reason ∧
        Scope.parse team environment entity = .error reason := by
  rw [generate_eq]
  cases Scope.parse team environment entity with
  | ok scope => simp
  | error reason => simp [eq_comm]

theorem generateAll_eq_error_iff :
    generateAll team entity environment = .error fault ↔
      ∃ reason, fault = .render .manager reason ∧
        Scope.parse team environment entity = .error reason := by
  rw [generateAll_eq]
  cases Scope.parse team environment entity with
  | ok scope => simp
  | error reason => simp [eq_comm]

theorem generateAll_eq_ok_iff {groups : List RuleGroup} :
    generateAll team entity environment = .ok groups ↔
      ∃ scope, Scope.parse team environment entity = .ok scope ∧
        groups = RoleKind.all.map fun kind => groupOf ⟨kind, scope⟩ := by
  rw [generateAll_eq]
  cases Scope.parse team environment entity with
  | ok scope => simp [eq_comm]
  | error reason => simp

/-- Default rules are generated if and only if the scope can be read. There are then four groups,
each for its kind of role in this scope, and the rules of a group are about the role of the group.
Otherwise the first of the names that is none is reported, in the order of the scope and not of the
arguments, as met with managers. That a role is not read from its own text is never reported, nor
is it for one kind alone. -/
theorem generateAll_all_or_nothing (team entity environment : String) :
    ((∃ groups, generateAll team entity environment = .ok groups) ↔
      ∃ scope, Scope.parse team environment entity = .ok scope) ∧
    (∀ groups, generateAll team entity environment = .ok groups →
      ∃ scope, Scope.parse team environment entity = .ok scope ∧
        groups.map RuleGroup.role =
          [⟨.manager, scope⟩, ⟨.admin, scope⟩, ⟨.trigger, scope⟩, ⟨.view, scope⟩] ∧
        ∀ group ∈ groups, ∀ rule ∈ group.rules, rule.subject = group.role) ∧
    (∀ fault, generateAll team entity environment = .error fault →
      ∃ reason, fault = .render .manager reason ∧
        Scope.parse team environment entity = .error reason ∧
        FirstFault reason [(.team, team), (.environment, environment), (.entity, entity)]) ∧
    (∀ role reason, generateAll team entity environment ≠ .error (.decode role reason)) ∧
    ∀ kind role reason, generate kind team entity environment ≠ .error (.decode role reason) := by
  refine ⟨⟨?_, ?_⟩, ?_, ?_, ?_, ?_⟩
  · rintro ⟨groups, hgroups⟩
    obtain ⟨scope, hscope, -⟩ := generateAll_eq_ok_iff.mp hgroups
    exact ⟨scope, hscope⟩
  · rintro ⟨scope, hscope⟩
    exact ⟨_, generateAll_eq_ok_iff.mpr ⟨scope, hscope, rfl⟩⟩
  · intro groups hgroups
    obtain ⟨scope, hscope, rfl⟩ := generateAll_eq_ok_iff.mp hgroups
    refine ⟨scope, hscope, rfl, List.forall_mem_map.mpr fun kind _ rule hrule => ?_⟩
    exact subject_of_mem_groupOf hrule
  · intro fault hfault
    obtain ⟨reason, hrender, hscope⟩ := generateAll_eq_error_iff.mp hfault
    refine ⟨reason, hrender, hscope, ?_⟩
    rcases Scope.parse_cases team environment entity with ⟨_, hok, -⟩ | ⟨first, herror, hfirst⟩
    · exact nomatch hscope.symm.trans hok
    · obtain rfl : first = reason := Except.error.inj (herror.symm.trans hscope)
      exact hfirst
  · intro role reason hdecode
    obtain ⟨_, hrender, -⟩ := generateAll_eq_error_iff.mp hdecode
    exact nomatch hrender
  · intro kind role reason hdecode
    obtain ⟨_, hrender, -⟩ := generate_eq_error_iff.mp hdecode
    exact nomatch hrender

theorem generateAll_all_or_nothing_in_team :
    (∃ groups scope, generateAll "Dev" "app.1" " QA " = .ok groups ∧
      Scope.parse "Dev" " QA " "app.1" = .ok scope ∧
      groups.map RuleGroup.role =
        [⟨.manager, scope⟩, ⟨.admin, scope⟩, ⟨.trigger, scope⟩, ⟨.view, scope⟩]) ∧
    ∃ reason, generateAll "dev" "a/b" "a_b" = .error (.render .manager reason) ∧
      FirstFault reason [(.team, "dev"), (.environment, "a_b"), (.entity, "a/b")] := by
  constructor
  · have hscope : ∃ scope, Scope.parse "Dev" " QA " "app.1" = .ok scope := ⟨_, by rfl⟩
    obtain ⟨groups, hgroups⟩ := (generateAll_all_or_nothing "Dev" "app.1" " QA ").1.mpr hscope
    obtain ⟨scope, hread, hroles, -⟩ :=
      (generateAll_all_or_nothing "Dev" "app.1" " QA ").2.1 groups hgroups
    exact ⟨groups, scope, hgroups, hread, hroles⟩
  · have herror : generateAll "dev" "a/b" "a_b" =
        .error (.render .manager (.nameCharacters .environment)) := by
      rfl
    obtain ⟨reason, hrender, -, hfirst⟩ :=
      (generateAll_all_or_nothing "dev" "a/b" "a_b").2.2.1 _ herror
    exact ⟨reason, herror.trans (congrArg _ hrender), hfirst⟩

end DefaultRules

end ScopedAccess
