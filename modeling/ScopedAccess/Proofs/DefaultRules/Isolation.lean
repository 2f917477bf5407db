import ScopedAccess.Proofs.DefaultRules.Template
import ScopedAccess.Proofs.Gate.Mediation
import ScopedAccess.Proofs.Write.Outcome

/-!
# Default roles stay in their scope

While only default rules are installed, every stored rule is a default rule of its own subject,
whatever store calls fail (`FallibleStore.AllDefault`). So whoever is allowed something is in a role
that permits it and whose scope the object fits (`allowed_within_scope`).
-/

namespace ScopedAccess

/-! ## Default rules -/

/-- The rule is one of the default rules of its subject. -/
def PolicyRule.IsDefault (rule : PolicyRule) : Prop :=
  ∃ entry ∈ DefaultRules.template rule.subject.kind, entry.render rule.subject = rule

theorem PolicyRule.IsDefault.of_grants {rule : PolicyRule} (h : rule.IsDefault)
    {resource : Resource} {action : Action} {object : ObjectPath}
    (hgrants : rule.grants resource action object = true) :
    rule.subject.kind.permits resource action = true ∧
      rule.subject.scope.Fits object resource := by
  obtain ⟨entry, hentry, hrender⟩ := h
  refine DefaultRules.grants_template_iff.mp ⟨entry, hentry, ?_⟩
  rwa [hrender]

theorem DefaultRules.isDefault_of_mem_groupOf {role : RoleSubject} {rule : PolicyRule}
    (h : rule ∈ (groupOf role).rules) : rule.IsDefault := by
  obtain ⟨entry, hentry, rfl⟩ := List.mem_map.mp h
  exact ⟨entry, hentry, rfl⟩

theorem DefaultRules.isDefault_of_generateAll {team entity environment : String}
    {groups : List RuleGroup} (h : generateAll team entity environment = .ok groups) :
    ∀ rule ∈ groups.flatMap RuleGroup.installable, rule.IsDefault := by
  rw [generateAll_eq] at h
  split at h
  · next scope _ =>
      cases h
      intro rule hrule
      obtain ⟨group, hgroup, hmem⟩ := List.mem_flatMap.mp hrule
      obtain ⟨kind, -, rfl⟩ := List.mem_map.mp hgroup
      exact isDefault_of_mem_groupOf (List.mem_of_mem_filter hmem)
  · exact nomatch h

/-! ## Stores of default rules -/

def RuleSet.AllDefault (rules : RuleSet) : Prop :=
  ∀ rule, rules.HasPolicy rule → rule.IsDefault

def Change.KeepsDefault (change : Change) : Prop :=
  ∀ rule, change = .addPolicy rule → rule.IsDefault

theorem RuleSet.allDefault_empty : RuleSet.empty.AllDefault := by
  intro rule hrule
  simp [HasPolicy] at hrule

theorem RuleSet.AllDefault.change {rules : RuleSet} (h : rules.AllDefault) {change : Change}
    (hchange : change.KeepsDefault) : (rules.change change).AllDefault := by
  cases change with
  | addPolicy added =>
      intro rule hrule
      rcases hasPolicy_addPolicy.mp hrule with hold | rfl
      · exact h rule hold
      · exact hchange rule rfl
  | addGrouping added => exact h
  | removeGrouping removed => exact h

theorem RuleSet.AllDefault.replay {rules : RuleSet} (h : rules.AllDefault)
    {changes : List Change} (hchanges : ∀ change ∈ changes, change.KeepsDefault) :
    (rules.replay changes).AllDefault := by
  induction changes generalizing rules with
  | nil => exact h
  | cons change rest ih =>
      have hfirst : (rules.change change).AllDefault := h.change (hchanges _ List.mem_cons_self)
      exact ih hfirst fun other hmem => hchanges other (List.mem_cons_of_mem _ hmem)

/-- In all three places there are default rules only, and nobody else is about to change them. -/
structure FallibleStore.AllDefault (fallible : FallibleStore) : Prop where
  quiet : fallible.interference = none
  staged : fallible.store.staged.AllDefault
  persisted : fallible.store.persisted.AllDefault
  loaded : ∀ snapshot, fallible.store.loaded = some snapshot → snapshot.rules.AllDefault

namespace FallibleStore

variable {fallible : FallibleStore}

theorem AllDefault.load (h : fallible.AllDefault) : fallible.load.2.AllDefault := by
  rcases fallible.load_cases with ⟨message, failures, hload⟩ | ⟨failures, hload⟩
  · rw [hload]
    exact ⟨h.quiet, h.staged, h.persisted, h.loaded⟩
  · rw [hload]
    refine ⟨h.quiet, h.persisted, h.persisted, fun snapshot hloaded => ?_⟩
    cases hloaded
    exact h.persisted

theorem AllDefault.save (h : fallible.AllDefault) : fallible.save.2.AllDefault := by
  rcases fallible.save_cases with ⟨message, failures, hsave⟩ | ⟨failures, hsave⟩
  · rw [hsave]
    exact ⟨h.quiet, h.staged, h.persisted, h.loaded⟩
  · rw [hsave]
    exact ⟨h.quiet, h.staged, h.staged, h.loaded⟩

theorem AllDefault.view (h : fallible.AllDefault) : fallible.view.2.AllDefault := by
  rw [view_snd_of_quiet h.quiet]
  exact ⟨h.quiet, h.staged, h.persisted, h.loaded⟩

/-- Staging may stop at any change, and the changes before it are kept. -/
theorem AllDefault.stageAll (h : fallible.AllDefault) {changes : List Change}
    (hchanges : ∀ change ∈ changes, change.KeepsDefault) :
    (Enforcer.stageAll stage changes fallible).2.AllDefault := by
  rw [stageAll_eq]
  cases ArmedFailure.strikeAll (changes.map Change.call) fallible.failures with
  | mk first left =>
      cases first with
      | some first =>
          have hearlier : ∀ change ∈ changes.take first.1, change.KeepsDefault :=
            fun change hmem => hchanges change (List.mem_of_mem_take hmem)
          exact ⟨h.quiet, h.staged.replay hearlier, h.persisted, h.loaded⟩
      | none => exact ⟨h.quiet, h.staged.replay hchanges, h.persisted, h.loaded⟩

theorem AllDefault.submit (h : fallible.AllDefault) {changes : List Change}
    (hchanges : ∀ change ∈ changes, change.KeepsDefault) :
    (fallible.submit changes).2.AllDefault := by
  have hstaged := h.stageAll hchanges
  unfold FallibleStore.submit
  split
  · next hall => rwa [hall] at hstaged
  · next store hall =>
      rw [hall] at hstaged
      have hsaved : store.save.2.AllDefault := hstaged.save
      split <;> next hsave => rwa [hsave] at hsaved

end FallibleStore

/-! ## What a check allows -/

namespace Enforcer

variable {enforcer : Enforcer} {time : Timing} {email : Email} {resource : Resource}
  {action : Action} {object : ObjectPath}

/-- A check of some kind, made now, allows the email to do the action to the object. -/
inductive Allowed (enforcer : Enforcer) (time : Timing) (email : Email) (resource : Resource)
    (action : Action) (object : ObjectPath) : Prop where
  | decided (decision : (enforcer.authorize time email resource action object).1 = .ok .allow)
  | checked {emailText resourceText actionText objectText : String}
      (reads : parseRequest emailText resourceText actionText = .ok (email, resource, action))
      (path : .parse objectText = object)
      (answer : (enforcer.check time emailText resourceText actionText objectText).1 = true)
  | enforced {token resourceText actionText objectText : String}
      (known : enforcer.identity.StandsFor token email)
      (reads : Resource.parse resourceText = .ok resource ∧ Action.parse actionText = .ok action)
      (path : .parse objectText = object)
      (answer : (enforcer.enforce time token resourceText actionText objectText).1 = true)
  | inBatch {emailText resourceText actionText : String} {objects : List String}
      (reads : parseRequest emailText resourceText actionText = .ok (email, resource, action))
      (answer : (object, true) ∈
        (enforcer.checkBatch time emailText resourceText actionText objects).1)
  | passed {request : Gate.Request} {token objectText : String}
      (carries : Gate.Carries request.headers token)
      (known : enforcer.identity.StandsFor token email)
      (asks : request.resource = resource ∧ request.action = action)
      (set : request.object = some objectText) (path : .parse objectText = object)
      (reached : (Gate.handle enforcer time request).1.reached = true)

theorem authorize_of_check {emailText resourceText actionText objectText : String}
    (hreads : parseRequest emailText resourceText actionText = .ok (email, resource, action))
    (h : (enforcer.check time emailText resourceText actionText objectText).1 = true) :
    (enforcer.authorize time email resource action (.parse objectText)).1 = .ok .allow := by
  obtain ⟨hemail, hresource, haction⟩ := parseRequest_eq_ok_iff.mp hreads
  obtain ⟨e, r, a, he, hr, ha, hauthorize⟩ := (check_eq_true_iff _ _ _ _ _ _).mp h
  obtain rfl : e = email := Except.ok.inj (he.symm.trans hemail)
  obtain rfl : r = resource := Except.ok.inj (hr.symm.trans hresource)
  obtain rfl : a = action := Except.ok.inj (ha.symm.trans haction)
  exact hauthorize

theorem authorize_of_checkBatch {emailText resourceText actionText : String}
    {objects : List String}
    (hreads : parseRequest emailText resourceText actionText = .ok (email, resource, action))
    (h : (object, true) ∈
      (enforcer.checkBatch time emailText resourceText actionText objects).1) :
    (enforcer.authorize time email resource action object).1 = .ok .allow := by
  unfold checkBatch batchRules at h
  simp only [hreads, List.mem_map] at h
  obtain ⟨asked, -, hasked⟩ := h
  obtain ⟨rfl, hallowed⟩ := Prod.mk.inj hasked
  unfold authorize
  cases hrules : enforcer.effectiveRules time email with
  | mk found after =>
      rw [hrules] at hallowed
      cases found with
      | error error => exact nomatch hallowed
      | ok rules =>
          dsimp only [Except.map] at hallowed ⊢
          cases hdecision : Decision.ofRules rules resource action asked with
          | allow => rfl
          | deny =>
              rw [hdecision] at hallowed
              exact nomatch hallowed

theorem Allowed.authorize (h : enforcer.Allowed time email resource action object) :
    (enforcer.authorize time email resource action object).1 = .ok .allow := by
  cases h with
  | decided decision => exact decision
  | checked reads path answer => exact path ▸ authorize_of_check reads answer
  | enforced known reads path answer =>
      obtain ⟨caller, hcaller, hcheck⟩ := enforce_eq_true_iff.mp answer
      obtain rfl : caller = email := Option.some.inj
        ((Identity.resolve_eq_some_iff.mpr hcaller).symm.trans
          (Identity.resolve_eq_some_iff.mpr known))
      have hreads := parseRequest_eq_ok_iff.mpr ⟨caller.parse_text, reads.1, reads.2⟩
      exact path ▸ authorize_of_check hreads hcheck
  | inBatch reads answer => exact authorize_of_checkBatch reads answer
  | passed carries known asks set path reached =>
      obtain ⟨rfl, rfl⟩ := asks
      rw [Gate.handle_of_set carries known set] at reached
      split at reached
      · next hallowed => exact path ▸ hallowed
      · exact nomatch reached

end Enforcer

theorem Snapshot.Allows.within {snapshot : Snapshot} {settings : Settings} {email : Email}
    {resource : Resource} {action : Action} {object : ObjectPath}
    (h : snapshot.Allows settings email resource action object)
    (hdefault : snapshot.rules.AllDefault) :
    ∃ role, snapshot.IsIn settings email role ∧ role.kind.permits resource action = true ∧
      role.scope.Fits object resource := by
  obtain ⟨role, hrole, rule, hrule, hgrants⟩ := h
  obtain ⟨hpolicy, hsubject⟩ := RuleSet.mem_rulesOf_iff.mp hrule
  have hwithin := (hdefault rule hpolicy).of_grants (PolicyRule.grants_iff.mpr hgrants)
  rw [hsubject] at hwithin
  exact ⟨role, hrole, hwithin⟩

namespace Session

/-! ## Runs that install default rules only -/

/-- The steps that install no rules of their own, and work on the store and the cache only
through the enforcer. -/
def Step.keepsDefault : Step → Bool
  | .install _ => false
  | .cacheSet _ _ => false
  | step => !step.isForeign

variable {session : Session} {time : Timing} {step : Step}

theorem Step.isForeign_of_keepsDefault (h : step.keepsDefault = true) :
    step.isForeign = false := by
  cases step with
  | storeAddPolicy _ | storeAddGrouping _ | storeRemoveGrouping _ | storeSave | storeLoad
  | interfere _ => exact nomatch h
  | _ => rfl

theorem Step.writesCache_of_keepsDefault (h : step.keepsDefault = true) :
    step.writesCache = false := by
  cases step with
  | cacheSet _ _ => exact nomatch h
  | _ => rfl

theorem keepsDefault_of_changes {changes : List Change} (hstep : step.keepsDefault = true)
    (h : step.changes? = some changes) : ∀ change ∈ changes, change.KeepsDefault := by
  cases step with
  | installDefaults team entity environment =>
      unfold Step.changes? at h
      cases hgenerate : DefaultRules.generateAll team entity environment with
      | error fault => simp [hgenerate] at h
      | ok groups =>
          simp only [hgenerate, Option.some.injEq] at h
          subst h
          rw [List.forall_mem_map]
          intro rule hrule added hadded
          cases hadded
          exact DefaultRules.isDefault_of_generateAll hgenerate rule hrule
  | install groups => exact nomatch hstep
  | addGroupings rules | removeGroupings rules =>
      cases h
      rw [List.forall_mem_map]
      exact fun rule _ added hadded => nomatch hadded
  | assign email role =>
      cases h
      rw [List.forall_mem_singleton]
      exact fun added hadded => nomatch hadded
  | _ => exact nomatch h

theorem allDefault_step (h : session.enforcer.store.AllDefault)
    (hstep : step.keepsDefault = true) :
    (session.step time step).2.enforcer.store.AllDefault := by
  have hleaves := session.leaves_step time step
  generalize (session.step time step).2.enforcer = after at hleaves ⊢
  cases hleaves with
  | write changes hchanges =>
      rw [Enforcer.store_write]
      exact (h.submit (keepsDefault_of_changes hstep hchanges)).load
  | reload hnone =>
      rw [Enforcer.store_reload]
      exact h.load
  | look hnone email =>
      obtain ⟨cache, hafter⟩ := session.enforcer.effectiveRules_snd time email
      rw [hafter]
      exact h.view
  | rest hnone cache identity => exact h
  | arm failure harm => exact ⟨h.quiet, h.staged, h.persisted, h.loaded⟩
  | foreign hforeign store =>
      -- the run leaves out the steps behind the enforcer's back
      have hnot : step.isForeign = false := Step.isForeign_of_keepsDefault hstep
      exact nomatch hnot.symm.trans hforeign

theorem allDefault_run (h : session.enforcer.store.AllDefault) {steps : List (Timing × Step)}
    (hsteps : ∀ timed ∈ steps, timed.2.keepsDefault = true) :
    (session.run steps).2.enforcer.store.AllDefault := by
  induction steps generalizing session with
  | nil => exact h
  | cons timed rest ih =>
      have hfirst : (session.step timed.1 timed.2).2.enforcer.store.AllDefault :=
        allDefault_step h (hsteps timed List.mem_cons_self)
      exact ih hfirst fun other hmem => hsteps other (List.mem_cons_of_mem _ hmem)

/-- While default rules are the only ones that are installed, an email is allowed an action on an
object only in some role that it is in, of a kind that permits the action on the resource and of a
scope that the object fits. So an email whose roles are all of one team is allowed something on
applications of that team only. -/
theorem allowed_within_scope (config : Config) (build : Build) (identity : Identity)
    (steps : List (Timing × Step)) (hsteps : ∀ timed ∈ steps, timed.2.keepsDefault = true)
    (time : Timing) (email : Email) (resource : Resource) (action : Action) (object : ObjectPath)
    (hallowed : ((ofConfig config build identity).run steps).2.enforcer.Allowed time email
      resource action object) :
    ∃ snapshot, ((ofConfig config build identity).run steps).2.enforcer.store.store.loaded =
        some snapshot ∧
      (∃ role, snapshot.IsIn config.toSettings email role ∧
        role.kind.permits resource action = true ∧ role.scope.Fits object resource) ∧
      ∀ team, team ≠ "" →
        (∀ role, snapshot.IsIn config.toSettings email role → role.scope.team.text = team) →
        resource = .applications → ∃ entity, object.segments = [team, entity] := by
  have hempty : (ofConfig config build identity).enforcer.store.AllDefault := by
    cases build <;>
      exact ⟨rfl, RuleSet.allDefault_empty, RuleSet.allDefault_empty, fun _ h => nomatch h⟩
  have hsound := cacheSound_run config build identity steps fun _ timed hmem =>
    Step.writesCache_of_keepsDefault (hsteps timed hmem)
  have hdefault := allDefault_run hempty hsteps
  obtain ⟨snapshot, htake, hiff⟩ := hsound.decision_iff hallowed.authorize
  rw [settings_run_ofConfig] at hiff
  have hloaded := (Enforcer.takeView_spec _).2 snapshot htake
  obtain ⟨role, hrole, hpermits, hfits⟩ :=
    (hiff.mp rfl).within (hdefault.loaded snapshot hloaded)
  refine ⟨snapshot, hloaded, ⟨role, hrole, hpermits, hfits⟩, ?_⟩
  rintro team hteam hall rfl
  obtain ⟨first, entity, hsegments, hfirst, -⟩ := hfits
  have hrole_team : role.scope.team.text = team := hall role hrole
  rcases hfirst with hblank | hsame
  · exact absurd (hrole_team.symm.trans hblank) hteam
  · exact ⟨entity, by rw [hsegments, hsame, hrole_team]⟩

theorem allowed_within_scope_of_viewer :
    let email : Email := ⟨"a@b", by decide, by decide, by decide⟩
    let viewer : RoleSubject :=
      ⟨.view, ⟨⟨"dev", by decide, by decide⟩, .every, ⟨"demo", by decide, by decide⟩⟩⟩
    let steps := clocked [.arm ⟨.addPolicy, 3, "busy"⟩, .installDefaults "dev" "demo" "",
      .installDefaults "dev" "demo" "", .assign email viewer]
    let enforcer := ((ofConfig {} .cached none).run steps).2.enforcer
    (∀ timed ∈ steps, timed.2.keepsDefault = true) ∧
      enforcer.Allowed ⟨4, 4⟩ email .applications .get (.parse "dev/demo") ∧
      ∃ snapshot, enforcer.store.store.loaded = some snapshot ∧
        ∃ role, snapshot.IsIn {} email role ∧ role.kind.permits .applications .get = true ∧
          role.scope.Fits (.parse "dev/demo") .applications := by
  intro email viewer steps enforcer
  have hsteps : ∀ timed ∈ steps, timed.2.keepsDefault = true := by decide
  have hdecision : (enforcer.authorize ⟨4, 4⟩ email .applications .get (.parse "dev/demo")).1 =
      .ok .allow := by
    dsimp only [enforcer, steps, viewer, email]
    cbv
  obtain ⟨snapshot, hloaded, hrole, -⟩ := allowed_within_scope {} .cached none steps hsteps ⟨4, 4⟩
    email .applications .get (.parse "dev/demo") (.decided hdecision)
  have henforcer : ((ofConfig {} .cached none).run steps).2.enforcer = enforcer := rfl
  rw [henforcer] at hloaded
  exact ⟨hsteps, .decided hdecision, snapshot, hloaded, hrole⟩

end Session

end ScopedAccess
