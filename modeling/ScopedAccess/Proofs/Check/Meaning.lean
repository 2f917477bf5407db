import Mathlib
import ScopedAccess.Proofs.Cache.Transparency
import ScopedAccess.Proofs.Hierarchy.Expansion
import ScopedAccess.Proofs.Session.Effects

/-!
# What a check means

A decision allows exactly the requests that some rule grants whose role the email is in, in the one
snapshot that is viewed (`decision_iff_allows`). Whatever form a check has, its answer is read off
the decisions of one email (`Session.answer_eq_of_decidesAs`).
-/

namespace ScopedAccess

/-! ## Snapshots -/

theorem PolicyRule.grants_iff {rule : PolicyRule} {resource : Resource} {action : Action}
    {object : ObjectPath} :
    rule.grants resource action object = true ↔
      rule.resource = resource ∧ (rule.action = action ∨ rule.action = .any) ∧
        rule.object.covers object = true := by
  have heffect : rule.effect = .allow := by
    cases rule.effect
    rfl
  simp only [grants, Action.covers, heffect, decide_true, Bool.true_and, Bool.and_eq_true,
    Bool.or_eq_true, decide_eq_true_eq, and_assoc]
  rw [or_comm]

theorem Decision.ofRules_eq_allow_iff {rules : List PolicyRule} {resource : Resource}
    {action : Action} {object : ObjectPath} :
    ofRules rules resource action object = .allow ↔
      ∃ rule ∈ rules, rule.grants resource action object = true := by
  unfold ofRules
  split
  · next hany => simpa using hany
  · next hnone => simpa using hnone

namespace Snapshot

variable {snapshot : Snapshot} {settings : Settings} {email : Email}

/-- The email is in the role directly or, if that is to be followed, through other roles. -/
def IsIn (snapshot : Snapshot) (settings : Settings) (email : Email) (role : RoleSubject) : Prop :=
  ∃ first ∈ snapshot.userRoles email,
    if settings.followRoles then snapshot.hierarchy.Reaches first role else role = first

/-- Some rule of a role that the email is in is about the resource, about the action or all
actions, and about an object that covers the object. -/
def Allows (snapshot : Snapshot) (settings : Settings) (email : Email) (resource : Resource)
    (action : Action) (object : ObjectPath) : Prop :=
  ∃ role, snapshot.IsIn settings email role ∧ ∃ rule ∈ snapshot.rulesOf role,
    rule.resource = resource ∧ (rule.action = action ∨ rule.action = .any) ∧
      rule.object.covers object = true

theorem mem_effectiveRoles_iff {roles : List RoleSubject}
    (h : snapshot.effectiveRoles settings email = .ok roles) {role : RoleSubject} :
    role ∈ roles ↔ snapshot.IsIn settings email role := by
  unfold effectiveRoles at h
  unfold IsIn
  by_cases hfollow : settings.followRoles = true
  · simp only [if_pos hfollow] at h ⊢
    split at h
    · next hexpand =>
        cases h
        exact Hierarchy.mem_expand_iff hexpand
    · exact nomatch h
    · exact nomatch h
  · simp only [if_neg hfollow] at h ⊢
    cases h
    constructor
    · exact fun hmem => ⟨role, hmem, rfl⟩
    · rintro ⟨first, hfirst, rfl⟩
      exact hfirst

theorem mem_effectiveRules_iff {rules : List PolicyRule}
    (h : snapshot.effectiveRules settings email = .ok rules) {rule : PolicyRule} :
    rule ∈ rules ↔ ∃ role, snapshot.IsIn settings email role ∧ rule ∈ snapshot.rulesOf role := by
  unfold effectiveRules at h
  cases hroles : snapshot.effectiveRoles settings email with
  | error error =>
      rw [hroles] at h
      exact nomatch h
  | ok roles =>
      rw [hroles] at h
      cases h
      simp only [List.mem_flatMap, mem_effectiveRoles_iff hroles]

theorem ofRules_eq_allow_iff {rules : List PolicyRule}
    (h : snapshot.effectiveRules settings email = .ok rules) {resource : Resource}
    {action : Action} {object : ObjectPath} :
    Decision.ofRules rules resource action object = .allow ↔
      snapshot.Allows settings email resource action object := by
  rw [Decision.ofRules_eq_allow_iff]
  constructor
  · rintro ⟨rule, hmem, hgrants⟩
    obtain ⟨role, hrole, hrule⟩ := (mem_effectiveRules_iff h).mp hmem
    exact ⟨role, hrole, rule, hrule, PolicyRule.grants_iff.mp hgrants⟩
  · rintro ⟨role, hrole, rule, hrule, hgrants⟩
    have hmem : rule ∈ rules := (mem_effectiveRules_iff h).mpr ⟨role, hrole, hrule⟩
    exact ⟨rule, hmem, PolicyRule.grants_iff.mpr hgrants⟩

end Snapshot

/-! ## Enforcers -/

namespace Enforcer

variable {enforcer : Enforcer}

/-- With a sound cache, a decision is about the rules that the view taken now gives. -/
theorem CacheSound.decision_iff (h : enforcer.CacheSound) {time : Timing} {email : Email}
    {resource : Resource} {action : Action} {object : ObjectPath} {decision : Decision}
    (hdecision : (enforcer.authorize time email resource action object).1 = .ok decision) :
    ∃ snapshot, enforcer.takeView.1 = .ok snapshot ∧
      (decision = .allow ↔
        snapshot.Allows enforcer.settings email resource action object) := by
  have hrules := (h.effectiveRules time email).1
  unfold authorize at hdecision
  dsimp only at hdecision
  rw [hrules] at hdecision
  cases htake : enforcer.takeView.1 with
  | error error =>
      rw [htake] at hdecision
      exact nomatch hdecision
  | ok snapshot =>
      rw [htake] at hdecision
      simp only [Except.bind] at hdecision
      cases hfound : snapshot.effectiveRules enforcer.settings email with
      | error error =>
          rw [hfound] at hdecision
          exact nomatch hdecision
      | ok rules =>
          rw [hfound] at hdecision
          cases hdecision
          exact ⟨snapshot, rfl, Snapshot.ofRules_eq_allow_iff hfound⟩

theorem parseRequest_eq_ok_iff {email resource action : String} {e : Email} {r : Resource}
    {a : Action} :
    parseRequest email resource action = .ok (e, r, a) ↔
      Email.parse email = .ok e ∧ Resource.parse resource = .ok r ∧
        Action.parse action = .ok a := by
  unfold parseRequest
  cases Email.parse email <;> cases Resource.parse resource <;> cases Action.parse action <;>
    simp [Except.mapError, bind, Except.bind, pure, Except.pure]

theorem check_eq_true_iff (enforcer : Enforcer) (time : Timing)
    (email resource action object : String) :
    (enforcer.check time email resource action object).1 = true ↔
      ∃ e r a, Email.parse email = .ok e ∧ Resource.parse resource = .ok r ∧
        Action.parse action = .ok a ∧
        (enforcer.authorize time e r a (.parse object)).1 = .ok .allow := by
  unfold check
  cases hparse : parseRequest email resource action with
  | error error =>
      constructor
      · intro hallowed
        exact nomatch hallowed
      · rintro ⟨e, r, a, he, hr, ha, -⟩
        have hok := parseRequest_eq_ok_iff.mpr ⟨he, hr, ha⟩
        rw [hparse] at hok
        exact nomatch hok
  | ok parsed =>
      obtain ⟨e, r, a⟩ := parsed
      obtain ⟨he, hr, ha⟩ := parseRequest_eq_ok_iff.mp hparse
      dsimp only
      constructor
      · intro hallowed
        have hauthorize : (enforcer.authorize time e r a (.parse object)).1 = .ok .allow := by
          split at hallowed
          · next decision after hauthorize =>
              rw [hauthorize]
              cases decision with
              | allow => rfl
              | deny => exact nomatch hallowed
          · exact nomatch hallowed
        exact ⟨e, r, a, he, hr, ha, hauthorize⟩
      · rintro ⟨e', r', a', he', hr', ha', hauthorize⟩
        obtain rfl : e' = e := Except.ok.inj (he'.symm.trans he)
        obtain rfl : r' = r := Except.ok.inj (hr'.symm.trans hr)
        obtain rfl : a' = a := Except.ok.inj (ha'.symm.trans ha)
        generalize enforcer.authorize time e' r' a' (.parse object) = done at hauthorize ⊢
        obtain ⟨decision, after⟩ := done
        cases hauthorize
        rfl

end Enforcer

namespace Session

/-- In every session that writes nothing into its cache itself, a decision that is made is to
allow if and only if the snapshot that the check has viewed allows the request; and a check on
texts allows if and only if they can be read and the decision on them is made and is to allow. -/
theorem decision_iff_allows (config : Config) (build : Build) (identity : Identity)
    (steps : List (Timing × Step))
    (hforeign : build = .observed → ∀ timed ∈ steps, timed.2.writesCache = false)
    (time : Timing) :
    (∀ email resource action object decision,
      (((ofConfig config build identity).run steps).2.enforcer.authorize time email resource
        action object).1 = .ok decision →
      ∃ snapshot,
        ((ofConfig config build identity).run steps).2.enforcer.takeView.1 = .ok snapshot ∧
        (decision = .allow ↔
          snapshot.Allows config.toSettings email resource action object)) ∧
    ∀ email resource action object : String,
      (((ofConfig config build identity).run steps).2.enforcer.check time email resource action
        object).1 = true ↔
      ∃ e r a, Email.parse email = .ok e ∧ Resource.parse resource = .ok r ∧
        Action.parse action = .ok a ∧
        (((ofConfig config build identity).run steps).2.enforcer.authorize time e r a
          (.parse object)).1 = .ok .allow := by
  have hstart : (ofConfig config build identity).enforcer.CacheSound := by
    unfold ofConfig
    dsimp only
    split
    · exact Enforcer.cacheSound_uncached _
    · exact Enforcer.cacheSound_ofConfig config identity
  have hsettings : (ofConfig config build identity).enforcer.settings = config.toSettings := by
    cases build <;> rfl
  have hsound := (uncached_run _ steps hstart hforeign).1
  constructor
  · intro email resource action object decision hdecision
    rw [← hsettings, ← settings_run _ steps]
    exact hsound.decision_iff hdecision
  · intro email resource action object
    exact Enforcer.check_eq_true_iff _ time email resource action object

theorem decision_iff_allows_through_roles :
    let email : Email := ⟨"a@b", by decide, by decide, by decide⟩
    let steps : List (Timing × Step) := clocked
      [.addGroupings [⟨.user email, ⟨.view, .every⟩⟩, ⟨.role ⟨.view, .every⟩, ⟨.admin, .every⟩⟩],
        .install [⟨⟨.admin, .every⟩, [⟨⟨.admin, .every⟩, .team, .any, .parse "dev", .allow⟩]⟩]]
    let enforcer := ((ofConfig {} .observed none).run steps).2.enforcer
    (∀ timed ∈ steps, timed.2.writesCache = false) ∧
      (enforcer.authorize ⟨2, 2⟩ email .team .get (.parse "dev")).1 = .ok .allow ∧
      ∃ snapshot, enforcer.takeView.1 = .ok snapshot ∧
        snapshot.Allows {} email .team .get (.parse "dev") := by
  intro email steps enforcer
  have hforeign : ∀ timed ∈ steps, timed.2.writesCache = false := by decide
  have hdecision : (enforcer.authorize ⟨2, 2⟩ email .team .get (.parse "dev")).1 = .ok .allow := by
    dsimp only [enforcer, steps, email]
    cbv
  obtain ⟨snapshot, htake, hiff⟩ := (decision_iff_allows {} .observed none steps
    (fun _ => hforeign) ⟨2, 2⟩).1 email .team .get (.parse "dev") .allow hdecision
  exact ⟨hforeign, hdecision, snapshot, htake, hiff.mp rfl⟩

end Session

namespace Enforcer

/-! ## Answers are read off decisions -/

def permits (enforcer : Enforcer) (time : Timing) (email resource action : String)
    (object : ObjectPath) : Bool :=
  match parseRequest email resource action with
  | .error _ => false
  | .ok (email, resource, action) =>
      match (enforcer.authorize time email resource action object).1 with
      | .ok decision => decision.isAllowed
      | .error _ => false

variable (enforcer : Enforcer) (time : Timing)

theorem check_fst (email resource action object : String) :
    (enforcer.check time email resource action object).1 =
      enforcer.permits time email resource action (.parse object) := by
  unfold check permits
  cases parseRequest email resource action with
  | error error => rfl
  | ok parsed =>
      obtain ⟨e, r, a⟩ := parsed
      dsimp only
      cases enforcer.authorize time e r a (.parse object) with
      | mk decision after => cases decision <;> rfl

theorem checkBatch_fst (email resource action : String) (objects : List String) :
    (enforcer.checkBatch time email resource action objects).1 =
      (sortedDistinct (objects.map ObjectPath.parse)).map fun object =>
        (object, enforcer.permits time email resource action object) := by
  unfold checkBatch permits batchRules authorize
  cases parseRequest email resource action with
  | error error => rfl
  | ok parsed =>
      obtain ⟨e, r, a⟩ := parsed
      dsimp only
      cases enforcer.effectiveRules time e with
      | mk rules after => cases rules <;> rfl

theorem enforce_fst (token resource action object : String) :
    (enforcer.enforce time token resource action object).1 =
      match enforcer.resolve token with
      | none => false
      | some email => enforcer.permits time email.text resource action (.parse object) := by
  unfold enforce
  cases enforcer.resolve token with
  | none => rfl
  | some email => exact enforcer.check_fst time _ _ _ _

theorem handle_fst (request : Gate.Request) :
    (Gate.handle enforcer time request).1 =
      match Gate.token? request.headers with
      | none => .missingToken
      | some token =>
          match enforcer.resolve token with
          | none => .invalidToken
          | some caller =>
              match request.object with
              | none => .missingObject
              | some object =>
                  if enforcer.permits time caller.text request.resource.text request.action.text
                      (.parse object) then Gate.serve request caller
                  else .forbidden := by
  unfold Gate.handle
  cases Gate.token? request.headers with
  | none => rfl
  | some token =>
      dsimp only
      cases enforcer.resolve token with
      | none => rfl
      | some caller =>
          dsimp only
          cases request.object with
          | none => rfl
          | some object =>
              dsimp only
              rw [← check_fst]
              cases enforcer.check time caller.text request.resource.text request.action.text
                object with
              | mk allowed after => cases allowed <;> rfl

/-! ## Enforcers that decide alike -/

/-- All requests of the email have the same decision or the same error, whenever they are made, and
the tokens belong to the same emails. -/
structure DecidesAs (enforcer other : Enforcer) (email : Email) : Prop where
  identity_eq : other.identity = enforcer.identity
  authorize_eq : ∀ time time' resource action object,
    (other.authorize time' email resource action object).1 =
      (enforcer.authorize time email resource action object).1

variable {enforcer} {other : Enforcer} {email : Email}

theorem DecidesAs.permits_eq (h : enforcer.DecidesAs other email) (time time' : Timing)
    {text : String} (hparse : Email.parse text = .ok email) (resource action : String)
    (object : ObjectPath) :
    other.permits time' text resource action object =
      enforcer.permits time text resource action object := by
  unfold permits
  cases hrequest : parseRequest text resource action with
  | error error => rfl
  | ok parsed =>
      obtain ⟨e, r, a⟩ := parsed
      obtain rfl : e = email :=
        Except.ok.inj ((parseRequest_eq_ok_iff.mp hrequest).1.symm.trans hparse)
      dsimp only
      rw [h.authorize_eq time time' r a object]

theorem permits_eq_of_decidesAs (h : ∀ email, enforcer.DecidesAs other email) (time time' : Timing)
    (text resource action : String) (object : ObjectPath) :
    other.permits time' text resource action object =
      enforcer.permits time text resource action object := by
  unfold permits
  cases parseRequest text resource action with
  | error error => rfl
  | ok parsed =>
      obtain ⟨e, r, a⟩ := parsed
      dsimp only
      rw [(h e).authorize_eq time time' r a object]

end Enforcer

namespace Session

def Step.AsksFor (identity : Identity) (email : Email) : Step → Prop
  | .authorize asked _ _ _ => asked = email
  | .check text _ _ _ => Email.parse text = .ok email
  | .checkBatch text _ _ _ => Email.parse text = .ok email
  | .enforce token _ _ _ => identity.resolve token = some email
  | .pass request =>
      ∃ token, Gate.token? request.headers = some token ∧ identity.resolve token = some email
  | _ => False

/-- Every answer about an email depends on nothing but the decisions of its requests. -/
theorem answer_eq_of_decidesAs {session other : Session} {email : Email}
    (h : session.enforcer.DecidesAs other.enforcer email) {time time' : Timing} {step : Step}
    (hasks : step.AsksFor session.enforcer.identity email) :
    (other.step time' step).1 = (session.step time step).1 := by
  have hresolve : ∀ token, other.enforcer.resolve token = session.enforcer.resolve token := by
    intro token
    rw [Enforcer.resolve, Enforcer.resolve, h.identity_eq]
  have htext : ∀ resource action object,
      other.enforcer.permits time' email.text resource action object =
        session.enforcer.permits time email.text resource action object :=
    h.permits_eq time time' email.parse_text
  cases step with
  | authorize asked resource action object =>
      obtain rfl : asked = email := hasks
      simp only [Session.step, h.authorize_eq time time']
  | check text resource action object =>
      simp only [Session.step, Enforcer.check_fst, h.permits_eq time time' hasks]
  | checkBatch text resource action objects =>
      simp only [Session.step, Enforcer.checkBatch_fst, h.permits_eq time time' hasks]
  | enforce token resource action object =>
      have hknown : session.enforcer.resolve token = some email := hasks
      simp only [Session.step, Enforcer.enforce_fst, hresolve, hknown, htext]
  | pass request =>
      obtain ⟨token, htoken, hknown⟩ := hasks
      have hknown : session.enforcer.resolve token = some email := hknown
      simp only [Session.step, Enforcer.handle_fst, htoken, hresolve, hknown, htext]
  | _ => exact hasks.elim

theorem answer_eq_of_forall_decidesAs {session other : Session}
    (hidentity : other.enforcer.identity = session.enforcer.identity)
    (h : ∀ email, session.enforcer.DecidesAs other.enforcer email) {time time' : Timing}
    {step : Step} (hcheck : step.isCheck = true) :
    (other.step time' step).1 = (session.step time step).1 := by
  have hresolve : ∀ token, other.enforcer.resolve token = session.enforcer.resolve token := by
    intro token
    rw [Enforcer.resolve, Enforcer.resolve, hidentity]
  have hpermits := Enforcer.permits_eq_of_decidesAs h time time'
  cases step with
  | authorize asked resource action object =>
      simp only [Session.step, (h asked).authorize_eq time time']
  | check text resource action object => simp only [Session.step, Enforcer.check_fst, hpermits]
  | checkBatch text resource action objects =>
      simp only [Session.step, Enforcer.checkBatch_fst, hpermits]
  | enforce token resource action object =>
      simp only [Session.step, Enforcer.enforce_fst, hresolve, hpermits]
  | pass request => simp only [Session.step, Enforcer.handle_fst, hresolve, hpermits]
  | _ => exact (Bool.false_ne_true hcheck).elim

end Session

end ScopedAccess
