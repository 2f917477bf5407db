import ScopedAccess.Proofs.Check.Meaning
import ScopedAccess.Proofs.Check.Reordering
import ScopedAccess.Proofs.Hierarchy.Comparison

/-!
# Access is local

What an email may do depends on its own roles, on the roles that these reach, and on the rules of
all of them (`AlikeFor.decision_eq`). A write that misses all of that changes no answer to the
email, whether it gets through or not (`answers_are_local`).
-/

namespace ScopedAccess

theorem Decision.ofRules_congr {rules rules' : List PolicyRule}
    (h : ∀ rule, rule ∈ rules' ↔ rule ∈ rules) (resource : Resource) (action : Action)
    (object : ObjectPath) :
    ofRules rules' resource action object = ofRules rules resource action object := by
  have hany : (rules'.any fun rule => rule.grants resource action object) =
      rules.any fun rule => rule.grants resource action object := by
    rw [Bool.eq_iff_iff]
    simp only [List.any_eq_true, h]
  simp only [ofRules, hany]

/-! ## Snapshots that are alike for an email -/

namespace Snapshot

/-- The email is in the role directly or through other roles. -/
def Reached (snapshot : Snapshot) (email : Email) (role : RoleSubject) : Prop :=
  snapshot.hierarchy.ReachedFrom (snapshot.userRoles email) role

/-- The other snapshot lists the same roles of the email and, for every role that the email reaches
in the first one, the same parents and in whatever order the same rules. -/
structure AlikeFor (snapshot other : Snapshot) (email : Email) : Prop where
  userRoles_eq : other.userRoles email = snapshot.userRoles email
  parentRoles_eq : ∀ role, snapshot.Reached email role →
    other.parentRoles role = snapshot.parentRoles role
  mem_rulesOf_iff : ∀ role, snapshot.Reached email role →
    ∀ rule, rule ∈ other.rulesOf role ↔ rule ∈ snapshot.rulesOf role

variable {snapshot other : Snapshot} {settings : Settings} {email : Email}

theorem IsIn.reached {role : RoleSubject} (h : snapshot.IsIn settings email role) :
    snapshot.Reached email role := by
  obtain ⟨first, hfirst, hreaches⟩ := h
  split at hreaches
  · exact ⟨first, hfirst, hreaches⟩
  · obtain rfl := hreaches
    exact Hierarchy.reachedFrom_of_mem hfirst

theorem AlikeFor.agreeFrom (h : snapshot.AlikeFor other email) :
    snapshot.hierarchy.AgreeFrom other.hierarchy (snapshot.userRoles email) :=
  h.parentRoles_eq

theorem effectiveRoles_eq_of_agree (huser : other.userRoles email = snapshot.userRoles email)
    (hagree : snapshot.hierarchy.AgreeFrom other.hierarchy (snapshot.userRoles email))
    (settings : Settings) :
    other.effectiveRoles settings email = snapshot.effectiveRoles settings email := by
  unfold effectiveRoles
  rw [huser, Hierarchy.expand_eq_of_agree hagree]

theorem AlikeFor.effectiveRoles_eq (h : snapshot.AlikeFor other email) (settings : Settings) :
    other.effectiveRoles settings email = snapshot.effectiveRoles settings email :=
  effectiveRoles_eq_of_agree h.userRoles_eq h.agreeFrom settings

/-- The same decision, or the same error about the same role. -/
theorem AlikeFor.decision_eq (h : snapshot.AlikeFor other email) (settings : Settings)
    (resource : Resource) (action : Action) (object : ObjectPath) :
    other.decision settings email resource action object =
      snapshot.decision settings email resource action object := by
  have hsame := h.effectiveRoles_eq settings
  cases hroles : snapshot.effectiveRoles settings email with
  | error error =>
      rw [hroles] at hsame
      rw [decision_of_effectiveRoles_error hroles, decision_of_effectiveRoles_error hsame]
  | ok roles =>
      rw [hroles] at hsame
      have hmem : ∀ rule, rule ∈ roles.flatMap other.rulesOf ↔
          rule ∈ roles.flatMap snapshot.rulesOf := by
        intro rule
        simp only [List.mem_flatMap]
        have hrole : ∀ role ∈ roles,
            (rule ∈ other.rulesOf role ↔ rule ∈ snapshot.rulesOf role) := by
          intro role hmem
          exact h.mem_rulesOf_iff role ((mem_effectiveRoles_iff hroles).mp hmem).reached rule
        exact exists_congr fun role => and_congr_right (hrole role)
      unfold Snapshot.decision effectiveRules
      rw [hroles, hsame]
      exact congrArg Except.ok (Decision.ofRules_congr hmem resource action object)

theorem AlikeFor.refl (snapshot : Snapshot) (email : Email) : snapshot.AlikeFor snapshot email :=
  ⟨rfl, fun _ _ => rfl, fun _ _ _ => Iff.rfl⟩

theorem alikeFor_of_readsAs {rules : RuleSet} (h : rules.ReadsAs snapshot.rules)
    (revision : Nat) (email : Email) : snapshot.AlikeFor ⟨revision, rules⟩ email := by
  refine ⟨h.rolesOf_eq (.user email), fun role _ => h.rolesOf_eq (.role role), ?_⟩
  intro role _ rule
  show rule ∈ rules.rulesOf role ↔ rule ∈ snapshot.rules.rulesOf role
  rw [h.rulesOf_eq role]

end Snapshot

/-! ## Changes that miss an email -/

namespace Change

def member? : Change → Option Member
  | .addPolicy _ => none
  | .addGrouping rule => some rule.member
  | .removeGrouping rule => some rule.member

def subject? : Change → Option RoleSubject
  | .addPolicy rule => some rule.subject
  | .addGrouping _ => none
  | .removeGrouping _ => none

/-- The change is not about the roles of the email, nor about the roles or rules of a role that the
email reaches. -/
structure Misses (snapshot : Snapshot) (email : Email) (change : Change) : Prop where
  user : change.member? ≠ some (.user email)
  members : ∀ role, snapshot.Reached email role → change.member? ≠ some (.role role)
  subjects : ∀ role, snapshot.Reached email role → change.subject? ≠ some role

end Change

namespace RuleSet

theorem rolesOf_change_of_ne {change : Change} {member : Member}
    (h : change.member? ≠ some member) (rules : RuleSet) :
    (rules.change change).rolesOf member = rules.rolesOf member := by
  cases change with
  | addPolicy rule => rfl
  | addGrouping rule =>
      have hother : member ≠ rule.member := fun heq => h (congrArg some heq.symm)
      rw [RuleSet.change, rolesOf_addGrouping, if_neg fun hnew => hother hnew.1]
  | removeGrouping rule =>
      have hother : member ≠ rule.member := fun heq => h (congrArg some heq.symm)
      rw [RuleSet.change, rolesOf_removeGrouping, if_neg hother]

theorem rulesOf_change_of_ne {change : Change} {role : RoleSubject}
    (h : change.subject? ≠ some role) (rules : RuleSet) :
    (rules.change change).rulesOf role = rules.rulesOf role := by
  cases change with
  | addPolicy rule =>
      have hother : role ≠ rule.subject := fun heq => h (congrArg some heq.symm)
      rw [RuleSet.change, rulesOf_addPolicy, if_neg fun hnew => hother hnew.1]
  | addGrouping rule => rfl
  | removeGrouping rule => rfl

end RuleSet

namespace Snapshot

variable {snapshot : Snapshot} {email : Email} {rules : RuleSet} {revision : Nat}

theorem AlikeFor.change (h : snapshot.AlikeFor ⟨revision, rules⟩ email) {change : Change}
    (hmisses : change.Misses snapshot email) :
    snapshot.AlikeFor ⟨revision, rules.change change⟩ email := by
  constructor
  case userRoles_eq => exact (RuleSet.rolesOf_change_of_ne hmisses.user rules).trans h.userRoles_eq
  case parentRoles_eq =>
    intro role hrole
    -- reach is meant in the first snapshot, which stays the same
    have hsame := RuleSet.rolesOf_change_of_ne (hmisses.members role hrole) rules
    exact hsame.trans (h.parentRoles_eq role hrole)
  case mem_rulesOf_iff =>
    intro role hrole rule
    have hsame := RuleSet.rulesOf_change_of_ne (hmisses.subjects role hrole) rules
    show rule ∈ (rules.change change).rulesOf role ↔ _
    rw [hsame]
    exact h.mem_rulesOf_iff role hrole rule

theorem AlikeFor.replay (h : snapshot.AlikeFor ⟨revision, rules⟩ email) {changes : List Change}
    (hmisses : ∀ change ∈ changes, change.Misses snapshot email) :
    snapshot.AlikeFor ⟨revision, rules.replay changes⟩ email := by
  induction changes generalizing rules with
  | nil => exact h
  | cons change rest ih =>
      have hchanged := h.change (hmisses change List.mem_cons_self)
      exact ih hchanged fun later hmem => hmisses later (List.mem_cons_of_mem _ hmem)

end Snapshot

/-! ## Writes and views -/

namespace ArmedFailure

theorem strike_of_ne {call other : StoreCall} (h : call ≠ other) (failures : List ArmedFailure) :
    (strike other (strike call failures).2).1 = (strike other failures).1 := by
  induction failures with
  | nil => rfl
  | cons failure rest ih =>
      by_cases hcall : failure.call = call
      · have hother : failure.call ≠ other := fun heq => h (hcall.symm.trans heq)
        cases hskip : failure.skip with
        | zero => simp [strike, hcall, hskip, h]
        | succ skip => simp [strike, hcall, hskip, h]
      · by_cases hother : failure.call = other
        · cases hskip : failure.skip <;> simp [strike, hother, hskip, h.symm]
        · simpa [strike, hcall, hother] using ih

theorem strike_strikeAll {calls : List StoreCall} {other : StoreCall} (h : other ∉ calls)
    (failures : List ArmedFailure) :
    (strike other (strikeAll calls failures).2).1 = (strike other failures).1 := by
  induction calls generalizing failures with
  | nil => rfl
  | cons call rest ih =>
      obtain ⟨hcall, hrest⟩ := not_or.mp (mt List.mem_cons.mpr h)
      have hfirst := strike_of_ne (Ne.symm hcall) failures
      unfold strikeAll
      cases hstrike : strike call failures with
      | mk message left =>
          rw [hstrike] at hfirst
          cases message with
          | some message => exact hfirst
          | none => exact (ih hrest left).trans hfirst

end ArmedFailure

namespace FallibleStore

def viewFailure (fallible : FallibleStore) : Option String :=
  (ArmedFailure.strike .view fallible.failures).1

theorem view_fst (fallible : FallibleStore) :
    fallible.view.1 =
      match fallible.viewFailure with
      | some message => .error message
      | none => .ok fallible.store.loaded := by
  unfold view attempt viewFailure
  cases ArmedFailure.strike .view fallible.failures with
  | mk message failures => cases message <;> rfl

theorem viewFailure_attempt {α : Type} {call : StoreCall} (h : call ≠ .view)
    (fallible : FallibleStore) (use : Store → α × Store) :
    (fallible.attempt call use).2.viewFailure = fallible.viewFailure := by
  have hstruck := ArmedFailure.strike_of_ne h fallible.failures
  unfold attempt viewFailure
  split <;> next hstrike => rwa [hstrike] at hstruck

theorem viewFailure_stageAll (changes : List Change) (fallible : FallibleStore) :
    (Enforcer.stageAll stage changes fallible).2.viewFailure = fallible.viewFailure := by
  have hcalls : StoreCall.view ∉ changes.map Change.call := by
    intro hmem
    obtain ⟨change, -, hcall⟩ := List.mem_map.mp hmem
    cases change <;> exact nomatch hcall
  have hstruck := ArmedFailure.strike_strikeAll hcalls fallible.failures
  rw [stageAll_eq]
  unfold viewFailure
  split <;> next hstrike => rwa [hstrike] at hstruck

theorem viewFailure_submit (changes : List Change) (fallible : FallibleStore) :
    (fallible.submit changes).2.viewFailure = fallible.viewFailure := by
  have hstaged := viewFailure_stageAll changes fallible
  unfold submit
  split
  · next hall => rwa [hall] at hstaged
  · next store hall =>
      rw [hall] at hstaged
      have hsaved : store.save.2.viewFailure = store.viewFailure :=
        viewFailure_attempt (by decide) store _
      split <;> next hsave => (rw [hsave] at hsaved; exact hsaved.trans hstaged)

theorem viewFailure_load (fallible : FallibleStore) :
    fallible.load.2.viewFailure = fallible.viewFailure :=
  viewFailure_attempt (by decide) fallible _

/-- After a write, readers see what they saw before it, what was persisted before it, or the staged
rules with all of its changes. -/
theorem loaded_submit_load (changes : List Change) (fallible : FallibleStore) :
    (fallible.submit changes).2.load.2.store.loaded = fallible.store.loaded ∨
    ∃ revision rules, (fallible.submit changes).2.load.2.store.loaded = some ⟨revision, rules⟩ ∧
      (rules = fallible.store.persisted ∨ rules = fallible.store.staged.replay changes) := by
  have hsubmit := fallible.submit_cases changes
  generalize fallible.submit changes = submitted at hsubmit ⊢
  rcases submitted.2.load_cases with ⟨message, failures, hload⟩ | ⟨failures, hload⟩
  · rw [hload]
    rcases hsubmit with ⟨staged, left, rfl⟩ | ⟨left, rfl⟩ <;> exact Or.inl rfl
  · rw [hload]
    rcases hsubmit with ⟨staged, left, rfl⟩ | ⟨left, rfl⟩
    · exact Or.inr ⟨_, _, rfl, Or.inl rfl⟩
    · exact Or.inr ⟨_, _, rfl, Or.inr rfl⟩

end FallibleStore

namespace Enforcer

variable {enforcer other : Enforcer} {email : Email}

theorem takeView_fst (enforcer : Enforcer) :
    enforcer.takeView.1 =
      match enforcer.store.viewFailure, enforcer.store.store.loaded with
      | some message, _ => .error (.store message)
      | none, none => .error .notLoaded
      | none, some snapshot => .ok snapshot := by
  have hview := enforcer.store.view_fst
  unfold takeView
  generalize enforcer.store.view = viewed at hview ⊢
  obtain ⟨taken, after⟩ := viewed
  obtain rfl := hview
  cases enforcer.store.viewFailure with
  | some message => rfl
  | none => cases enforcer.store.store.loaded <;> rfl

theorem viewFailure_write (changes : List Change) (enforcer : Enforcer) :
    (enforcer.write FallibleStore.stage changes).2.store.viewFailure =
      enforcer.store.viewFailure := by
  rw [store_write]
  exact (FallibleStore.viewFailure_load _).trans (FallibleStore.viewFailure_submit changes _)

theorem CacheSound.write (h : enforcer.CacheSound) (changes : List Change) :
    (enforcer.write FallibleStore.stage changes).2.CacheSound := by
  have hstage : ∀ change (store : FallibleStore),
      store.store.LeadsTo (FallibleStore.stage change store).2.store := by
    intro change store
    cases change with
    | addPolicy rule => exact store.leadsTo_addPolicy rule
    | addGrouping rule => exact store.leadsTo_addGrouping rule
    | removeGrouping rule => exact store.leadsTo_removeGrouping rule
  exact (agrees_write h hstage changes).2

theorem CacheSound.authorize_fst (h : enforcer.CacheSound) (time : Timing) (email : Email)
    (resource : Resource) (action : Action) (object : ObjectPath) :
    (enforcer.authorize time email resource action object).1 =
      enforcer.takeView.1.bind fun snapshot =>
        snapshot.decision enforcer.settings email resource action object := by
  unfold authorize Snapshot.decision
  dsimp only
  rw [(h.effectiveRules time email).1]
  cases enforcer.takeView.1 <;> rfl

theorem CacheSound.authorize_eq (h : enforcer.CacheSound) (hother : other.CacheSound)
    (hsettings : other.settings = enforcer.settings) {snapshot snapshot' : Snapshot}
    (hview : enforcer.takeView.1 = .ok snapshot) (hview' : other.takeView.1 = .ok snapshot')
    (halike : snapshot.AlikeFor snapshot' email) (time time' : Timing) (resource : Resource)
    (action : Action) (object : ObjectPath) :
    (other.authorize time' email resource action object).1 =
      (enforcer.authorize time email resource action object).1 := by
  rw [h.authorize_fst, hother.authorize_fst, hview, hview', hsettings]
  exact halike.decision_eq enforcer.settings resource action object

/-- What is loaded counts, and whether the next view of it fails. -/
theorem CacheSound.decidesAs (h : enforcer.CacheSound) (hother : other.CacheSound)
    (hsettings : other.settings = enforcer.settings)
    (hidentity : other.identity = enforcer.identity)
    (hfailure : other.store.viewFailure = enforcer.store.viewFailure)
    (hloaded : Option.Rel (fun snapshot snapshot' => snapshot.AlikeFor snapshot' email)
      enforcer.store.store.loaded other.store.store.loaded) :
    enforcer.DecidesAs other email := by
  refine ⟨hidentity, fun time time' resource action object => ?_⟩
  have hview := enforcer.takeView_fst
  have hview' := other.takeView_fst
  rw [hfailure] at hview'
  cases hfails : enforcer.store.viewFailure with
  | some message =>
      rw [hfails] at hview hview'
      rw [h.authorize_fst, hother.authorize_fst, hview, hview']
      rfl
  | none =>
      rw [hfails] at hview hview'
      generalize enforcer.store.store.loaded = loaded at hview hloaded
      generalize other.store.store.loaded = loaded' at hview' hloaded
      cases hloaded with
      | none =>
          rw [h.authorize_fst, hother.authorize_fst, hview, hview']
          rfl
      | some halike =>
          exact h.authorize_eq hother hsettings hview hview' halike time time' resource action
            object

/-- A write of changes that miss the email leaves all decisions about it as they are. -/
theorem CacheSound.decidesAs_write (h : enforcer.CacheSound) {snapshot : Snapshot}
    (hloaded : enforcer.store.store.loaded = some snapshot)
    (hpersisted : enforcer.store.store.persisted.ReadsAs snapshot.rules)
    (hstaged : enforcer.store.store.staged.ReadsAs snapshot.rules) {changes : List Change}
    (hmisses : ∀ change ∈ changes, change.Misses snapshot email) :
    enforcer.DecidesAs (enforcer.write FallibleStore.stage changes).2 email := by
  have hsound := h.write changes
  have hfailure := enforcer.viewFailure_write changes
  have hseen : ∃ after, (enforcer.store.submit changes).2.load.2.store.loaded = some after ∧
      snapshot.AlikeFor after email := by
    rcases enforcer.store.loaded_submit_load changes with hsame | ⟨revision, rules, hnew, hrules⟩
    · exact ⟨snapshot, hsame.trans hloaded, .refl snapshot email⟩
    · refine ⟨⟨revision, rules⟩, hnew, ?_⟩
      rcases hrules with rfl | rfl
      · exact Snapshot.alikeFor_of_readsAs hpersisted revision email
      · exact (Snapshot.alikeFor_of_readsAs hstaged revision email).replay hmisses
  obtain ⟨cache, hwrite⟩ := enforcer.write_snd changes
  obtain ⟨after, hafter, halike⟩ := hseen
  rw [hwrite] at hsound hfailure ⊢
  refine h.decidesAs hsound rfl rfl hfailure ?_
  rw [hloaded, hafter]
  exact .some halike

end Enforcer

namespace Session

/-- The state that some session comes to which puts nothing into its cache itself. -/
def Arises (session : Session) : Prop :=
  ∃ config build identity steps,
    (build = .observed → ∀ timed ∈ steps, timed.2.writesCache = false) ∧
      session = ((ofConfig config build identity).run steps).2

theorem Arises.cacheSound {session : Session} (h : session.Arises) :
    session.enforcer.CacheSound := by
  obtain ⟨config, build, identity, steps, hforeign, rfl⟩ := h
  exact cacheSound_run config build identity steps hforeign

/-- If the views of two enforcers with the same settings are alike for an email, both end every
request of it with the same decision or the same error. Hence, where what is staged, persisted and
loaded reads the same, no write changes any answer to an email if it is of changes that miss the
email, whatever it comes to. -/
theorem answers_are_local :
    (∀ (enforcer other : Enforcer) (snapshot snapshot' : Snapshot) (email : Email),
      enforcer.CacheSound → other.CacheSound → other.settings = enforcer.settings →
      enforcer.takeView.1 = .ok snapshot → other.takeView.1 = .ok snapshot' →
      snapshot.AlikeFor snapshot' email →
      ∀ time time' resource action object,
        (other.authorize time' email resource action object).1 =
          (enforcer.authorize time email resource action object).1) ∧
    ∀ session : Session, session.Arises → session.enforcer.CacheSound ∧
      ∀ snapshot email write changes,
        session.enforcer.store.store.loaded = some snapshot →
        session.enforcer.store.store.persisted.ReadsAs snapshot.rules →
        session.enforcer.store.store.staged.ReadsAs snapshot.rules →
        write.changes? = some changes →
        (∀ change ∈ changes, change.Misses snapshot email) →
        ∀ before during after ask, ask.AsksFor session.enforcer.identity email →
          ((session.step during write).2.step after ask).1 = (session.step before ask).1 := by
  constructor
  · intro enforcer other snapshot snapshot' email h hother hsettings hview hview' halike
    exact h.authorize_eq hother hsettings hview hview' halike
  · intro session harises
    refine ⟨harises.cacheSound, ?_⟩
    intro snapshot email write changes hloaded hpersisted hstaged hchanges hmisses before during
      after ask hasks
    obtain ⟨answer, hwrite⟩ := @step_of_changes session during write changes hchanges
    rw [hwrite]
    exact answer_eq_of_decidesAs
      (harises.cacheSound.decidesAs_write hloaded hpersisted hstaged hmisses) hasks

theorem answers_are_local_among_strangers :
    let email : Email := ⟨"a@b", by decide, by decide, by decide⟩
    let stranger : Email := ⟨"c@d", by decide, by decide, by decide⟩
    let view : RoleSubject := ⟨.view, .every⟩
    let rule : PolicyRule := ⟨view, .team, .get, .parse "dev", .allow⟩
    let first : List Change := [.addGrouping ⟨.user email, view⟩, .addPolicy rule]
    let second : List Change := first ++ [.addGrouping ⟨.user stranger, view⟩]
    let session : Session := ((ofConfig { cacheCapacity := 1 } .cached none).run
      (clocked [.addGroupings [⟨.user email, view⟩], .install [⟨view, [rule]⟩]])).2
    let write : Step := .addGroupings [⟨.user stranger, view⟩]
    let ask : Step := .authorize email .team .get (.parse "dev")
    ((Enforcer.afterHistory {} second).authorize ⟨0, 0⟩ email .team .get (.parse "dev")).1 =
        ((Enforcer.afterHistory {} first).authorize ⟨0, 0⟩ email .team .get (.parse "dev")).1 ∧
      ((session.step ⟨2, 2⟩ write).2.step ⟨3, 3⟩ ask).1 = (session.step ⟨2, 2⟩ ask).1 ∧
      (session.step ⟨2, 2⟩ ask).1 = .decision .allow := by
  intro email stranger view rule first second session write ask
  have hmisses : ∀ snapshot : Snapshot, ∀ change ∈ [Change.addGrouping ⟨.user stranger, view⟩],
      change.Misses snapshot email := by
    intro snapshot change hchange
    rw [List.mem_singleton.mp hchange]
    constructor
    case user => decide
    case members | subjects =>
      intro role _ heq
      cases heq
  have halike : Snapshot.AlikeFor ⟨1, RuleSet.empty.replay first⟩
      ⟨1, RuleSet.empty.replay second⟩ email := by
    rw [RuleSet.replay_append]
    exact (Snapshot.AlikeFor.refl _ email).replay (hmisses _)
  have huncached : ∀ changes, (Enforcer.afterHistory {} changes).CacheSound :=
    fun changes => Enforcer.cacheSound_uncached (Enforcer.afterHistory {} changes)
  have hview : ∀ changes, (Enforcer.afterHistory {} changes).takeView.1 =
      .ok ⟨1, RuleSet.empty.replay changes⟩ := by
    intro changes
    rw [Enforcer.takeView_fst, Enforcer.afterHistory, Store.loaded_ofHistory]
    rfl
  have harises : session.Arises := by
    refine ⟨_, .cached, none, _, ?_, rfl⟩
    intro hbuild
    cases hbuild
  have hread : session.enforcer.store.store.loaded =
      some ⟨2, session.enforcer.store.store.persisted⟩ := by
    rfl
  have hstaged : session.enforcer.store.store.staged =
      session.enforcer.store.store.persisted := by
    rfl
  refine ⟨?_, ?_, ?_⟩
  · exact answers_are_local.1 (Enforcer.afterHistory {} first) (Enforcer.afterHistory {} second)
      ⟨1, RuleSet.empty.replay first⟩ ⟨1, RuleSet.empty.replay second⟩ email (huncached first)
      (huncached second) rfl (hview first) (hview second) halike ⟨0, 0⟩ ⟨0, 0⟩ .team .get
      (.parse "dev")
  · exact (answers_are_local.2 session harises).2 _ email write _ hread (.refl _)
      (hstaged ▸ .refl _) rfl (hmisses _) ⟨2, 2⟩ ⟨2, 2⟩ ⟨3, 3⟩ ask rfl
  · dsimp only [session, ask, rule, view, email]
    cbv

end Session

end ScopedAccess
