import ScopedAccess.Proofs.Session.Resemblance
import ScopedAccess.Proofs.Write.Outcome

/-!
# What an install adds

An install that gets through adds the installable rules of its groups that were not stored before,
and gives no role to anybody. So it only raises what those rules grant, whatever their order, and to
install them once more makes no difference (`install_adds_exactly`).
-/

namespace ScopedAccess

/-! ## Rule sets with more policy rules -/

namespace RuleSet

variable {rules other : RuleSet} {policies : List PolicyRule}

/-- The other rule set has the same roles in the same order, and the added rules besides those of
this one, each under its own subject. -/
structure Gains (rules other : RuleSet) (added : Finset PolicyRule) : Prop where
  rolesOf_eq : ∀ member, other.rolesOf member = rules.rolesOf member
  mem_rulesOf_iff : ∀ role rule, rule ∈ other.rulesOf role ↔
    rule ∈ rules.rulesOf role ∨ rule ∈ added ∧ rule.subject = role

theorem gains_replay (h : other.ReadsAs rules) (policies : List PolicyRule) :
    rules.Gains (other.replay (policies.map .addPolicy)) policies.toFinset := by
  constructor
  case rolesOf_eq =>
    intro member
    rw [rolesOf_replay_policies, h.rolesOf_eq]
  case mem_rulesOf_iff =>
    intro role rule
    rw [mem_rulesOf_iff, mem_rulesOf_iff, hasPolicy_replay, h.resembles.hasPolicy_iff,
      List.mem_toFinset, or_and_right]

theorem stored_replay_policies (rules : RuleSet) (policies : List PolicyRule) :
    (rules.replay (policies.map .addPolicy)).stored \ rules.stored =
      (policies.toFinset.filter fun rule => ¬ rules.HasPolicy rule).map .inl := by
  ext stored
  cases stored with
  | inl rule => simp [hasPolicy_replay, or_and_right]
  | inr rule => simp [HasGrouping]

/-- Only rules that are not stored yet count, and each of them once. -/
theorem countChanged_policies (rules : RuleSet) (policies : List PolicyRule) :
    rules.countChanged (policies.map .addPolicy) =
      (policies.toFinset.filter fun rule => ¬ rules.HasPolicy rule).card := by
  have hadds : ∀ change ∈ policies.map Change.addPolicy, change.adds = true :=
    List.forall_mem_map.mpr fun _ _ => rfl
  rw [(countChanged_of_adds hadds).2, stored_replay_policies, Finset.card_map]

theorem replay_of_hasPolicy (h : ∀ rule ∈ policies, rules.HasPolicy rule) :
    rules.countChanged (policies.map .addPolicy) = 0 ∧
      rules.replay (policies.map .addPolicy) = rules := by
  constructor
  · rw [countChanged_policies, Finset.card_eq_zero, Finset.filter_eq_empty_iff]
    exact fun rule hmem hnew => hnew (h rule (List.mem_toFinset.mp hmem))
  · induction policies with
    | nil => rfl
    | cons rule rest ih =>
        have hfirst : rules.change (.addPolicy rule) = rules :=
          addPolicy_of_hasPolicy (h rule List.mem_cons_self)
        rw [List.map_cons, replay_cons, hfirst]
        exact ih fun later hmem => h later (List.mem_cons_of_mem _ hmem)

/-- Which rules are added counts, and not in which order or how often. -/
theorem resembles_replay {policies policies' : List PolicyRule}
    (h : policies.toFinset = policies'.toFinset) (rules : RuleSet) :
    (rules.replay (policies.map .addPolicy)).Resembles
      (rules.replay (policies'.map .addPolicy)) := by
  constructor
  case rolesOf_eq =>
    intro member
    rw [rolesOf_replay_policies, rolesOf_replay_policies]
  case hasPolicy_iff =>
    intro rule
    rw [hasPolicy_replay, hasPolicy_replay, ← List.mem_toFinset, ← List.mem_toFinset, h]

end RuleSet

/-! ## Decisions with more rules -/

/-- How a request ends before and after rules were added, which grant it or do not. -/
inductive Raised (granted : Prop) : Except Error Decision → Except Error Decision → Prop where
  | stillFailed (error : Error) : Raised granted (.error error) (.error error)
  | stillAllowed : Raised granted (.ok .allow) (.ok .allow)
  | nowAllowed (h : granted) : Raised granted (.ok .deny) (.ok .allow)
  | stillDenied (h : ¬ granted) : Raised granted (.ok .deny) (.ok .deny)

theorem raised_of_iff {granted : Prop} {before after : Decision}
    (h : after = .allow ↔ before = .allow ∨ granted) : Raised granted (.ok before) (.ok after) := by
  cases before with
  | allow =>
      obtain rfl : after = .allow := h.mpr (Or.inl rfl)
      exact .stillAllowed
  | deny =>
      cases after with
      | allow => exact .nowAllowed ((h.mp rfl).resolve_left nofun)
      | deny => exact .stillDenied fun hgranted => nomatch h.mpr (Or.inr hgranted)

namespace Snapshot

variable {snapshot other : Snapshot} {added : Finset PolicyRule} {settings : Settings}
  {email : Email}

def GrantedBy (snapshot : Snapshot) (added : Finset PolicyRule) (settings : Settings)
    (email : Email) (resource : Resource) (action : Action) (object : ObjectPath) : Prop :=
  ∃ rule ∈ added, rule.grants resource action object = true ∧
    snapshot.IsIn settings email rule.subject

theorem effectiveRoles_of_gains (h : snapshot.rules.Gains other.rules added)
    (settings : Settings) (email : Email) :
    other.effectiveRoles settings email = snapshot.effectiveRoles settings email :=
  effectiveRoles_eq_of_agree (h.rolesOf_eq (.user email)) (fun role _ => h.rolesOf_eq (.role role))
    settings

theorem allows_iff_of_gains (h : snapshot.rules.Gains other.rules added)
    {roles : List RoleSubject} (hroles : snapshot.effectiveRoles settings email = .ok roles)
    (resource : Resource) (action : Action) (object : ObjectPath) :
    other.Allows settings email resource action object ↔
      snapshot.Allows settings email resource action object ∨
        snapshot.GrantedBy added settings email resource action object := by
  have hroles' := (effectiveRoles_of_gains h settings email).trans hroles
  have hisIn : ∀ role, other.IsIn settings email role ↔ snapshot.IsIn settings email role :=
    fun role => (mem_effectiveRoles_iff hroles').symm.trans (mem_effectiveRoles_iff hroles)
  constructor
  · rintro ⟨role, hrole, rule, hrule, hgrants⟩
    have hrole : snapshot.IsIn settings email role := (hisIn role).mp hrole
    rcases (h.mem_rulesOf_iff role rule).mp hrule with hold | ⟨hadded, rfl⟩
    · exact Or.inl ⟨role, hrole, rule, hold, hgrants⟩
    · exact Or.inr ⟨rule, hadded, PolicyRule.grants_iff.mpr hgrants, hrole⟩
  · rintro (⟨role, hrole, rule, hrule, hgrants⟩ | ⟨rule, hadded, hgrants, hrole⟩)
    · have hrule : rule ∈ other.rulesOf role := (h.mem_rulesOf_iff role rule).mpr (Or.inl hrule)
      exact ⟨role, (hisIn role).mpr hrole, rule, hrule, hgrants⟩
    · have hrule : rule ∈ other.rulesOf rule.subject :=
        (h.mem_rulesOf_iff rule.subject rule).mpr (Or.inr ⟨hadded, rfl⟩)
      exact ⟨rule.subject, (hisIn rule.subject).mpr hrole, rule, hrule,
        PolicyRule.grants_iff.mp hgrants⟩

theorem decision_raised (h : snapshot.rules.Gains other.rules added) (settings : Settings)
    (email : Email) (resource : Resource) (action : Action) (object : ObjectPath) :
    Raised (snapshot.GrantedBy added settings email resource action object)
      (snapshot.decision settings email resource action object)
      (other.decision settings email resource action object) := by
  have hsame := effectiveRoles_of_gains h settings email
  cases hroles : snapshot.effectiveRoles settings email with
  | error error =>
      rw [decision_of_effectiveRoles_error hroles,
        decision_of_effectiveRoles_error (hsame.trans hroles)]
      exact .stillFailed error
  | ok roles =>
      obtain ⟨before, hbefore⟩ := decision_of_effectiveRoles_ok hroles resource action object
      obtain ⟨after, hafter⟩ :=
        decision_of_effectiveRoles_ok (hsame.trans hroles) resource action object
      rw [hbefore, hafter]
      apply raised_of_iff
      rw [(decision_eq_ok hbefore).2, (decision_eq_ok hafter).2,
        allows_iff_of_gains h hroles resource action object]

end Snapshot

/-! ## Writes that get through -/

namespace ArmedFailure

theorem of_strikeAll_writeCalls {changes : List Change} {failures : List ArmedFailure}
    (h : (strikeAll (writeCalls changes) failures).1 = none) :
    ∃ staged saved loaded, strikeAll (changes.map Change.call) failures = (none, staged) ∧
      strike .save staged = (none, saved) ∧ strike .load saved = (none, loaded) := by
  rw [writeCalls, strikeAll_append] at h
  cases hstage : strikeAll (changes.map Change.call) failures with
  | mk first staged =>
      cases first with
      | some first => simp [hstage] at h
      | none =>
          cases hsave : strike .save staged with
          | mk message saved =>
              cases message with
              | some message => simp [hstage, strikeAll, hsave] at h
              | none =>
                  cases hload : strike .load saved with
                  | mk message loaded =>
                      cases message with
                      | some message => simp [hstage, strikeAll, hsave, hload] at h
                      | none => exact ⟨staged, saved, loaded, rfl, hsave, hload⟩

end ArmedFailure

/-- No call of a write of the changes fails. -/
def FallibleStore.LetsThrough (fallible : FallibleStore) (changes : List Change) : Prop :=
  (ArmedFailure.strikeAll (writeCalls changes) fallible.failures).1 = none

namespace Store

/-- What is staged and persisted, and what is loaded if anything is, reads as these rules. -/
structure InStep (store : Store) (rules : RuleSet) : Prop where
  staged : store.staged.ReadsAs rules
  persisted : store.persisted.ReadsAs rules
  loaded : ∀ snapshot, store.loaded = some snapshot → snapshot.rules.ReadsAs rules

structure Holds (store : Store) (rules : RuleSet) : Prop where
  staged : store.staged = rules
  persisted : store.persisted = rules
  loaded : ∃ revision, store.loaded = some ⟨revision, rules⟩

theorem Holds.resembles {store other : Store} {rules rules' : RuleSet} (h : store.Holds rules)
    (h' : other.Holds rules') (hrules : rules.Resembles rules') : store.Resembles other := by
  obtain ⟨revision, hloaded⟩ := h.loaded
  obtain ⟨revision', hloaded'⟩ := h'.loaded
  constructor
  case staged => rwa [h.staged, h'.staged]
  case persisted => rwa [h.persisted, h'.persisted]
  case loaded =>
    rw [hloaded, hloaded']
    exact .some hrules

end Store

namespace Enforcer

variable {enforcer other : Enforcer} {changes : List Change}

theorem write_of_letsThrough (h : enforcer.store.LetsThrough changes) :
    ∃ store failures cache, store.Holds (enforcer.store.store.staged.replay changes) ∧
      enforcer.write FallibleStore.stage changes =
        (.ok (enforcer.store.store.staged.countChanged changes),
          { enforcer with store := { enforcer.store with store, failures }, cache }) := by
  obtain ⟨staged, saved, loaded, hstage, hsave, hload⟩ := ArmedFailure.of_strikeAll_writeCalls h
  have hall := FallibleStore.stageAll_eq changes enforcer.store
  rw [hstage] at hall
  refine ⟨⟨_, _, some ⟨enforcer.store.store.nextRevision, _⟩⟩, loaded,
    enforcer.cache.map RuleCache.clear, ⟨rfl, rfl, _, rfl⟩, ?_⟩
  simp only [write, hall, commit, FallibleStore.save, reload, FallibleStore.load,
    FallibleStore.attempt, hsave, hload, Except.map]
  rfl

/-- Rules that a view gains raise what is decided by it. -/
theorem CacheSound.authorize_raised (h : enforcer.CacheSound) (hother : other.CacheSound)
    (hsettings : other.settings = enforcer.settings)
    (hfailure : other.store.viewFailure = enforcer.store.viewFailure)
    {snapshot snapshot' : Snapshot} (hloaded : enforcer.store.store.loaded = some snapshot)
    (hloaded' : other.store.store.loaded = some snapshot') {added : Finset PolicyRule}
    (hgains : snapshot.rules.Gains snapshot'.rules added) (before after : Timing) (email : Email)
    (resource : Resource) (action : Action) (object : ObjectPath) :
    Raised (snapshot.GrantedBy added enforcer.settings email resource action object)
      (enforcer.authorize before email resource action object).1
      (other.authorize after email resource action object).1 := by
  rw [h.authorize_fst, hother.authorize_fst, takeView_fst, takeView_fst, hfailure, hloaded,
    hloaded', hsettings]
  cases enforcer.store.viewFailure with
  | some message => exact .stillFailed (.store message)
  | none => exact Snapshot.decision_raised hgains enforcer.settings email resource action object

end Enforcer

/-! ## Installs -/

namespace Session

variable {session other last : Session} {rules rules' : RuleSet} {groups : List RuleGroup}

/-- The installable rules of the groups, without their order and repetitions. -/
def offered (groups : List RuleGroup) : Finset PolicyRule :=
  (groups.flatMap RuleGroup.installable).toFinset

def installing (groups : List RuleGroup) : List Change :=
  (groups.flatMap RuleGroup.installable).map .addPolicy

/-- The other session's store holds the rules, and nothing else that checks depend on is different
from this session. -/
structure Renews (session other : Session) (rules : RuleSet) : Prop where
  holds : other.enforcer.store.store.Holds rules
  settings_eq : other.enforcer.settings = session.enforcer.settings
  identity_eq : other.enforcer.identity = session.enforcer.identity
  interference_eq : other.enforcer.store.interference = session.enforcer.store.interference
  viewFailure_eq : other.enforcer.store.viewFailure = session.enforcer.store.viewFailure
  build_eq : other.build = session.build
  sound : other.enforcer.CacheSound

theorem Renews.trans (h : session.Renews other rules) (h' : other.Renews last rules') :
    session.Renews last rules' where
  holds := h'.holds
  settings_eq := h'.settings_eq.trans h.settings_eq
  identity_eq := h'.identity_eq.trans h.identity_eq
  interference_eq := h'.interference_eq.trans h.interference_eq
  viewFailure_eq := h'.viewFailure_eq.trans h.viewFailure_eq
  build_eq := h'.build_eq.trans h.build_eq
  sound := h'.sound

theorem Renews.checksAs (h : session.Renews other rules) (h' : session.Renews last rules')
    (hrules : rules.Resembles rules') : other.ChecksAs last :=
  checksAs_of_resembles h.sound h'.sound (h.settings_eq.trans h'.settings_eq.symm)
    (h.identity_eq.trans h'.identity_eq.symm) (h.viewFailure_eq.trans h'.viewFailure_eq.symm)
    (h.holds.resembles h'.holds hrules) (h.build_eq.trans h'.build_eq.symm)
    (h.interference_eq.trans h'.interference_eq.symm)

theorem renews_install (hsound : session.enforcer.CacheSound)
    (hthrough : session.enforcer.store.LetsThrough (installing groups)) (time : Timing) :
    (session.step time (.install groups)).1 =
        .count (session.enforcer.store.store.staged.countChanged (installing groups)) ∧
      session.Renews (session.step time (.install groups)).2
        (session.enforcer.store.store.staged.replay (installing groups)) := by
  have hwritten := hsound.write (installing groups)
  have hfailure := session.enforcer.viewFailure_write (installing groups)
  have hstep : session.step time (.install groups) =
      (.ofExcept .count (session.enforcer.write FallibleStore.stage (installing groups)).1,
        session.withEnforcer
          (session.enforcer.write FallibleStore.stage (installing groups)).2) := by
    rw [installing, ← Enforcer.install_eq]
    rfl
  obtain ⟨store, failures, cache, hholds, hwrite⟩ := Enforcer.write_of_letsThrough hthrough
  rw [hwrite] at hwritten hfailure hstep
  rw [hstep]
  exact ⟨rfl, hholds, rfl, rfl, rfl, hfailure, rfl, hwritten⟩

theorem renews_install_again (h : session.Renews other rules)
    (hthere : ∀ rule ∈ offered groups, rules.HasPolicy rule)
    (hthrough : other.enforcer.store.LetsThrough (installing groups)) (time : Timing) :
    (other.step time (.install groups)).1 = .count 0 ∧
      session.Renews (other.step time (.install groups)).2 rules := by
  obtain ⟨hanswer, hrenews⟩ := renews_install h.sound hthrough time
  obtain ⟨hnone, hsame⟩ :
      rules.countChanged (installing groups) = 0 ∧ rules.replay (installing groups) = rules :=
    RuleSet.replay_of_hasPolicy fun rule hrule => hthere rule (List.mem_toFinset.mpr hrule)
  rw [h.holds.staged, hnone] at hanswer
  rw [h.holds.staged, hsame] at hrenews
  exact ⟨hanswer, h.trans hrenews⟩

/-- Let no call of an install fail, and what is staged, persisted and loaded be the same rules.
Then the install answers how many of the installable rules of its groups are new, and every
request fails, is allowed or is denied as before, except that those are allowed that one of these
rules grants to a role that the email is in. Groups that hold the same rules, in whatever order
and however often, have the same answer and leave a session that answers all checks alike, now and
later. The rules are then stored under their own subjects, and to install them, or some of them,
again counts nothing, leaves what is stored as it is, and changes no answer to a check. -/
theorem install_adds_exactly (session : Session) (harises : session.Arises) (rules : RuleSet)
    (hagree : session.enforcer.store.store.InStep rules) (groups : List RuleGroup)
    (hthrough : session.enforcer.store.LetsThrough (installing groups)) (during : Timing) :
    let done := session.step during (.install groups)
    done.1 = .count ((offered groups).filter fun rule => ¬ rules.HasPolicy rule).card ∧
    (∀ snapshot, session.enforcer.store.store.loaded = some snapshot →
      ∀ before after email resource action object,
        Raised (snapshot.GrantedBy (offered groups) session.enforcer.settings email resource action
            object)
          (session.enforcer.authorize before email resource action object).1
          (done.2.enforcer.authorize after email resource action object).1) ∧
    (∀ again time, offered again = offered groups →
      session.enforcer.store.LetsThrough (installing again) →
        (session.step time (.install again)).1 = done.1 ∧
          done.2.ChecksAs (session.step time (.install again)).2) ∧
    ∃ stored, rules.Gains stored (offered groups) ∧ done.2.enforcer.store.store.Holds stored ∧
      ∀ again time, offered again ⊆ offered groups →
        done.2.enforcer.store.LetsThrough (installing again) →
          (done.2.step time (.install again)).1 = .count 0 ∧
            (done.2.step time (.install again)).2.enforcer.store.store.Holds stored ∧
            done.2.ChecksAs (done.2.step time (.install again)).2 := by
  intro done
  have hsound := harises.cacheSound
  have hcount (again : List RuleGroup) :
      session.enforcer.store.store.staged.countChanged (installing again) =
        ((offered again).filter fun rule => ¬ rules.HasPolicy rule).card := by
    rw [hagree.staged.resembles.countChanged_eq]
    exact rules.countChanged_policies _
  have hgains := RuleSet.gains_replay hagree.staged (groups.flatMap RuleGroup.installable)
  obtain ⟨hanswer, hdone⟩ := renews_install hsound hthrough during
  rw [hcount] at hanswer
  refine ⟨hanswer, ?_, ?_, _, hgains, hdone.holds, ?_⟩
  · intro snapshot hloaded before after email resource action object
    obtain ⟨revision, hloaded'⟩ := hdone.holds.loaded
    have hview := (hagree.loaded snapshot hloaded).symm
    have hgains := RuleSet.gains_replay (hagree.staged.trans hview)
      (groups.flatMap RuleGroup.installable)
    exact hsound.authorize_raised hdone.sound hdone.settings_eq hdone.viewFailure_eq hloaded
      hloaded' hgains before after email resource action object
  · intro again time hsame hthrough'
    -- the order of the rules differs, which neither the count nor any check can tell
    obtain ⟨hanswer', hdone'⟩ := renews_install hsound hthrough' time
    rw [hcount, hsame] at hanswer'
    exact ⟨hanswer'.trans hanswer.symm,
      hdone.checksAs hdone' (RuleSet.resembles_replay hsame.symm _)⟩
  · intro again time hsub hthrough'
    have hthere : ∀ rule ∈ offered again,
        (session.enforcer.store.store.staged.replay (installing groups)).HasPolicy rule :=
      fun rule hrule => RuleSet.hasPolicy_replay.mpr (Or.inr (List.mem_toFinset.mp (hsub hrule)))
    obtain ⟨hnone, hagain⟩ := renews_install_again hdone hthere hthrough' time
    exact ⟨hnone, hagain.holds, hdone.checksAs hagain (.refl _)⟩

theorem install_adds_exactly_one_of_four :
    let email : Email := ⟨"a@b", by decide, by decide, by decide⟩
    let view : RoleSubject := ⟨.view, .every⟩
    let rule (object : String) : PolicyRule := ⟨view, .team, .get, .parse object, .allow⟩
    let session : Session := ((ofConfig { cacheCapacity := 1 } .cached none).run
      (clocked [.addGroupings [⟨.user email, view⟩], .install [⟨view, [rule "dev"]⟩]])).2
    let groups : List RuleGroup :=
      [⟨⟨.admin, .every⟩, [rule "ops", rule "dev", rule "", rule "ops"]⟩]
    let done := session.step ⟨2, 2⟩ (.install groups)
    let snapshot : Snapshot := ⟨2, session.enforcer.store.store.persisted⟩
    session.Arises ∧ session.enforcer.store.store.InStep snapshot.rules ∧
      session.enforcer.store.LetsThrough (installing groups) ∧ done.1 = .count 1 ∧
      Raised (snapshot.GrantedBy (offered groups) {} email .team .get (.parse "ops")) (.ok .deny)
        (.ok .allow) ∧
      (done.2.step ⟨3, 3⟩ (.install groups)).1 = .count 0 := by
  intro email view rule session groups done snapshot
  have harises : session.Arises := by
    refine ⟨_, .cached, none, _, ?_, rfl⟩
    intro hbuild
    cases hbuild
  have hread : session.enforcer.store.store.loaded = some snapshot := by
    rfl
  have hstaged : session.enforcer.store.store.staged = snapshot.rules := by
    rfl
  have hagree : session.enforcer.store.store.InStep snapshot.rules := by
    refine ⟨hstaged ▸ .refl _, .refl _, fun loaded hloaded => ?_⟩
    rw [hread] at hloaded
    cases hloaded
    exact .refl _
  have hthrough : session.enforcer.store.LetsThrough (installing groups) := by
    rfl
  have hthrough' : done.2.enforcer.store.LetsThrough (installing groups) := by
    rfl
  obtain ⟨hanswer, hraised, -, stored, -, -, hagain⟩ :=
    install_adds_exactly session harises snapshot.rules hagree groups hthrough ⟨2, 2⟩
  have hbefore : (session.enforcer.authorize ⟨2, 2⟩ email .team .get (.parse "ops")).1 =
      .ok .deny := by
    dsimp only [session, rule, view, email]
    cbv
  have hafter : (done.2.enforcer.authorize ⟨3, 3⟩ email .team .get (.parse "ops")).1 =
      .ok .allow := by
    dsimp only [done, groups, session, rule, view, email]
    cbv
  have hcount : ((offered groups).filter fun rule => ¬ snapshot.rules.HasPolicy rule).card = 1 := by
    decide
  have hends := hraised snapshot hread ⟨2, 2⟩ ⟨3, 3⟩ email .team .get (.parse "ops")
  rw [hbefore, hafter] at hends
  have hrepeated := (hagain groups ⟨3, 3⟩ (Finset.Subset.refl _) hthrough').1
  exact ⟨harises, hagree, hthrough, hcount ▸ hanswer, hends, hrepeated⟩

end Session

end ScopedAccess
