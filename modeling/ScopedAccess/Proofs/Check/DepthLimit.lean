import ScopedAccess.Proofs.Check.Locality
import ScopedAccess.Proofs.Hierarchy.Comparison
import ScopedAccess.Proofs.Hierarchy.Failure

/-!
# Raising the limit

A higher limit on chains of roles can only turn the error that a chain is too long into another
result. An email that reaches no cycle has a limit from which on nothing changes any more
(`Session.limits_can_be_raised`).
-/

namespace ScopedAccess

namespace Snapshot

variable {snapshot : Snapshot} {given : List RoleSubject} {limit limit' : Nat} {email : Email}

theorem expandRoles_ok_of_le (hle : limit ≤ limit') {roles : List RoleSubject}
    (h : snapshot.expandRoles limit given = .ok roles) :
    snapshot.expandRoles limit' given = .ok roles := by
  rw [expandRoles_eq_ok_iff] at h ⊢
  exact (Hierarchy.expand_of_le hle given).eq_ok h

theorem expandRoles_cycle_of_le (hle : limit ≤ limit') {role : RoleSubject}
    (h : snapshot.expandRoles limit given = .error (.roleCycle role)) :
    snapshot.expandRoles limit' given = .error (.roleCycle role) := by
  obtain ⟨fault, hexpand, herror⟩ := expandRoles_eq_error_iff.mp h
  cases fault with
  | cycle other =>
      cases herror
      have hkept := (Hierarchy.expand_of_le hle given).eq_cycle hexpand
      exact expandRoles_eq_error_iff.mpr ⟨.cycle role, hkept, rfl⟩
  | tooDeep other => exact nomatch herror

/-- Where no cycle is in reach, the roles of an email do not depend on the limit if it is at least
the number of groupings. -/
theorem exists_effectiveRoles_of_acyclic
    (hcycle : ∀ role, snapshot.Reached email role → ¬ snapshot.hierarchy.OnCycle role)
    (followRoles : Bool) :
    ∃ roles, ∀ settings : Settings, settings.followRoles = followRoles →
      snapshot.rules.groupings.toList.length ≤ settings.maxDepth →
      snapshot.effectiveRoles settings email = .ok roles := by
  cases followRoles with
  | false =>
      refine ⟨snapshot.userRoles email, fun settings hfollow _ => ?_⟩
      unfold effectiveRoles
      rw [hfollow]
      rfl
  | true =>
      -- the hierarchy has as many roles as there are groupings, counted with repetition
      obtain ⟨roles, hroles⟩ := Hierarchy.exists_expand_of_acyclic hcycle
      refine ⟨roles, fun settings hfollow hlimit => ?_⟩
      rw [effectiveRoles_eq_expandRoles hfollow, expandRoles_eq_ok_iff]
      apply hroles
      rwa [hierarchy, List.length_map]

theorem exists_decision_of_acyclic
    (hcycle : ∀ role, snapshot.Reached email role → ¬ snapshot.hierarchy.OnCycle role)
    (followRoles : Bool) (resource : Resource) (action : Action) (object : ObjectPath) :
    ∃ decision, ∀ settings : Settings, settings.followRoles = followRoles →
      snapshot.rules.groupings.toList.length ≤ settings.maxDepth →
      snapshot.decision settings email resource action object = .ok decision := by
  obtain ⟨roles, hroles⟩ := exists_effectiveRoles_of_acyclic hcycle followRoles
  refine ⟨.ofRules (roles.flatMap snapshot.rulesOf) resource action object, ?_⟩
  intro settings hfollow hlimit
  unfold Snapshot.decision effectiveRules
  rw [hroles settings hfollow hlimit]
  rfl

end Snapshot

namespace Session

/-- With a larger limit, an expansion that ended well ends with the same list, and one that met a
cycle reports it at the same role. Hence, if an email reaches no cycle in a snapshot, all sessions
that view the snapshot with a limit of at least the number of its groupings decide every request of
the email, and those that follow roles decide it alike, as do those that do not. -/
theorem limits_can_be_raised :
    (∀ (snapshot : Snapshot) (given : List RoleSubject) (limit limit' : Nat), limit ≤ limit' →
      (∀ roles, snapshot.expandRoles limit given = .ok roles →
        snapshot.expandRoles limit' given = .ok roles) ∧
      ∀ role, snapshot.expandRoles limit given = .error (.roleCycle role) →
        snapshot.expandRoles limit' given = .error (.roleCycle role)) ∧
    ∀ (snapshot : Snapshot) (email : Email),
      (∀ role, snapshot.Reached email role → ¬ snapshot.hierarchy.OnCycle role) →
      ∀ followRoles resource action object, ∃ decision, ∀ session : Session,
        session.Arises → session.enforcer.takeView.1 = .ok snapshot →
        session.enforcer.settings.followRoles = followRoles →
        snapshot.rules.groupings.toList.length ≤ session.enforcer.settings.maxDepth →
        ∀ time, (session.enforcer.authorize time email resource action object).1 =
          .ok decision := by
  constructor
  · intro snapshot given limit limit' hle
    exact ⟨fun roles => Snapshot.expandRoles_ok_of_le hle,
      fun role => Snapshot.expandRoles_cycle_of_le hle⟩
  · intro snapshot email hcycle followRoles resource action object
    obtain ⟨decision, hdecision⟩ :=
      Snapshot.exists_decision_of_acyclic hcycle followRoles resource action object
    refine ⟨decision, fun session harises hview hfollow hlimit time => ?_⟩
    rw [harises.cacheSound.authorize_fst, hview]
    exact hdecision session.enforcer.settings hfollow hlimit

theorem limits_can_be_raised_on_line :
    let email : Email := ⟨"a@b", by decide, by decide, by decide⟩
    let view : RoleSubject := ⟨.view, .every⟩
    let admin : RoleSubject := ⟨.admin, .every⟩
    let steps : List (Timing × Step) := clocked
      [.addGroupings [⟨.user email, view⟩, ⟨.role view, admin⟩],
        .install [⟨admin, [⟨admin, .team, .any, .parse "dev", .allow⟩]⟩]]
    let session (limit : Nat) : Session :=
      ((ofConfig { maxDepth := limit } .cached none).run steps).2
    let line : Snapshot := ⟨2, (session 2).enforcer.store.store.persisted⟩
    let circle : Snapshot := ⟨3, (line.rules.addGrouping ⟨.role admin, view⟩).2⟩
    line.expandRoles 1 [view] = .ok [view, admin] ∧
      line.expandRoles 18446744073709551615 [view] = .ok [view, admin] ∧
      circle.expandRoles 2 [view] = .error (.roleCycle view) ∧
      circle.expandRoles 18446744073709551615 [view] = .error (.roleCycle view) ∧
      ((session 2).enforcer.authorize ⟨2, 2⟩ email .team .get (.parse "dev")).1 = .ok .allow ∧
      ((session 5).enforcer.authorize ⟨3, 3⟩ email .team .get (.parse "dev")).1 = .ok .allow := by
  intro email view admin steps session line circle
  have hline : line.expandRoles 1 [view] = .ok [view, admin] := by
    dsimp only [line, session, steps, admin, view, email]
    cbv
  have hcircle : circle.expandRoles 2 [view] = .error (.roleCycle view) := by
    dsimp only [circle, line, session, steps, admin, view, email]
    cbv
  have hdecision : ((session 2).enforcer.authorize ⟨2, 2⟩ email .team .get (.parse "dev")).1 =
      .ok .allow := by
    dsimp only [session, steps, admin, view, email]
    cbv
  refine ⟨hline, ?_, hcircle, ?_, hdecision, ?_⟩
  · exact (limits_can_be_raised.1 line [view] 1 18446744073709551615 (by decide)).1 _ hline
  · exact (limits_can_be_raised.1 circle [view] 2 18446744073709551615 (by decide)).2 _ hcircle
  · have harises (limit : Nat) : (session limit).Arises := by
      refine ⟨{ maxDepth := limit }, .cached, none, steps, ?_, rfl⟩
      intro hbuild
      cases hbuild
    have hview (limit : Nat) : (session limit).enforcer.takeView.1 = .ok line := rfl
    have hacyclic : ∀ role, line.Reached email role → ¬ line.hierarchy.OnCycle role := by
      have huser : line.userRoles email = [view] := rfl
      intro role hrole
      rw [Snapshot.Reached, huser] at hrole
      exact Hierarchy.not_onCycle_of_expand (Snapshot.expandRoles_eq_ok_iff.mp hline) hrole
    have hroom (limit : Nat) (h : 2 ≤ limit) :
        line.rules.groupings.toList.length ≤ (session limit).enforcer.settings.maxDepth := h
    obtain ⟨decision, hdecides⟩ :=
      limits_can_be_raised.2 line email hacyclic true .team .get (.parse "dev")
    have hfirst := hdecides (session 2) (harises 2) (hview 2) rfl (hroom 2 (by decide)) ⟨2, 2⟩
    rw [hdecision] at hfirst
    rw [hdecides (session 5) (harises 5) (hview 5) rfl (hroom 5 (by decide)) ⟨3, 3⟩, hfirst]

end Session

end ScopedAccess
