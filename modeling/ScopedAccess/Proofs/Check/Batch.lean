import ScopedAccess.Proofs.Check.Locality

/-!
# Batches

A batch finds the rules of an email once, where single checks find them anew for every object. While
no view fails and nobody is about to change the rules (`Enforcer.Quiet`), both say the same of every
object (`Session.batch_agrees_with_checks`).
-/

namespace ScopedAccess

theorem FallibleStore.Spares.view_eq {fallible : FallibleStore} (h : fallible.Spares .view)
    (hquiet : fallible.interference = none) :
    fallible.view = (.ok fallible.store.loaded, fallible) := by
  have hattempt := h.attempt_eq fun store => (store.loaded, store)
  have hleft : fallible.interfere = fallible := by simp only [interfere, hquiet]
  rw [FallibleStore.view, hattempt]
  exact congrArg (Prod.mk _) hleft

namespace Enforcer

variable {enforcer : Enforcer} {time time' : Timing}

/-! ## Requests that are denied for want of rules -/

theorem effectiveRules_of_view_error {message : String}
    (h : enforcer.store.view.1 = .error message) (time : Timing) (email : Email) :
    (enforcer.effectiveRules time email).1 = .error (.store message) := by
  unfold effectiveRules takeView
  generalize enforcer.store.view = viewed at h ⊢
  obtain ⟨loaded, store⟩ := viewed
  obtain rfl : loaded = .error message := h
  rfl

theorem permits_of_unresolved {email resource action : String}
    (h : ∀ parsed, parseRequest email resource action = .ok parsed →
      ∃ error, (enforcer.effectiveRules time parsed.1).1 = .error error) (object : ObjectPath) :
    enforcer.permits time email resource action object = false := by
  unfold permits authorize
  cases hparse : parseRequest email resource action with
  | error error => rfl
  | ok parsed =>
      obtain ⟨error, hrules⟩ := h parsed hparse
      dsimp only
      rw [hrules]
      rfl

/-! ## Checks that disturb nothing -/

/-- No view is going to fail, nobody is about to change the rules, and the cache is sound. -/
structure Quiet (enforcer : Enforcer) : Prop where
  spares : enforcer.store.Spares .view
  undisturbed : enforcer.store.interference = none
  sound : enforcer.CacheSound

theorem Quiet.lookFor (h : enforcer.Quiet) (time : Timing) (asked : Option Email) :
    ∃ cache, enforcer.lookFor time asked = { enforcer with cache } ∧
      Quiet { enforcer with cache } := by
  cases asked with
  | none => exact ⟨enforcer.cache, rfl, h⟩
  | some email =>
      obtain ⟨cache, hlook⟩ := enforcer.effectiveRules_snd time email
      have hsound := (h.sound.effectiveRules time email).2.2
      rw [h.spares.view_eq h.undisturbed] at hlook
      rw [hlook] at hsound
      exact ⟨cache, hlook, h.spares, h.undisturbed, hsound⟩

theorem Quiet.permits_eq (h : enforcer.Quiet) {cache : Option RuleCache}
    (hother : Quiet { enforcer with cache }) (email resource action : String)
    (object : ObjectPath) :
    Enforcer.permits { enforcer with cache } time' email resource action object =
      enforcer.permits time email resource action object := by
  refine permits_eq_of_decidesAs (fun email => ?_) time time' email resource action object
  refine h.sound.decidesAs hother.sound rfl rfl rfl ?_
  cases enforcer.store.store.loaded with
  | none => exact .none
  | some snapshot => exact .some (.refl snapshot email)

end Enforcer

namespace Session

variable {session : Session}

theorem enforcer_run_of_isCheck (h : session.enforcer.Quiet) {steps : List (Timing × Step)}
    (hchecks : ∀ timed ∈ steps, timed.2.isCheck = true) :
    ∃ cache, (session.run steps).2.enforcer = { session.enforcer with cache } ∧
      Enforcer.Quiet { session.enforcer with cache } := by
  -- over all sessions, since every check may leave another cache
  induction steps generalizing session with
  | nil => exact ⟨session.enforcer.cache, rfl, h⟩
  | cons timed rest ih =>
      have hstep := @enforcer_of_isCheck session timed.1 timed.2 (hchecks timed List.mem_cons_self)
      obtain ⟨cache, hlook, hquiet⟩ :=
        h.lookFor timed.1 (timed.2.asked? session.enforcer.identity)
      rw [hlook] at hstep
      obtain ⟨cache', hrun, hquiet'⟩ := @ih (session.step timed.1 timed.2).2 (hstep ▸ hquiet)
        fun later hmem => hchecks later (List.mem_cons_of_mem _ hmem)
      rw [hstep] at hrun hquiet'
      exact ⟨cache', hrun, hquiet'⟩

theorem permits_run_of_isCheck (h : session.enforcer.Quiet) {steps : List (Timing × Step)}
    (hchecks : ∀ timed ∈ steps, timed.2.isCheck = true) (time time' : Timing)
    (email resource action : String) (object : ObjectPath) :
    (session.run steps).2.enforcer.permits time' email resource action object =
      session.enforcer.permits time email resource action object := by
  obtain ⟨cache, hrun, hquiet⟩ := enforcer_run_of_isCheck h hchecks
  rw [hrun]
  exact h.permits_eq hquiet email resource action object

/-! ## Values of a batch -/

theorem answer_check (session : Session) (time : Timing) (email resource action object : String) :
    (session.step time (.check email resource action object)).1 =
      .flag (session.enforcer.permits time email resource action (.parse object)) := by
  simp only [Session.step, Enforcer.check_fst]

def valuesFor (objects : List String) (permits : ObjectPath → Bool) : List (ObjectPath × Bool) :=
  (sortedDistinct (objects.map ObjectPath.parse)).map fun object => (object, permits object)

theorem answer_checkBatch (session : Session) (time : Timing) (email resource action : String)
    (objects : List String) :
    (session.step time (.checkBatch email resource action objects)).1 =
      .decisions (valuesFor objects
        (session.enforcer.permits time email resource action)) := by
  simp only [Session.step, Enforcer.checkBatch_fst, valuesFor]

theorem nodup_texts_valuesFor (objects : List String) (permits : ObjectPath → Bool) :
    ((valuesFor objects permits).map fun value => value.1.text).Nodup := by
  have hascending := pairwise_lt_sortedDistinct (objects.map ObjectPath.parse)
  rw [valuesFor, List.map_map, List.Nodup, List.pairwise_map]
  refine hascending.imp fun {path other} hlt heq => ?_
  have hsame : path.text = other.text := heq
  have htexts : compare path.text other.text = .lt := hlt
  have hself : compare other.text other.text = .eq := Std.ReflCmp.compare_self
  rw [hsame, hself] at htexts
  exact nomatch htexts

theorem mem_texts_valuesFor (objects : List String) (permits : ObjectPath → Bool) (text : String) :
    text ∈ (valuesFor objects permits).map (fun value => value.1.text) ↔
      ∃ object ∈ objects, Text.normalize object = text := by
  simp only [valuesFor, List.map_map, List.mem_map, mem_sortedDistinct]
  constructor
  · rintro ⟨path, ⟨object, hobject, rfl⟩, rfl⟩
    exact ⟨object, hobject, rfl⟩
  · rintro ⟨object, hobject, rfl⟩
    exact ⟨.parse object, ⟨object, hobject, rfl⟩, rfl⟩

theorem valuesFor_eq_false {permits : ObjectPath → Bool} (h : ∀ object, permits object = false)
    (objects : List String) : ∀ value ∈ valuesFor objects permits, value.2 = false :=
  List.forall_mem_map.mpr fun object _ => h object

theorem lookup_valuesFor {objects : List String} (permits : ObjectPath → Bool) {object : String}
    (h : object ∈ objects) :
    (valuesFor objects permits).lookup (.parse object) = some (permits (.parse object)) :=
  List.lookup_graph permits (mem_sortedDistinct.mpr (List.mem_map_of_mem h))

/-- A batch has one value for the normal text of each of its objects, and no other. All are false
if the request cannot be read, if the rules of its email cannot be found, and if the view fails.
In a session in which no view is going to fail and nobody is about to change the rules, the value
for an object is what the check of the object answers, whatever was checked before the one and
before the other: the batch, the other objects, or anything else. -/
theorem batch_agrees_with_checks (session : Session) (email resource action : String)
    (objects : List String) :
    (∀ time, ∃ values,
      (session.step time (.checkBatch email resource action objects)).1 = .decisions values ∧
      (values.map fun value => value.1.text).Nodup ∧
      (∀ text, text ∈ values.map (fun value => value.1.text) ↔
        ∃ object ∈ objects, Text.normalize object = text) ∧
      ((∀ parsed, Enforcer.parseRequest email resource action = .ok parsed →
          ∃ error, (session.enforcer.effectiveRules time parsed.1).1 = .error error) →
        ∀ value ∈ values, value.2 = false) ∧
      ∀ message, session.enforcer.store.view.1 = .error message →
        ∀ value ∈ values, value.2 = false) ∧
    (session.Arises → session.enforcer.store.Spares .view →
      session.enforcer.store.interference = none →
      ∀ before before' : List (Timing × Step), (∀ timed ∈ before, timed.2.isCheck = true) →
        (∀ timed ∈ before', timed.2.isCheck = true) →
        ∀ time time', ∀ object ∈ objects, ∃ values allowed,
          ((session.run before).2.step time (.checkBatch email resource action objects)).1 =
              .decisions values ∧
            ((session.run before').2.step time' (.check email resource action object)).1 =
              .flag allowed ∧
            values.lookup (.parse object) = some allowed) := by
  constructor
  · intro time
    refine ⟨_, session.answer_checkBatch time email resource action objects,
      nodup_texts_valuesFor objects _, mem_texts_valuesFor objects _, ?_, ?_⟩
    · intro hunresolved
      exact valuesFor_eq_false (Enforcer.permits_of_unresolved hunresolved) objects
    · intro message hview
      have hunresolved (parsed : Email × Resource × Action) :
          ∃ error, (session.enforcer.effectiveRules time parsed.1).1 = .error error :=
        ⟨_, Enforcer.effectiveRules_of_view_error hview time parsed.1⟩
      exact valuesFor_eq_false
        (Enforcer.permits_of_unresolved fun parsed _ => hunresolved parsed) objects
  · intro harises hspares hundisturbed before before' hbefore hbefore' time time' object hobject
    have hquiet : session.enforcer.Quiet := ⟨hspares, hundisturbed, harises.cacheSound⟩
    -- both runs of checks leave what is permitted as it is in `session`
    have hbatch := permits_run_of_isCheck hquiet hbefore time time email resource action
    have hcheck := permits_run_of_isCheck hquiet hbefore' time time' email resource action
    refine ⟨_, _, answer_checkBatch _ time email resource action objects,
      answer_check _ time' email resource action object, ?_⟩
    rw [lookup_valuesFor _ hobject, hbatch, hcheck]

theorem batch_agrees_with_checks_of_viewer :
    let email : Email := ⟨"a@b", by decide, by decide, by decide⟩
    let view : RoleSubject := ⟨.view, .every⟩
    let rule : PolicyRule := ⟨view, .team, .get, .parse "dev", .allow⟩
    let session : Session := ((ofConfig { cacheCapacity := 1 } .cached none).run
      (clocked [.addGroupings [⟨.user email, view⟩], .install [⟨view, [rule]⟩]])).2
    let failing : Session := (session.step ⟨2, 2⟩ (.arm ⟨.view, 0, "away"⟩)).2
    let objects : List String := ["dev", " DEV ", "ops", ""]
    let check (object : String) : Step := .check "A@b" "team" "GET" object
    let batch : Step := .checkBatch "A@b" "team" "GET" objects
    (∃ values, ((session.run [(⟨3, 3⟩, check "dev")]).2.step ⟨4, 4⟩ batch).1 = .decisions values ∧
      values.lookup (.parse " DEV ") = some true ∧ values.lookup (.parse "ops") = some false) ∧
    ∃ values, (failing.step ⟨3, 3⟩ batch).1 = .decisions values ∧
      "dev" ∈ values.map (fun value => value.1.text) ∧ ∀ value ∈ values, value.2 = false := by
  intro email view rule session failing objects check batch
  have harises : session.Arises := by
    refine ⟨_, .cached, none, _, ?_, rfl⟩
    intro hbuild
    cases hbuild
  have hspares : session.enforcer.store.Spares .view := by
    intro failure hfailure
    cases hfailure
  have hbefore : ∀ timed ∈ [((⟨3, 3⟩ : Timing), check "dev")], timed.2.isCheck = true :=
    List.forall_mem_singleton.mpr rfl
  have hnone : ∀ timed ∈ ([] : List (Timing × Step)), timed.2.isCheck = true :=
    List.forall_mem_nil _
  have hrequest : Enforcer.parseRequest "A@b" "team" "GET" = .ok (email, .team, .get) := by rfl
  have hflag (object : String) (decision : Decision)
      (h : (session.enforcer.authorize ⟨3, 3⟩ email .team .get (.parse object)).1 =
        .ok decision) :
      (session.step ⟨3, 3⟩ (check object)).1 = .flag decision.isAllowed := by
    rw [answer_check, Enforcer.permits, hrequest]
    dsimp only
    rw [h]
  have hallow : (session.step ⟨3, 3⟩ (check " DEV ")).1 = .flag true := by
    apply hflag " DEV " .allow
    dsimp only [session, rule, view, email]
    cbv
  have hdeny : (session.step ⟨3, 3⟩ (check "ops")).1 = .flag false := by
    apply hflag "ops" .deny
    dsimp only [session, rule, view, email]
    cbv
  have hagrees := (batch_agrees_with_checks session "A@b" "team" "GET" objects).2 harises hspares
    rfl [(⟨3, 3⟩, check "dev")] [] hbefore hnone ⟨4, 4⟩ ⟨3, 3⟩
  constructor
  · obtain ⟨values, allowed, hvalues, hallowed, hlookup⟩ := hagrees " DEV " (by decide)
    obtain ⟨values', denied, hvalues', hdenied, hlookup'⟩ := hagrees "ops" (by decide)
    obtain rfl : values' = values := Answer.decisions.inj (hvalues'.symm.trans hvalues)
    obtain rfl : allowed = true := Answer.flag.inj (hallowed.symm.trans hallow)
    obtain rfl : denied = false := Answer.flag.inj (hdenied.symm.trans hdeny)
    exact ⟨values', hvalues, hlookup, hlookup'⟩
  · obtain ⟨values, hvalues, -, hmem, -, haway⟩ :=
      (batch_agrees_with_checks failing "A@b" "team" "GET" objects).1 ⟨3, 3⟩
    refine ⟨values, hvalues, (hmem "dev").mpr ⟨" DEV ", by decide, by decide⟩, ?_⟩
    exact haway "away" rfl

end Session

end ScopedAccess
