import ScopedAccess.Proofs.Check.Meaning

/-!
# What the gate lets through

A request ends in exactly one of six ways (`Gate.Ends`), told apart by its token, by the object and
by the decision. The service behind the gate is reached exactly if the check of the token itself
allows it (`pass_iff_ends`).
-/

namespace ScopedAccess

/-! ## Tokens -/

/-- The token stands for a text, and the text is read as the email. -/
def Identity.StandsFor (identity : Identity) (token : String) (email : Email) : Prop :=
  ∃ table emailText, identity = some table ∧ table.find? token = some emailText ∧
    Email.parse emailText = .ok email

theorem Identity.resolve_eq_some_iff {identity : Identity} {token : String} {email : Email} :
    identity.resolve token = some email ↔ identity.StandsFor token email := by
  unfold StandsFor
  cases identity with
  | none => simp [resolve]
  | some table =>
      cases hfind : table.find? token with
      | none => simp [resolve, hfind]
      | some emailText =>
          cases hparse : Email.parse emailText <;>
            simp [resolve, hfind, hparse, Except.toOption]

theorem Identity.resolve_eq_none_iff {identity : Identity} {token : String} :
    identity.resolve token = none ↔ ∀ email, ¬ identity.StandsFor token email := by
  simp only [Option.eq_none_iff_forall_ne_some, ne_eq, resolve_eq_some_iff]

namespace Gate

/-- The first header of that name, in whatever case the name is written, has that value. -/
def First (headers : Headers) (name value : String) : Prop :=
  ∃ before written after, headers = before ++ (written, value) :: after ∧
    Text.lower written = name ∧ ∀ header ∈ before, Text.lower header.1 ≠ name

/-- The headers carry a token. Any header `authorization` silences the header `token`. -/
inductive Carries (headers : Headers) (token : String) : Prop where
  | bearer {value rest : String} (first : First headers "authorization" value)
      (readable : readable value = true) (lead : value = "Bearer " ++ rest)
      (trimmed : Text.trim rest = token) (ne_empty : token ≠ "")
  | plain {value : String} (silent : ∀ header ∈ headers, Text.lower header.1 ≠ "authorization")
      (first : First headers "token" value) (readable : readable value = true)
      (trimmed : Text.trim value = token) (ne_empty : token ≠ "")

theorem first?_eq_some_iff {headers : Headers} {name value : String} :
    first? headers name = some value ↔ First headers name value := by
  simp only [first?, First, Option.map_eq_some_iff, List.find?_eq_some_iff_append,
    decide_eq_true_eq]
  constructor
  · rintro ⟨⟨written, value⟩, ⟨hname, before, after, hsplit, hbefore⟩, rfl⟩
    exact ⟨before, written, after, hsplit, hname, by simpa using hbefore⟩
  · rintro ⟨before, written, after, hsplit, hname, hbefore⟩
    exact ⟨(written, value), ⟨hname, before, after, hsplit, by simpa using hbefore⟩, rfl⟩

theorem first?_eq_none_iff {headers : Headers} {name : String} :
    first? headers name = none ↔ ∀ header ∈ headers, Text.lower header.1 ≠ name := by
  simp [first?]

theorem nonBlank?_eq_some_iff {text token : String} :
    nonBlank? text = some token ↔ Text.trim text = token ∧ token ≠ "" := by
  unfold nonBlank?
  dsimp only
  split
  · next hblank => simp [hblank]
  · next hsome =>
      constructor
      · rintro ⟨⟩
        exact ⟨rfl, hsome⟩
      · rintro ⟨rfl, -⟩
        rfl

theorem token?_eq_some_iff {headers : Headers} {token : String} :
    token? headers = some token ↔ Carries headers token := by
  unfold token?
  constructor
  · intro h
    split at h
    · next value hvalue =>
        split at h
        · next hread =>
            obtain ⟨rest, hlead, hrest⟩ := Option.bind_eq_some_iff.mp h
            obtain ⟨htrim, hne⟩ := nonBlank?_eq_some_iff.mp hrest
            exact .bearer (first?_eq_some_iff.mp hvalue) hread
              (Text.after?_eq_some_iff.mp hlead) htrim hne
        · exact nomatch h
    · next hsilent =>
        -- no header `authorization` at all, so the other one counts
        split at h
        · next value hvalue =>
            split at h
            · next hread =>
                obtain ⟨htrim, hne⟩ := nonBlank?_eq_some_iff.mp h
                exact .plain (first?_eq_none_iff.mp hsilent) (first?_eq_some_iff.mp hvalue)
                  hread htrim hne
            · exact nomatch h
        · exact nomatch h
  · intro h
    cases h with
    | bearer first readable lead trimmed ne_empty =>
        rw [first?_eq_some_iff.mpr first]
        dsimp only
        rw [if_pos readable, bearerLead, Text.after?_eq_some_iff.mpr lead, Option.bind_some]
        exact nonBlank?_eq_some_iff.mpr ⟨trimmed, ne_empty⟩
    | plain silent first readable trimmed ne_empty =>
        rw [first?_eq_none_iff.mpr silent, first?_eq_some_iff.mpr first]
        dsimp only
        rw [if_pos readable]
        exact nonBlank?_eq_some_iff.mpr ⟨trimmed, ne_empty⟩

theorem token?_eq_none_iff {headers : Headers} :
    token? headers = none ↔ ∀ token, ¬ Carries headers token := by
  simp only [Option.eq_none_iff_forall_ne_some, ne_eq, token?_eq_some_iff]

end Gate

/-! ## Checks of what was read already -/

namespace Enforcer

variable {enforcer : Enforcer} {time : Timing}

theorem check_texts_eq_true_iff {email : Email} {resource : Resource} {action : Action}
    {object : String} :
    (enforcer.check time email.text resource.text action.text object).1 = true ↔
      (enforcer.authorize time email resource action (.parse object)).1 = .ok .allow := by
  rw [check_eq_true_iff]
  constructor
  · rintro ⟨e, r, a, he, hr, ha, hauthorize⟩
    rw [Email.parse_text, Except.ok.injEq] at he
    rw [Resource.parse_text, Except.ok.injEq] at hr
    rw [Action.parse_text, Except.ok.injEq] at ha
    subst he hr ha
    exact hauthorize
  · intro hauthorize
    exact ⟨email, resource, action, email.parse_text, resource.parse_text, action.parse_text,
      hauthorize⟩

theorem enforce_eq_true_iff {token resource action object : String} :
    (enforcer.enforce time token resource action object).1 = true ↔
      ∃ email, enforcer.identity.StandsFor token email ∧
        (enforcer.check time email.text resource action object).1 = true := by
  simp only [← Identity.resolve_eq_some_iff]
  unfold enforce resolve
  cases enforcer.identity.resolve token with
  | none => simp
  | some email => simp

end Enforcer

/-! ## How requests end -/

namespace Gate

/-- How a request can end, with the reply to it. -/
inductive Ends (enforcer : Enforcer) (time : Timing) (request : Request) :
    Response → Reply → Prop where
  | missingToken (silent : ∀ token, ¬ Carries request.headers token) :
      Ends enforcer time request .missingToken (.answered 401 "missing token")
  | invalidToken {token : String} (carries : Carries request.headers token)
      (unknown : ∀ email, ¬ enforcer.identity.StandsFor token email) :
      Ends enforcer time request .invalidToken (.answered 401 "invalid token")
  | missingObject {token : String} {email : Email} (carries : Carries request.headers token)
      (known : enforcer.identity.StandsFor token email) (unset : request.object = none) :
      Ends enforcer time request .missingObject (.answered 400 "missing object")
  | forbidden {token object : String} {email : Email} (carries : Carries request.headers token)
      (known : enforcer.identity.StandsFor token email) (set : request.object = some object)
      (denied : (enforcer.authorize time email request.resource request.action
        (.parse object)).1 ≠ .ok .allow) :
      Ends enforcer time request .forbidden (.answered 403 "forbidden")
  | serviceFailed {token object message : String} {email : Email}
      (carries : Carries request.headers token) (known : enforcer.identity.StandsFor token email)
      (set : request.object = some object)
      (allowed : (enforcer.authorize time email request.resource request.action
        (.parse object)).1 = .ok .allow) (fails : request.serviceFailure = some message) :
      Ends enforcer time request (.serviceFailed message) (.failed message)
  | served {token object : String} {email : Email} (carries : Carries request.headers token)
      (known : enforcer.identity.StandsFor token email) (set : request.object = some object)
      (allowed : (enforcer.authorize time email request.resource request.action
        (.parse object)).1 = .ok .allow) (works : request.serviceFailure = none) :
      Ends enforcer time request (.served email (request.serviceReply email))
        (request.serviceReply email)

variable {enforcer : Enforcer} {time : Timing} {request : Request}

theorem handle_of_silent (h : ∀ token, ¬ Carries request.headers token) :
    (handle enforcer time request).1 = .missingToken := by
  unfold handle
  rw [token?_eq_none_iff.mpr h]

theorem handle_of_unknown {token : String} (hcarries : Carries request.headers token)
    (hunknown : ∀ email, ¬ enforcer.identity.StandsFor token email) :
    (handle enforcer time request).1 = .invalidToken := by
  unfold handle
  rw [token?_eq_some_iff.mpr hcarries]
  dsimp only
  rw [Enforcer.resolve, Identity.resolve_eq_none_iff.mpr hunknown]

theorem handle_of_unset {token : String} {email : Email}
    (hcarries : Carries request.headers token)
    (hknown : enforcer.identity.StandsFor token email) (hunset : request.object = none) :
    (handle enforcer time request).1 = .missingObject := by
  unfold handle
  rw [token?_eq_some_iff.mpr hcarries]
  dsimp only
  rw [Enforcer.resolve, Identity.resolve_eq_some_iff.mpr hknown, hunset]

theorem handle_of_set {token object : String} {email : Email}
    (hcarries : Carries request.headers token)
    (hknown : enforcer.identity.StandsFor token email) (hset : request.object = some object) :
    (handle enforcer time request).1 =
      if (enforcer.authorize time email request.resource request.action
          (.parse object)).1 = .ok .allow then serve request email else .forbidden := by
  have hcheck := @Enforcer.check_texts_eq_true_iff enforcer time email request.resource
    request.action object
  unfold handle
  rw [token?_eq_some_iff.mpr hcarries]
  dsimp only
  rw [Enforcer.resolve, Identity.resolve_eq_some_iff.mpr hknown, hset]
  dsimp only
  split
  · next hallowed =>
      rw [hallowed] at hcheck
      rw [if_pos (hcheck.mp rfl)]
  · next hdenied =>
      rw [hdenied] at hcheck
      rw [if_neg fun hallow => Bool.false_ne_true (hcheck.mpr hallow)]

theorem ends_handle (enforcer : Enforcer) (time : Timing) (request : Request) :
    Ends enforcer time request (handle enforcer time request).1
      (handle enforcer time request).1.reply := by
  cases htoken : token? request.headers with
  | none =>
      have hsilent := token?_eq_none_iff.mp htoken
      rw [handle_of_silent hsilent]
      exact .missingToken hsilent
  | some token =>
      have hcarries := token?_eq_some_iff.mp htoken
      cases hresolve : enforcer.identity.resolve token with
      | none =>
          have hunknown := Identity.resolve_eq_none_iff.mp hresolve
          rw [handle_of_unknown hcarries hunknown]
          exact .invalidToken hcarries hunknown
      | some email =>
          have hknown := Identity.resolve_eq_some_iff.mp hresolve
          cases hobject : request.object with
          | none =>
              rw [handle_of_unset hcarries hknown hobject]
              exact .missingObject hcarries hknown hobject
          | some object =>
              rw [handle_of_set hcarries hknown hobject]
              split
              · next hallowed =>
                  unfold serve
                  cases hfailure : request.serviceFailure with
                  | some message =>
                      exact .serviceFailed hcarries hknown hobject hallowed hfailure
                  | none => exact .served hcarries hknown hobject hallowed hfailure
              · next hdenied => exact .forbidden hcarries hknown hobject hdenied

theorem Ends.handle_eq {response : Response} {reply : Reply}
    (h : Ends enforcer time request response reply) :
    (handle enforcer time request).1 = response ∧ response.reply = reply := by
  cases h with
  | missingToken silent => exact ⟨handle_of_silent silent, rfl⟩
  | invalidToken carries unknown => exact ⟨handle_of_unknown carries unknown, rfl⟩
  | missingObject carries known unset => exact ⟨handle_of_unset carries known unset, rfl⟩
  | forbidden carries known set denied =>
      rw [handle_of_set carries known set, if_neg denied]
      exact ⟨rfl, rfl⟩
  | serviceFailed carries known set allowed fails =>
      rw [handle_of_set carries known set, if_pos allowed, serve, fails]
      exact ⟨rfl, rfl⟩
  | served carries known set allowed works =>
      rw [handle_of_set carries known set, if_pos allowed, serve, works]
      exact ⟨rfl, rfl⟩

theorem reached_handle_iff :
    (handle enforcer time request).1.reached = true ↔
      ∃ token object, Carries request.headers token ∧ request.object = some object ∧
        (enforcer.enforce time token request.resource.text request.action.text
          object).1 = true := by
  constructor
  · intro hreached
    have hends := ends_handle enforcer time request
    generalize (handle enforcer time request).1 = response at hreached hends
    cases hends with
    | missingToken | invalidToken | missingObject | forbidden => exact nomatch hreached
    | serviceFailed carries known set allowed _ | served carries known set allowed _ =>
        have hcheck := Enforcer.check_texts_eq_true_iff.mpr allowed
        exact ⟨_, _, carries, set, Enforcer.enforce_eq_true_iff.mpr ⟨_, known, hcheck⟩⟩
  · rintro ⟨token, object, hcarries, hset, henforce⟩
    obtain ⟨email, hknown, hcheck⟩ := Enforcer.enforce_eq_true_iff.mp henforce
    rw [handle_of_set hcarries hknown hset,
      if_pos (Enforcer.check_texts_eq_true_iff.mp hcheck), serve]
    split <;> rfl

end Gate

namespace Session

/-- A request of a session ends in the one way whose conditions it meets. It reaches the service
exactly if it has an object and the check of its token, on the texts of the gate's resource and
action, allows that object. -/
theorem pass_iff_ends (session : Session) (time : Timing) (request : Gate.Request) :
    (∀ response reply, Gate.Ends session.enforcer time request response reply ↔
      (session.step time (.pass request)).1 = .response response ∧
        response.reply = reply) ∧
    ((∃ response, (session.step time (.pass request)).1 = .response response ∧
        response.reached = true) ↔
      ∃ token object, Gate.Carries request.headers token ∧ request.object = some object ∧
        (session.enforcer.enforce time token request.resource.text request.action.text
          object).1 = true) := by
  have hanswer : (session.step time (.pass request)).1 =
      .response (Gate.handle session.enforcer time request).1 := rfl
  constructor
  · intro response reply
    rw [hanswer, Answer.response.injEq]
    constructor
    · exact Gate.Ends.handle_eq
    · rintro ⟨rfl, rfl⟩
      exact Gate.ends_handle session.enforcer time request
  · rw [← Gate.reached_handle_iff, hanswer]
    simp only [Answer.response.injEq, exists_eq_left']

end Session

end ScopedAccess
