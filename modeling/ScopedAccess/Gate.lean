import ScopedAccess.Enforcer

/-!
# The gate

A gate stands before a service and lets a request through if the caller may do the gate's action
to the request's object. The caller is known by a token: a bearer token in the header
`authorization`, or else the header `token`.
-/

namespace ScopedAccess

namespace Gate

abbrev Headers : Type :=
  List (String × String)

/-- The first value of a header. Names are the same in every case; `name` is in lower case. -/
def first? (headers : Headers) (name : String) : Option String :=
  (headers.find? fun header => Text.lower header.1 = name).map Prod.snd

/-- Values with bytes other than visible ASCII, space and tab cannot be read as text. -/
def readable (value : String) : Bool :=
  value.toList.all fun c => (0x20 ≤ c.toNat && c.toNat ≤ 0x7E) || c = '\t'

def nonBlank? (text : String) : Option String :=
  let trimmed := Text.trim text
  if trimmed = "" then none else some trimmed

def bearerLead : String :=
  "Bearer "

/-- The header `token` counts only if there is no header `authorization`, not even a wrong one. -/
def token? (headers : Headers) : Option String :=
  match first? headers "authorization" with
  | some value =>
      if readable value then (Text.after? bearerLead value).bind nonBlank? else none
  | none =>
      match first? headers "token" with
      | some value => if readable value then nonBlank? value else none
      | none => none

inductive Reply where
  | answered (status : Nat) (body : String)
  | failed (message : String)
  deriving DecidableEq

structure Request where
  headers : Headers
  resource : Resource
  action : Action
  object : Option String
  /-- How the service behind the gate fails before it is called, if it does. -/
  serviceFailure : Option String := none
  serviceReply : Email → Reply

inductive Response where
  | missingToken
  | invalidToken
  | missingObject
  | forbidden
  | serviceFailed (message : String)
  | served (caller : Email) (reply : Reply)
  deriving DecidableEq

namespace Response

/-- What the service says is passed on as it is. -/
def reply : Response → Reply
  | missingToken => .answered 401 "missing token"
  | invalidToken => .answered 401 "invalid token"
  | missingObject => .answered 400 "missing object"
  | forbidden => .answered 403 "forbidden"
  | serviceFailed message => .failed message
  | served _ reply => reply

def reached : Response → Bool
  | serviceFailed _ => true
  | served _ _ => true
  | _ => false

end Response

def serve (request : Request) (caller : Email) : Response :=
  match request.serviceFailure with
  | some message => .serviceFailed message
  | none => .served caller (request.serviceReply caller)

/-- The token is looked at first, then the object, and only then the rules are. -/
def handle (enforcer : Enforcer) (time : Timing) (request : Request) : Response × Enforcer :=
  match token? request.headers with
  | none => (.missingToken, enforcer)
  | some token =>
      match enforcer.resolve token with
      | none => (.invalidToken, enforcer)
      | some caller =>
          match request.object with
          | none => (.missingObject, enforcer)
          | some object =>
              match enforcer.check time caller.text request.resource.text request.action.text
                  object with
              | (true, enforcer) => (serve request caller, enforcer)
              | (false, enforcer) => (.forbidden, enforcer)

end Gate

end ScopedAccess
