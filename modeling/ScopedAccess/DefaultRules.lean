import ScopedAccess.Rule

/-!
# Default rules

Every role kind has a template: which actions it allows on which resources, and how the object of
each rule follows from the scope of the role. Generating fills the templates in for a scope.
-/

namespace ScopedAccess

structure RuleGroup where
  role : RoleSubject
  rules : List PolicyRule
  deriving DecidableEq

namespace RuleGroup

def installable (group : RuleGroup) : List PolicyRule :=
  group.rules.filter PolicyRule.installable

end RuleGroup

namespace DefaultRules

inductive ObjectShape where
  | teamEntity
  | environmentEntity
  | team
  | environment
  deriving DecidableEq, Repr

structure Entry where
  resource : Resource
  action : Action
  object : ObjectShape
  deriving DecidableEq, Repr

def template : RoleKind → List Entry
  | .manager =>
      [⟨.applications, .any, .teamEntity⟩,
        ⟨.environment, .any, .environmentEntity⟩,
        ⟨.team, .any, .team⟩,
        ⟨.user, .any, .team⟩,
        ⟨.notification, .any, .team⟩,
        ⟨.globalEnvironment, .any, .environment⟩]
  | .admin =>
      [⟨.applications, .any, .teamEntity⟩,
        ⟨.environment, .any, .environmentEntity⟩,
        ⟨.team, .get, .team⟩,
        ⟨.globalEnvironment, .get, .environment⟩]
  | .trigger =>
      [⟨.applications, .get, .teamEntity⟩,
        ⟨.applications, .trigger, .teamEntity⟩,
        ⟨.environment, .trigger, .environmentEntity⟩,
        ⟨.environment, .get, .environmentEntity⟩,
        ⟨.globalEnvironment, .get, .environment⟩,
        ⟨.team, .get, .team⟩]
  | .view =>
      [⟨.applications, .get, .teamEntity⟩,
        ⟨.environment, .get, .environmentEntity⟩,
        ⟨.globalEnvironment, .get, .environment⟩,
        ⟨.team, .get, .team⟩]

def orWildcard (text : String) : String :=
  if text = "" then wildcard else text

namespace ObjectShape

/-- Two-part objects write `*` for an empty name, one-part objects are then empty themselves. -/
def render (scope : Scope) : ObjectShape → ObjectPath
  | teamEntity =>
      .parse (orWildcard scope.team.text ++ "/" ++ orWildcard scope.entity.text)
  | environmentEntity =>
      .parse (orWildcard scope.environment.text ++ "/" ++ orWildcard scope.entity.text)
  | team => .parse scope.team.text
  | environment => .parse scope.environment.text

end ObjectShape

def Entry.render (entry : Entry) (role : RoleSubject) : PolicyRule :=
  ⟨role, entry.resource, entry.action, entry.object.render role.scope, .allow⟩

/-- A role is fit for storing if its text is read as the role itself. -/
def checkDecodes (role : RoleSubject) : Except GenerationFault Unit :=
  match RoleSubject.parse role.text with
  | .ok decoded => if decoded = role then .ok () else .error (.decode role (.different decoded))
  | .error fault => .error (.decode role (.refused fault))

def generate (kind : RoleKind) (team entity environment : String) :
    Except GenerationFault RuleGroup := do
  let scope ← (Scope.parse team environment entity).mapError (.render kind)
  let role : RoleSubject := ⟨kind, scope⟩
  checkDecodes role
  return ⟨role, (template kind).map fun entry => entry.render role⟩

def generateAll (team entity environment : String) :
    Except GenerationFault (List RuleGroup) :=
  RoleKind.all.mapM fun kind => generate kind team entity environment

end DefaultRules

end ScopedAccess
