import RoleFlow.Number.Double

/-!
# Workflow programs

A program declares roles, actions, entities and workflows. A workflow is a list of action calls
and decisions, whose branches hold such lists again. Models of `Program` and the types of its
parts.
-/

namespace RoleFlow

/-- Who performs an action, or what kind of actor a role is. Model of `ActorKind`. -/
inductive ActorKind where
  | ai
  | human
  | role
  deriving DecidableEq

/-- The name of a kind of actor. -/
def ActorKind.name : ActorKind → String
  | .ai => "AI"
  | .human => "Human"
  | .role => "Role"

/-- A value in an argument or a condition. Model of `StringLiteral`, `NumberLiteral`,
`BooleanLiteral`, `Identifier` and `PropertyAccess`. -/
inductive Expression where
  | text (value : String)
  | number (value : Double)
  | boolean (value : Bool)
  | identifier (name : String)
  | property (object property : String)
  deriving DecidableEq

/-- An argument of a call, with a name or by position. Model of `Argument`. -/
structure Argument where
  name : Option String
  value : Expression
  deriving DecidableEq

/-- A step of a workflow. Model of `ActionCall` and `Decision`. -/
inductive Element where
  | call (name : String) (args : List Argument)
  | decision (condition : Expression) (thenBody elseBody : List Element)

/-- A name with its type: a parameter of an action or an attribute of an entity. Model of
`Parameter` and `Attribute`. -/
structure TypedName where
  name : String
  type : String
  deriving DecidableEq

/-- A unit of work performed by an AI, a human or a named role. Model of `ActionDef`. -/
structure ActionDef where
  name : String
  actor : ActorKind
  roleName : Option String
  parameters : List TypedName
  description : String
  inputs : List String
  outputs : List String
  deriving DecidableEq

/-- A data type. Model of `EntityDef`. -/
structure EntityDef where
  name : String
  attributes : List TypedName
  deriving DecidableEq

/-- A named category of actors. Model of `RoleDef`. -/
structure RoleDef where
  name : String
  description : String
  kind : Option ActorKind
  deriving DecidableEq

/-- A named sequence of steps. Model of `WorkflowDef`. -/
structure WorkflowDef where
  name : String
  elements : List Element

/-- A whole document, each kind of definition in its order. Model of `Program`. -/
structure Program where
  actions : List ActionDef
  entities : List EntityDef
  roles : List RoleDef
  workflows : List WorkflowDef

/-- A definition of a program. -/
inductive Definition where
  | action (action : ActionDef)
  | entity (entity : EntityDef)
  | role (role : RoleDef)
  | workflow (workflow : WorkflowDef)

/-- The program with the given definitions, each kind in its order. -/
def Program.ofDefinitions (definitions : List Definition) : Program where
  actions := definitions.filterMap fun | .action a => some a | _ => none
  entities := definitions.filterMap fun | .entity e => some e | _ => none
  roles := definitions.filterMap fun | .role r => some r | _ => none
  workflows := definitions.filterMap fun | .workflow w => some w | _ => none

/-! ## Equality -/

mutual

/-- Equality of steps is decidable. -/
def Element.decEq : (a b : Element) → Decidable (a = b)
  | .call name args, .call name' args' =>
    decidable_of_iff (name = name' ∧ args = args') (by simp)
  | .decision condition thenBody elseBody, .decision condition' thenBody' elseBody' =>
    have := Element.decEqList thenBody thenBody'
    have := Element.decEqList elseBody elseBody'
    decidable_of_iff (condition = condition' ∧ thenBody = thenBody' ∧ elseBody = elseBody')
      (by simp)
  | .call .., .decision .. => isFalse (by simp)
  | .decision .., .call .. => isFalse (by simp)

/-- Equality of bodies is decidable. -/
def Element.decEqList : (a b : List Element) → Decidable (a = b)
  | [], [] => isTrue rfl
  | x :: xs, y :: ys =>
    have := Element.decEq x y
    have := Element.decEqList xs ys
    decidable_of_iff (x = y ∧ xs = ys) (by simp)
  | [], _ :: _ => isFalse (by simp)
  | _ :: _, [] => isFalse (by simp)

end

instance : DecidableEq Element := Element.decEq

deriving instance DecidableEq for WorkflowDef
deriving instance DecidableEq for Program

/-! ## Access -/

/-- The program without definitions. -/
def Program.empty : Program := ⟨[], [], [], []⟩

/-- The first action of a name. Model of `Program.get_action`. -/
def Program.action? (p : Program) (name : String) : Option ActionDef :=
  p.actions.find? (·.name == name)

/-- The first role of a name. Model of `Program.get_role`. -/
def Program.role? (p : Program) (name : String) : Option RoleDef :=
  p.roles.find? (·.name == name)

/-- What a missing role name reads as. -/
def roleNameText (name : Option String) : String := name.getD "None"

/-- Who performs the action: `AI`, `Human`, or `role:` and the name of the role. Model of
`ActionDef.actor_label`. -/
def ActionDef.actorLabel (a : ActionDef) : String :=
  match a.actor with
  | .role => "role:" ++ roleNameText a.roleName
  | kind => kind.name

mutual

/-- The calls of a step, those in branches included, in source order. -/
def Element.calls : Element → List String
  | .call name _ => [name]
  | .decision _ thenBody elseBody => Element.callsList thenBody ++ Element.callsList elseBody

/-- The calls of a body, those in branches included, in source order. Model of `_iter_calls`. -/
def Element.callsList : List Element → List String
  | [] => []
  | element :: elements => element.calls ++ Element.callsList elements

end

mutual

/-- The number of decisions in a step, nested ones included. -/
def Element.decisionCount : Element → Nat
  | .call .. => 0
  | .decision _ thenBody elseBody =>
    1 + Element.decisionCountList thenBody + Element.decisionCountList elseBody

/-- The number of decisions in a body, nested ones included. Model of the second count of
`_count_calls`. -/
def Element.decisionCountList : List Element → Nat
  | [] => 0
  | element :: elements => element.decisionCount + Element.decisionCountList elements

end

end RoleFlow
