import RoleFlow.Program.Basic
import RoleFlow.Validation

/-!
# Programs as JSON

Each part of a program is an object with all its members. What is read back may leave out the
members that can be empty. Expressions and steps carry a tag that tells their kind. Models of what
`model_dump` and `model_validate` do for the types of `Program`.

Main definitions:
* `Program.toJson` and `Program.check`: writing, and reading with all issues listed.
* `Element.toJson` and `Element.check`: the same for a step, at any depth.
-/

namespace RoleFlow

/-! ## Writing -/

/-- An expression as JSON. -/
def Expression.toJson : Expression → Json
  | .text value => .object [("type", .str "stringLiteral"), ("value", .str value)]
  | .number value => .object [("type", .str "numberLiteral"), ("value", .float value)]
  | .boolean value => .object [("type", .str "booleanLiteral"), ("value", .bool value)]
  | .identifier name => .object [("type", .str "identifier"), ("name", .str name)]
  | .property owner part =>
    .object [("type", .str "propertyAccess"), ("object", .str owner), ("property", .str part)]

/-- An argument as JSON. -/
def Argument.toJson (a : Argument) : Json :=
  .object [("name", Json.ofString? a.name), ("value", a.value.toJson)]

mutual

/-- A step as JSON. -/
def Element.toJson : Element → Json
  | .call name args =>
    .object [("type", .str "actionCall"), ("name", .str name),
      ("args", .list (args.map Argument.toJson))]
  | .decision condition thenBody elseBody =>
    .object [("type", .str "decision"), ("condition", condition.toJson),
      ("if_body", .list (Element.toJsonList thenBody)),
      ("else_body", .list (Element.toJsonList elseBody))]

/-- The steps of a body as JSON. -/
def Element.toJsonList : List Element → List Json
  | [] => []
  | element :: elements => element.toJson :: Element.toJsonList elements

end

/-- A name with its type as JSON. -/
def TypedName.toJson (t : TypedName) : Json :=
  .object [("name", .str t.name), ("type", .str t.type)]

/-- An action as JSON. -/
def ActionDef.toJson (a : ActionDef) : Json :=
  .object [("name", .str a.name), ("actor", .str a.actor.name),
    ("role_name", Json.ofString? a.roleName),
    ("parameters", .list (a.parameters.map TypedName.toJson)),
    ("description", .str a.description), ("inputs", Json.ofStrings a.inputs),
    ("outputs", Json.ofStrings a.outputs)]

/-- An entity as JSON. -/
def EntityDef.toJson (e : EntityDef) : Json :=
  .object [("name", .str e.name), ("attributes", .list (e.attributes.map TypedName.toJson))]

/-- A role as JSON. -/
def RoleDef.toJson (r : RoleDef) : Json :=
  .object [("name", .str r.name), ("description", .str r.description),
    ("kind", Json.ofString? (r.kind.map ActorKind.name))]

/-- A workflow as JSON. -/
def WorkflowDef.toJson (w : WorkflowDef) : Json :=
  .object [("name", .str w.name), ("elements", .list (Element.toJsonList w.elements))]

/-- A program as JSON. Model of `model_dump` of `Program`. -/
def Program.toJson (p : Program) : Json :=
  .object [("actions", .list (p.actions.map ActionDef.toJson)),
    ("entities", .list (p.entities.map EntityDef.toJson)),
    ("roles", .list (p.roles.map RoleDef.toJson)),
    ("workflows", .list (p.workflows.map WorkflowDef.toJson))]

/-! ## Reading -/

open Check

/-- The kind of actor of a name. -/
def ActorKind.ofName? (name : String) : Option ActorKind :=
  if name = "AI" then some .ai
  else if name = "Human" then some .human
  else if name = "Role" then some .role
  else none

/-- The kinds of expressions. -/
inductive ExpressionKind where
  | text
  | number
  | boolean
  | identifier
  | property
  deriving DecidableEq

namespace ExpressionKind

/-- The tag of a kind of expression. -/
def tag : ExpressionKind → String
  | .text => "stringLiteral"
  | .number => "numberLiteral"
  | .boolean => "booleanLiteral"
  | .identifier => "identifier"
  | .property => "propertyAccess"

/-- The kind of expression of a tag. -/
def ofTag? (tag : String) : Option ExpressionKind :=
  if tag = "stringLiteral" then some .text
  else if tag = "numberLiteral" then some .number
  else if tag = "booleanLiteral" then some .boolean
  else if tag = "identifier" then some .identifier
  else if tag = "propertyAccess" then some .property
  else none

/-- The members of an expression of a known kind, its tag aside. -/
def checkMembers (kind : ExpressionKind) (fields : Fields) : Checked Expression :=
  match kind with
  | .text => Expression.text <$> required fields "value" Check.text
  | .number => Expression.number <$> required fields "value" Check.double
  | .boolean => Expression.boolean <$> required fields "value" Check.boolean
  | .identifier => Expression.identifier <$> required fields "name" Check.text
  | .property =>
    Expression.property <$> required fields "object" Check.text <*>
      required fields "property" Check.text

/-- An expression that has to be of a given kind, whose tag may be left out. -/
def check (kind : ExpressionKind) : Json → Checked Expression :=
  model fun fields => (fun _ e => e) <$> Check.tag fields kind.tag <*> kind.checkMembers fields

end ExpressionKind

/-- An expression, of the kind that its tag tells. -/
def Expression.check : Json → Checked Expression
  | .object fields =>
    match Fields.get? fields "type" with
    | none => .fail .tagNotFound
    | some (.str tag) =>
      match ExpressionKind.ofTag? tag with
      | some kind => (kind.checkMembers fields).under (.field kind.tag)
      | none => .fail .tagInvalid
    | some _ => .fail .tagInvalid
  | _ => .fail .notAttributes

/-- An argument. -/
def Argument.check : Json → Checked Argument :=
  model fun fields =>
    Argument.mk <$> withDefault fields "name" none (optional Check.text) <*>
      required fields "value" Expression.check

/-- The members of a call, its tag aside. -/
def Element.checkCallMembers (fields : Fields) : Checked Element :=
  Element.call <$> required fields "name" Check.text <*>
    withDefault fields "args" [] (Check.list Argument.check)

/-- A call, whose tag may be left out. -/
def Element.checkCall : Json → Checked Element :=
  model fun fields =>
    (fun _ e => e) <$> Check.tag fields "actionCall" <*> Element.checkCallMembers fields

mutual

/-- A step, of the kind that its tag tells. -/
def Element.check : Json → Checked Element
  | .object fields =>
    match Fields.get? fields "type" with
    | none => .fail .tagNotFound
    | some (.str "actionCall") => (Element.checkCallMembers fields).under (.field "actionCall")
    | some (.str "decision") =>
      Checked.under (.field "decision")
        (Element.decision <$> required fields "condition" Expression.check <*>
          Element.checkBody "if_body" fields <*> Element.checkBody "else_body" fields)
    | some _ => .fail .tagInvalid
  | _ => .fail .notAttributes

/-- The steps in a member of an object; they may be absent. -/
def Element.checkBody (name : String) : List (String × Json) → Checked (List Element)
  | [] => .valid []
  | (key, json) :: fields =>
    if key = name then (Element.checkSteps json).under (.field name)
    else Element.checkBody name fields

/-- A list of steps. Model of `model_validate` for lists of `WorkflowElement`. -/
def Element.checkSteps : Json → Checked (List Element)
  | .list items => Element.checkFrom 0 items
  | _ => .fail .notList

/-- The steps of a list, numbered from `i`. -/
def Element.checkFrom : (i : Nat) → List Json → Checked (List Element)
  | _, [] => .valid []
  | i, json :: items =>
    List.cons <$> (Element.check json).under (.index i) <*> Element.checkFrom (i + 1) items

end

/-- A name with its type. -/
def TypedName.check : Json → Checked TypedName :=
  model fun fields =>
    TypedName.mk <$> required fields "name" Check.text <*> required fields "type" Check.text

/-- An action. -/
def ActionDef.check : Json → Checked ActionDef :=
  model fun fields =>
    ActionDef.mk <$> required fields "name" Check.text <*>
      required fields "actor" (oneOf ActorKind.ofName?) <*>
      withDefault fields "role_name" none (optional Check.text) <*>
      withDefault fields "parameters" [] (Check.list TypedName.check) <*>
      withDefault fields "description" "" Check.text <*>
      withDefault fields "inputs" [] (Check.list Check.text) <*>
      withDefault fields "outputs" [] (Check.list Check.text)

/-- An entity. -/
def EntityDef.check : Json → Checked EntityDef :=
  model fun fields =>
    EntityDef.mk <$> required fields "name" Check.text <*>
      withDefault fields "attributes" [] (Check.list TypedName.check)

/-- A role. -/
def RoleDef.check : Json → Checked RoleDef :=
  model fun fields =>
    RoleDef.mk <$> required fields "name" Check.text <*>
      withDefault fields "description" "" Check.text <*>
      withDefault fields "kind" none (optional (oneOf ActorKind.ofName?))

/-- A workflow. -/
def WorkflowDef.check : Json → Checked WorkflowDef :=
  model fun fields =>
    WorkflowDef.mk <$> required fields "name" Check.text <*>
      withDefault fields "elements" [] Element.checkSteps

/-- A program. Model of `model_validate` of `Program`. -/
def Program.check : Json → Checked Program :=
  model fun fields =>
    Program.mk <$> withDefault fields "actions" [] (Check.list ActionDef.check) <*>
      withDefault fields "entities" [] (Check.list EntityDef.check) <*>
      withDefault fields "roles" [] (Check.list RoleDef.check) <*>
      withDefault fields "workflows" [] (Check.list WorkflowDef.check)

end RoleFlow
