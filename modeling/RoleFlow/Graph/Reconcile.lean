import RoleFlow.Graph.Walk
import RoleFlow.Json.Shown
import RoleFlow.Log
import RoleFlow.Program.Json
import RoleFlow.Program.Render

/-!
# The program of a graph

Actions, entities and roles are read from the data of their nodes, which may hold anything; what
cannot be read is dropped. Workflows are read off by walking. A call has an argument for every
declared input that reaches its action as data. This is `GraphToAstConverter`.

Main definitions:
* `Graph.program`: the program of a graph.
* `Graph.reconcile`: the same with a warning for each thing dropped.
-/

namespace RoleFlow

/-! ## Node data -/

/-- The names in a list; anything but a list reads as no names, and nulls are left out. Model of
`_read_names`. -/
def namesOf : Option Json → List String
  | some (.list items) =>
    items.filterMap fun
      | .null => none
      | json => some json.asText
  | _ => []

/-- A warning of the reconciler. -/
def warn (message : String) : Record := ⟨.warning, .converter, message⟩

/-- The typed names in a list. Anything but a list reads as none, and items that are not typed
names are dropped with a warning. Model of `_read_entries`. -/
def typedNamesOf (noun owner : String) : Option Json → Logged (List TypedName)
  | some (.list items) =>
    ⟨items.filterMap fun json => (TypedName.check json).toOption,
      items.filterMap fun json =>
        if (TypedName.check json).toOption.isSome then none
        else some (warn ("Dropping unreadable " ++ noun ++ " of " ++ owner ++ ": " ++ json.shown))⟩
  | _ => pure []

/-- What stands before the name of a role in the actor of an action. Model of `ROLE_PREFIX`. -/
def roleMark : String := "role:"

/-- The text without the given beginning, if it has it. -/
def dropBeginning? (beginning text : String) : Option String :=
  if beginning.toList.isPrefixOf text.toList then
    some (String.ofList (text.toList.drop beginning.length))
  else none

/-- The actor that a text tells, with the name of its role. -/
def actorOfText? (text : String) : Option (ActorKind × Option String) :=
  match dropBeginning? roleMark text with
  | some role => some (.role, some role)
  | none =>
    if text = ActorKind.ai.name then some (.ai, none)
    else if text = ActorKind.human.name then some (.human, none)
    else none

namespace Node

/-- The inputs that an action node declares. -/
def declaredInputs (n : Node) : List String := namesOf (n.data.get? "inputs")

/-- The action of a node. An actor that cannot be read counts as a human. Model of
`GraphToAstConverter._action`. -/
def action (n : Node) : Logged ActionDef := do
  let label := Json.textOrEmpty (n.data.get? "actor")
  let actor := actorOfText? label
  if actor.isNone then
    Logged.log
      [warn ("Action " ++ n.label ++ " has unreadable actor " ++ quoted label ++ ", using Human")]
  let (kind, roleName) := actor.getD (.human, none)
  let parameters ← typedNamesOf "parameter" n.label (n.data.get? "parameters")
  pure ⟨n.label, kind, roleName, parameters, Json.textOrEmpty (n.data.get? "description"),
    n.declaredInputs, namesOf (n.data.get? "outputs")⟩

/-- The entity of a node. Model of `GraphToAstConverter._entity`. -/
def entity (n : Node) : Logged EntityDef := do
  let attributes ← typedNamesOf "attribute" n.label (n.data.get? "attributes")
  pure ⟨n.label, attributes⟩

/-- The role of a node. Model of `GraphToAstConverter._role`. -/
def role (n : Node) : RoleDef :=
  let kind := match n.data.get? "kind" with
    | some (.str name) =>
      if name = ActorKind.ai.name then some .ai
      else if name = ActorKind.human.name then some .human
      else none
    | _ => none
  ⟨n.label, Json.textOrEmpty (n.data.get? "description"), kind⟩

end Node

/-! ## Workflows -/

/-- An argument that passes data on under its own name. -/
def bindingOf (name : String) : Argument := ⟨some name, .identifier name⟩

namespace Graph

/-- The label of the data that an edge brings. -/
def dataLabel? (g : Graph) (e : Edge) : Option String :=
  match g.node? e.source with
  | some node => if node.kind = .data then some node.label else none
  | none => none

/-- The arguments of a call of an action: its declared inputs, in the order of the edges that bring
them. Model of `GraphToAstConverter.reconstruct_arguments`. -/
def argumentsOf (g : Graph) (action : Node) : List Argument :=
  let declared := action.declaredInputs
  (g.incoming action.id (some .dataFlow)).filterMap fun edge =>
    match g.dataLabel? edge with
    | some label => if declared.contains label then some (bindingOf label) else none
    | none => none

/-- The workflow of a node. Model of `GraphToAstConverter._workflow`. -/
def workflowOf (g : Graph) (n : Node) : WorkflowDef :=
  ⟨n.label, (g.sequencePath n.id).map fun action => .call action.label (g.argumentsOf action)⟩

/-- The definition of a node; data has none. -/
def definitionOf (g : Graph) (n : Node) : Logged (Option Definition) :=
  match n.kind with
  | .action => (fun action => some (.action action)) <$> n.action
  | .entity => (fun entity => some (.entity entity)) <$> n.entity
  | .role => pure (some (.role n.role))
  | .workflow => pure (some (.workflow (g.workflowOf n)))
  | .data => pure none

/-- The program of a graph, with a warning for everything that its nodes hold and that cannot be
read. Model of `GraphToAstConverter.convert`. -/
def reconcile (g : Graph) : Logged Program :=
  let definitions := g.nodes.map g.definitionOf
  ⟨Program.ofDefinitions (definitions.filterMap (·.value)), definitions.flatMap (·.records)⟩

/-- The program of a graph. Model of what `GraphToAstConverter.convert` returns. -/
def program (g : Graph) : Program := g.reconcile.value

/-- The program of a graph as text. Model of `GraphEditor.to_dsl`. -/
def text (g : Graph) : Logged String := do
  let program ← g.reconcile
  pure program.render

end Graph

end RoleFlow
