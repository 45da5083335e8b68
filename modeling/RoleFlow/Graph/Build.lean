import RoleFlow.Graph.Basic
import RoleFlow.Log
import RoleFlow.Number.Spelling
import RoleFlow.Program.Json

/-!
# The graph of a program

A program is laid out in steps: a node for every action, entity, role and workflow, in this
order, the edges of a workflow after its node, then the nodes of the data that actions produce
with the edges of outputs, inputs and roles. Each step adds a node, adds an edge or skips a
reference, and logs what it has done if a log is wanted.

A name stands for the last definition of its kind. References that nothing stands for are
skipped, and of several edges of one id only the first is kept. This is
`AstToGraphConverter.convert`.

Main definitions:
* `Program.allSteps`: the steps of a program.
* `Program.build`: its graph, with a log or without.
* `Program.graph`: the nodes and edges of the steps, an edge counted once.

Results:
* `Program.build_eq`: the graph that is built is that of the steps, whether they are logged or not.
-/

namespace RoleFlow

/-! ## Steps -/

/-- A reference that is skipped. Model of the messages of `AstToGraphConverter._skip`. -/
inductive Skip where
  | start (workflow action : String)
  | sequence (source target : String)
  | input (name action : String)
  | role (action name : String)
  deriving DecidableEq

/-- The wording of a skipped reference. -/
def Skip.message : Skip → String
  | .start workflow action => "workflow " ++ workflow ++ " starts with unknown action " ++ action
  | .sequence source target =>
    "sequence " ++ source ++ " -> " ++ target ++ " references an unknown action"
  | .input name action => "input " ++ name ++ " of action " ++ action ++ " has no producer"
  | .role action name => "action " ++ action ++ " is performed by unknown role " ++ name

/-- A step of laying out a graph. Model of a call of `_add_node`, `_add_edge` or `_skip`. -/
inductive BuildStep where
  | node (node : Node)
  | edge (edge : Edge)
  | skip (skip : Skip)

namespace BuildStep

/-- The node that a step adds. -/
def node? : BuildStep → Option Node
  | .node n => some n
  | _ => none

/-- The edge that a step adds. -/
def edge? : BuildStep → Option Edge
  | .edge e => some e
  | _ => none

/-- The record of a step. -/
def record : BuildStep → Record
  | .node n =>
    ⟨.debug, .converter, "Added " ++ n.kind.name ++ " node " ++ n.id ++ " (" ++ n.label ++ ")"⟩
  | .edge e =>
    ⟨.debug, .converter,
      "Added " ++ e.kind.name ++ " edge " ++ e.source ++ " -> " ++ e.target ++ " (" ++ e.label ++
        ")"⟩
  | .skip s => ⟨.debug, .converter, "Skipped: " ++ s.message⟩

/-- The steps without edges whose id is among `ids` or that of an earlier edge. -/
def dropRepeated (ids : List String) : List BuildStep → List BuildStep
  | [] => []
  | .edge e :: steps =>
    if ids.contains e.id then dropRepeated ids steps
    else .edge e :: dropRepeated (e.id :: ids) steps
  | step :: steps => step :: dropRepeated ids steps

end BuildStep

/-! ## Ids -/

/-- The id of the node with a number. Model of `_BuildContext.new_node_id`. -/
def nodeId (number : Nat) : String := "node_" ++ digitsOf number

/-- The place of the last occurrence of a name. -/
def lastIndex? (name : String) : List String → Option Nat
  | [] => none
  | other :: names =>
    match lastIndex? name names with
    | some i => some (i + 1)
    | none => if other = name then some 0 else none

/-- The list with a name added at the end, unless it is there already. -/
def addNew (names : List String) (name : String) : List String :=
  if names.contains name then names else names ++ [name]

namespace Program

/-- The number of the first entity's node. -/
def entityBase (p : Program) : Nat := p.actions.length

/-- The number of the first role's node. -/
def roleBase (p : Program) : Nat := p.entityBase + p.entities.length

/-- The number of the first workflow's node. -/
def workflowBase (p : Program) : Nat := p.roleBase + p.roles.length

/-- The number of the first data node. -/
def dataBase (p : Program) : Nat := p.workflowBase + p.workflows.length

/-- The id of the node that an action's name stands for. Model of the `node_ids` of
`_BuildContext`. -/
def actionId? (p : Program) (name : String) : Option String :=
  (lastIndex? name (p.actions.map (·.name))).map nodeId

/-- The id of the node that a role's name stands for. Model of the `node_ids` of
`_BuildContext`. -/
def roleId? (p : Program) (name : String) : Option String :=
  (lastIndex? name (p.roles.map (·.name))).map fun i => nodeId (p.roleBase + i)

/-- The names of data that actions produce, in the order of their first mention. Model of the
`data_nodes` of `_BuildContext`. -/
def dataNames (p : Program) : List String := (p.actions.flatMap (·.outputs)).foldl addNew []

/-- The id of the node of data produced, where `names` are the data in order. -/
def dataIdAmong (p : Program) (names : List String) (name : String) : String :=
  nodeId (p.dataBase + names.idxOf name)

end Program

/-! ## Nodes -/

/-- The description of an action in its node. -/
def ActionDef.nodeData (a : ActionDef) : Fields :=
  [("actor", .str a.actorLabel), ("description", .str a.description),
    ("inputs", Json.ofStrings a.inputs), ("outputs", Json.ofStrings a.outputs),
    ("parameters", .list (a.parameters.map TypedName.toJson))]

/-- The description of an entity in its node. -/
def EntityDef.nodeData (e : EntityDef) : Fields :=
  [("attributes", .list (e.attributes.map TypedName.toJson))]

/-- The description of a role in its node. -/
def RoleDef.nodeData (r : RoleDef) : Fields :=
  [("description", .str r.description), ("kind", Json.ofString? (r.kind.map ActorKind.name))]

/-- The description of a workflow in its node. -/
def WorkflowDef.nodeData (w : WorkflowDef) : Fields :=
  [("elements", .list (Element.toJsonList w.elements))]

/-- The step of a node that has not been placed. -/
def nodeStep (id : String) (kind : NodeKind) (label : String) (data : Fields) : BuildStep :=
  .node ⟨id, kind, label, data, none⟩

/-- The step of an edge, whose id tells its tag and its ends. -/
def edgeStep (tag source target : String) (kind : EdgeKind) (label : String) : BuildStep :=
  .edge ⟨"edge_" ++ tag ++ "_" ++ source ++ "_" ++ target, source, target, kind, label, none, none,
    kind.style⟩

namespace Program

/-! ## Edges -/

/-- The step of a workflow's first element, if that is a call. Model of the start of
`AstToGraphConverter._add_sequence_edges`. -/
def startSteps (p : Program) (workflowId : String) (w : WorkflowDef) : List BuildStep :=
  match w.elements with
  | .call name _ :: _ =>
    match p.actionId? name with
    | some id => [edgeStep "workflow_start" workflowId id .workflowStart "starts with"]
    | none => [.skip (.start w.name name)]
  | _ => []

/-- The step of two elements that follow each other, if both are calls. Model of one turn of
`AstToGraphConverter._add_sequence_edges`. -/
def pairSteps (p : Program) : Element × Element → List BuildStep
  | (.call current _, .call following _) =>
    match p.actionId? current, p.actionId? following with
    | some source, some target => [edgeStep "workflow" source target .sequence "next"]
    | _, _ => [.skip (.sequence current following)]
  | _ => []

/-- The steps of a workflow whose node has the given id. Model of
`AstToGraphConverter._add_sequence_edges`, after the node of its workflow. -/
def workflowSteps (p : Program) (workflowId : String) (w : WorkflowDef) : List BuildStep :=
  nodeStep workflowId .workflow w.name w.nodeData :: p.startSteps workflowId w ++
    (w.elements.zip w.elements.tail).flatMap p.pairSteps

/-- The steps of outputs, given with the ids of the actions that produce them; the data in `names`
have nodes already. Model of `AstToGraphConverter._add_output_edges`. -/
def outputSteps (p : Program) : (names : List String) → List (String × String) → List BuildStep
  | _, [] => []
  | names, (actionId, output) :: outputs =>
    let dataId := p.dataIdAmong (addNew names output) output
    (if names.contains output then [] else [nodeStep dataId .data output []]) ++
      edgeStep "data_output" actionId dataId .dataFlow "produces" ::
        outputSteps p (addNew names output) outputs

/-- The step of an input of an action, where `names` are the data in order. Model of one turn of
`AstToGraphConverter._add_input_edges`. -/
def inputStep (p : Program) (names : List String) (actionId actionName input : String) :
    BuildStep :=
  if names.contains input then
    edgeStep "data_input" (p.dataIdAmong names input) actionId .dataFlow "used by"
  else .skip (.input input actionName)

/-- The step of the role that performs an action, if one is named. Model of one turn of
`AstToGraphConverter._add_role_edges`. -/
def roleSteps (p : Program) (actionId : String) (a : ActionDef) : List BuildStep :=
  match a.actor, a.roleName with
  | .role, some role =>
    if role.isEmpty then []
    else
      match p.roleId? role with
      | some roleId => [edgeStep "role" roleId actionId .rolePerformance "performs"]
      | none => [.skip (.role a.name role)]
  | _, _ => []

/-- The steps of the inputs of actions, which are given with the ids that their names stand for.
Model of `AstToGraphConverter._add_input_edges`. -/
def inputSteps (p : Program) (names : List String) (actions : List (String × ActionDef)) :
    List BuildStep :=
  actions.flatMap fun (id, a) => a.inputs.map (p.inputStep names id a.name)

/-- The actions, each with the id that its name stands for. -/
def ownedActions (p : Program) : List (String × ActionDef) :=
  p.actions.map fun a => ((p.actionId? a.name).getD "", a)

/-! ## The whole -/

/-- The steps of a program, with every edge that is called for. Model of the calls in
`AstToGraphConverter.convert`. -/
def allSteps (p : Program) : List BuildStep :=
  p.actions.mapIdx (fun i a => nodeStep (nodeId i) .action a.name a.nodeData) ++
  p.entities.mapIdx (fun i e => nodeStep (nodeId (p.entityBase + i)) .entity e.name e.nodeData) ++
  p.roles.mapIdx (fun i r => nodeStep (nodeId (p.roleBase + i)) .role r.name r.nodeData) ++
  (p.workflows.mapIdx fun i w => p.workflowSteps (nodeId (p.workflowBase + i)) w).flatten ++
  p.outputSteps [] (p.ownedActions.flatMap fun (id, a) => a.outputs.map (id, ·)) ++
  p.inputSteps p.dataNames p.ownedActions ++
  p.ownedActions.flatMap fun (id, a) => p.roleSteps id a

/-- The steps of a program, no two of them adding edges of one id. Model of the calls in
`AstToGraphConverter.convert` that are not turned away. -/
def steps (p : Program) : List BuildStep := BuildStep.dropRepeated [] p.allSteps

/-- The graph of a program. Model of what `AstToGraphConverter.convert` returns. -/
def graph (p : Program) : Graph :=
  ⟨p.steps.filterMap BuildStep.node?, p.steps.filterMap BuildStep.edge?⟩

/-! ## Building -/

/-- The record of the size of a graph. Model of the last record of
`AstToGraphConverter.convert`. -/
def sizeRecord (g : Graph) : Record :=
  ⟨.debug, .converter,
    "Built graph with " ++ digitsOf g.nodes.length ++ " nodes and " ++ digitsOf g.edges.length ++
      " edges"⟩

end Program

namespace BuildStep

/-- Logs a step, if a log is wanted. Model of the test of `diagnostics` in `_add_node`, `_add_edge`
and `_skip`. -/
def tell (diagnostics : Bool) (step : BuildStep) : Logged Unit :=
  if diagnostics then Logged.log [step.record] else pure ()

/-- The graph so far after a step. An edge whose id the graph has already is not added, and not
logged. Model of `AstToGraphConverter._add_node`, `_add_edge` and `_skip`. -/
def perform (diagnostics : Bool) (g : Graph) (step : BuildStep) : Logged Graph :=
  match step with
  | .node n => do
    step.tell diagnostics
    return { g with nodes := g.nodes ++ [n] }
  | .edge e =>
    if g.edges.any (·.id == e.id) then return g
    else do
      step.tell diagnostics
      return { g with edges := g.edges ++ [e] }
  | .skip _ => do
    step.tell diagnostics
    return g

end BuildStep

namespace Program

/-- The graph of a program. With `diagnostics` every step is logged, and the size at the end. Model
of `AstToGraphConverter.convert`. -/
def build (p : Program) (diagnostics : Bool) : Logged Graph := do
  let g ← p.allSteps.foldlM (BuildStep.perform diagnostics) ⟨[], []⟩
  if diagnostics then Logged.log [sizeRecord g]
  return g

end Program

/-! ## The graph and the log of the steps -/

namespace BuildStep

variable {diagnostics : Bool} {g after : Graph} {step : BuildStep} {told : List Record}

theorem tell_eq (diagnostics : Bool) (step : BuildStep) :
    step.tell diagnostics = ⟨(), if diagnostics then [step.record] else []⟩ := by
  cases diagnostics <;> rfl

theorem perform_known {e : Edge} (h : g.edges.any (·.id == e.id) = true) :
    perform diagnostics g (.edge e) = ⟨g, []⟩ :=
  if_pos h

/-- A step that is no edge of an id known already adds what it holds, and is logged. -/
theorem perform_new (h : ∀ e ∈ step.edge?, ¬ g.edges.any (·.id == e.id) = true) :
    perform diagnostics g step =
      ⟨⟨g.nodes ++ step.node?.toList, g.edges ++ step.edge?.toList⟩,
        if diagnostics then [step.record] else []⟩ := by
  cases step with
  | node n =>
    rw [perform, tell_eq]
    simp [bind, pure, node?, edge?]
  | edge e =>
    rw [perform, if_neg (h e rfl), tell_eq]
    simp [bind, pure, node?, edge?]
  | skip s =>
    rw [perform, tell_eq]
    simp [bind, pure, node?, edge?]

theorem foldlM_perform_cons (h : perform diagnostics g step = ⟨after, told⟩)
    (steps : List BuildStep) :
    (step :: steps).foldlM (perform diagnostics) g =
      ⟨(steps.foldlM (perform diagnostics) after).value,
        told ++ (steps.foldlM (perform diagnostics) after).records⟩ := by
  rw [List.foldlM_cons, h]
  rfl

theorem dropRepeated_cons {ids : List String} (h : ∀ e ∈ step.edge?, ¬ ids.contains e.id = true)
    (steps : List BuildStep) :
    dropRepeated ids (step :: steps) =
      step :: dropRepeated (step.edge?.toList.map (·.id) ++ ids) steps := by
  cases step with
  | edge e => exact if_neg (h e rfl)
  | _ => rfl

/-- What steps do to a graph, where `ids` are the ids of its edges. -/
theorem foldlM_perform (steps : List BuildStep) {ids : List String}
    (hids : ∀ id, ids.contains id = g.edges.any (·.id == id)) :
    steps.foldlM (perform diagnostics) g =
      ⟨⟨g.nodes ++ (dropRepeated ids steps).filterMap node?,
        g.edges ++ (dropRepeated ids steps).filterMap edge?⟩,
        if diagnostics then (dropRepeated ids steps).map record else []⟩ := by
  induction steps generalizing g ids with
  | nil => cases diagnostics <;> simp [dropRepeated, pure]
  | cons step steps ih =>
    by_cases hknown : ∃ e, step = .edge e ∧ ids.contains e.id = true
    · obtain ⟨e, rfl, he⟩ := hknown
      rw [foldlM_perform_cons (perform_known ((hids e.id).symm.trans he)), ih hids, dropRepeated,
        if_pos he, List.nil_append]
    · have hnew : ∀ e ∈ step.edge?, ¬ ids.contains e.id = true := by
        intro e he hmem
        cases step <;> cases he
        exact hknown ⟨e, rfl, hmem⟩
      have hids' : ∀ id, (step.edge?.toList.map (·.id) ++ ids).contains id =
          (g.edges ++ step.edge?.toList).any (·.id == id) := by
        intro id
        rw [List.any_append, ← hids]
        cases step.edge? with
        | none => simp
        | some e => simp [Bool.beq_eq_decide_eq, Bool.or_comm, eq_comm]
      rw [foldlM_perform_cons (perform_new fun e he => by rw [← hids]; exact hnew e he),
        dropRepeated_cons hnew, ih hids']
      cases diagnostics <;> cases step <;> simp [node?, edge?, List.filterMap_cons]

end BuildStep

namespace Program

/-- The graph that is built is that of the steps, and the log tells these. -/
theorem build_eq (p : Program) (diagnostics : Bool) :
    p.build diagnostics = ⟨p.graph,
      if diagnostics then p.steps.map BuildStep.record ++ [sizeRecord p.graph] else []⟩ := by
  have hnone : ∀ id : String, ([] : List String).contains id = ([] : List Edge).any (·.id == id) :=
    fun _ => rfl
  rw [build, BuildStep.foldlM_perform p.allSteps hnone]
  cases diagnostics <;> simp [bind, pure, Logged.log, graph, steps]

@[simp] theorem value_build (p : Program) (diagnostics : Bool) :
    (p.build diagnostics).value = p.graph := by
  rw [build_eq]

theorem records_build (p : Program) :
    (p.build true).records = p.steps.map BuildStep.record ++ [sizeRecord p.graph] := by
  rw [build_eq, if_pos rfl]

@[simp] theorem records_build_false (p : Program) : (p.build false).records = [] := by
  rw [build_eq, if_neg Bool.false_ne_true]

end Program

end RoleFlow
