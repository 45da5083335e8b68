import RoleFlow.Graph.Edit
import RoleFlow.Graph.Json
import RoleFlow.Graph.Reconcile

/-!
# Drafts

An editor may send values of any shape. What has no meaning is refused, but labels and positions
are taken as they are, so that a node may be labelled by a value that is no text, and stand at a
place that is told by no numbers. A draft is a graph with such labels and positions. It can be shown
and edited further; it has a program again once every name is a text. This is `GraphEditor` with
arguments of any shape.

Main definitions:
* `EditRequest.apply`: what comes of a request, and the draft after it.
* `Draft.reconcile`: the program of a draft, if its names are texts.

Results:
* `Draft.reconcile_ofGraph`: the draft of a graph has the program of the graph.
* `EditRequest.apply_error`: a request that amounts to no edit changes nothing.
-/

namespace RoleFlow

/-- A graph, and the labels that are no texts and the positions that are no numbers, by the places
of their nodes. In the graph such a node has the text of its label, and zero for a coordinate that
is no number. -/
structure Draft where
  graph : Graph
  rawLabels : List (Nat × Json)
  rawPositions : List (Nat × Json × Json)

/-- The value, unless it is a text. -/
def Json.notText? : Json → Option Json
  | .str _ => none
  | json => some json

/-- A number as a coordinate. -/
instance : Coe Double Json := ⟨.float⟩

/-- The number that a coordinate is. Booleans count as numbers. -/
def Json.coordinate? : Json → Option Double
  | .float x => some x
  | .int i => if (Double.ofInt i).isFinite then some (Double.ofInt i) else none
  | .bool b => some (if b then .one else .zero)
  | _ => none

/-- The number that a coordinate is, or zero. -/
def Json.coordinate (json : Json) : Double := json.coordinate?.getD .zero

/-- The coordinates, unless they are numbers. -/
def notNumbers? (x y : Json) : Option (Json × Json) :=
  if x.coordinate?.isSome && y.coordinate?.isSome then none else some (x, y)

/-- The values by their places, with a new one at a place, or with none if there is no new one. -/
def setAt {α : Type} (place : Nat) (value : Option α) (values : List (Nat × α)) :
    List (Nat × α) :=
  let others := values.filter (·.1 != place)
  match value with
  | some value => (place, value) :: others
  | none => others

namespace Graph

/-- The place of the first node of an id. -/
def firstPlace? (g : Graph) (id : String) : Option Nat := g.nodes.findIdx? (·.id == id)

/-- The place of the last node of an id. -/
def lastPlace? (g : Graph) (id : String) : Option Nat :=
  (g.nodes.zipIdx.filter (·.1.id == id)).getLast?.map (·.2)

/-- A label that no action declares as an input: it is longer than all inputs together. -/
def unusedLabel (g : Graph) : String := String.join (g.nodes.flatMap (·.declaredInputs)) ++ "_"

end Graph

namespace Draft

/-- The draft of a graph. -/
def ofGraph (g : Graph) : Draft := ⟨g, [], []⟩

/-- The label of the node at a place, if it is no text. -/
def rawLabel? (d : Draft) (place : Nat) : Option Json := d.rawLabels.lookup place

/-- The position of the node at a place, if it is no numbers. -/
def rawPosition? (d : Draft) (place : Nat) : Option (Json × Json) := d.rawPositions.lookup place

/-- Whether the label of the node at a place is no text. -/
def hasRawLabel (d : Draft) (place : Nat) : Bool := (d.rawLabel? place).isSome

@[simp] theorem hasRawLabel_ofGraph (g : Graph) (place : Nat) :
    (ofGraph g).hasRawLabel place = false := rfl

/-- The draft with the label of the first node of an id, whose text the graph has already. -/
def withLabel (d : Draft) (id : String) (label : Json) : Draft :=
  match d.graph.firstPlace? id with
  | none => d
  | some place => { d with rawLabels := setAt place label.notText? d.rawLabels }

/-- The draft with the position of the first node of an id, whose numbers the graph has already. -/
def withPosition (d : Draft) (id : String) (x y : Json) : Draft :=
  match d.graph.firstPlace? id with
  | none => d
  | some place => { d with rawPositions := setAt place (notNumbers? x y) d.rawPositions }

/-! ## Showing -/

/-- Fails where a value nests too deeply to be given out. -/
def checkDepth (json : Json) : Except DumpError Unit :=
  if maxDepth < json.depth then .error .tooDeep else .ok ()

/-- Coordinates as JSON: numbers as such, other values as they are. -/
def positionJson (x y : Json) : Json :=
  let shown (json : Json) : Json := (json.coordinate?.map Json.float).getD json
  .object [("x", shown x), ("y", shown y)]

/-- The node at a place as JSON. -/
def dumpNode (d : Draft) (place : Nat) (n : Node) : Except DumpError Json := do
  let json ← n.dump
  let json ← match d.rawLabel? place with
    | none => pure json
    | some label => do
      checkDepth label
      pure (json.put "label" label)
  match d.rawPosition? place with
  | none => return json
  | some (x, y) => do
    checkDepth x
    checkDepth y
    return json.put "position" (positionJson x y)

/-- The node or edge that an edit was about as JSON. -/
def dumpTouched (d : Draft) : Touched → Except DumpError Json
  | .node n => d.dumpNode ((d.graph.firstPlace? n.id).getD 0) n
  | .edge e => e.dump

/-- The draft as JSON. -/
def dump (d : Draft) : Except DumpError Json := do
  let nodes ← d.graph.nodes.zipIdx.mapM fun (n, place) => d.dumpNode place n
  let edges ← d.graph.edges.mapM Edge.dump
  return .object [("nodes", .list nodes), ("edges", .list edges)]

/-! ## Programs -/

/-- Whether a name in the definition of a node is no text: its own, or that of an action that a
workflow calls. -/
def isUnnamed (d : Draft) (n : Node) (place : Nat) : Bool :=
  match n.kind with
  | .data => false
  | .workflow =>
    d.hasRawLabel place ||
      ((d.graph.sequenceIds n.id).filterMap d.graph.lastPlace?).any d.hasRawLabel
  | _ => d.hasRawLabel place

/-- The graph with a text for every label. Data whose label is no text are no input of any action,
and get a label that is none. -/
def settled (d : Draft) : Graph :=
  { d.graph with
    nodes := d.graph.nodes.zipIdx.map fun (n, place) =>
      if d.hasRawLabel place then { n with label := d.graph.unusedLabel } else n }

/-- What is wrong with a name that is no text. -/
def nameIssue : Issue := ⟨.notString, [.field "name"]⟩

/-- The program of a draft, unless a name is no text. The warnings end with those of the first
definition that has no name. Model of `GraphEditor.to_program`. -/
def reconcile (d : Draft) : Logged (Except (List Issue) Program) :=
  match d.graph.nodes.zipIdx.findIdx? fun (n, place) => d.isUnnamed n place with
  | none => .ok <$> d.settled.reconcile
  | some place =>
    ⟨.error [nameIssue],
      (d.graph.nodes.take (place + 1)).flatMap fun n => (d.graph.definitionOf n).records⟩

theorem isUnnamed_ofGraph (g : Graph) (n : Node) (place : Nat) :
    (ofGraph g).isUnnamed n place = false := by
  unfold isUnnamed
  split
  · rfl
  · rw [Bool.or_eq_false_iff, List.any_eq_false]
    exact ⟨rfl, fun _ _ => by simp⟩
  · rfl

theorem settled_ofGraph (g : Graph) : (ofGraph g).settled = g := by
  simp [settled, ofGraph, hasRawLabel, rawLabel?]

theorem reconcile_ofGraph (g : Graph) : (ofGraph g).reconcile = .ok <$> g.reconcile := by
  have hnone : ((ofGraph g).graph.nodes.zipIdx.findIdx? fun (n, place) =>
      (ofGraph g).isUnnamed n place) = none :=
    List.findIdx?_eq_none_iff.mpr fun _ _ => isUnnamed_ofGraph ..
  rw [reconcile, hnone, settled_ofGraph]

/-- The program of a draft as text. Model of `GraphEditor.to_dsl`. -/
def text (d : Draft) : Logged (Except (List Issue) String) := do
  let program ← d.reconcile
  pure (program.map Program.render)

end Draft

/-! ## Requests -/

/-- A request for an edit, whose parts may have any shape. -/
inductive EditRequest where
  | update (id : Json) (label description inputs outputs : Option Json)
  | connect (source target sourceHandle targetHandle : Json)
  | disconnect (id : Json)
  | move (id x y : Json)

/-- Why a request comes to nothing, or only to the first of its changes. -/
inductive RequestError where
  | edit (e : EditError)
  | notNames
  | nameNotText
  | handleWithoutText
  | invalidHandle (issues : List Issue)

/-- The wording of a failed request. -/
def RequestError.message : RequestError → String
  | .edit e => e.message
  | .notNames => "A value does not list names"
  | .nameNotText => "A name is not a text"
  | .handleWithoutText => "A handle has no text to look into"
  | .invalidHandle _ => "A handle is not a text"

/-- The names that a value lists: the items of a list, the characters of a text or the names of an
object's members. -/
def namesIn (json : Json) : Except RequestError (List String) :=
  match json.parts? with
  | none => .error .notNames
  | some parts => parts.mapM fun | .str name => .ok name | _ => .error .nameNotText

/-- The change that new values of any shape amount to, and what is wrong with the first bad one, if
there is one. Values before the bad one count. -/
def changeOf (label description inputs outputs : Option Json) :
    NodeChange × Option RequestError :=
  let change : NodeChange := ⟨label.map Json.asText, description, none, none⟩
  match inputs.mapM namesIn with
  | .error e => (change, some e)
  | .ok inputs =>
    match outputs.mapM namesIn with
    | .error e => ({ change with inputs }, some e)
    | .ok outputs => ({ change with inputs, outputs }, none)

/-- Whether a handle hints at data: a text in which the hint occurs, or a list or object that has
it as an item or a member. Void handles do not; other values have nothing to look into. -/
def handleHintsAtData (handle : Json) : Except RequestError Bool :=
  if handle.isVoid then .ok false
  else
    match handle with
    | .str text => .ok (Graph.hintsAtData text)
    | .list items => .ok (items.any fun | .str text => text == Graph.dataHint | _ => false)
    | .object fields => .ok (fields.any (·.1 == Graph.dataHint))
    | _ => .error .handleWithoutText

/-- The connection of two nodes whose handles may have any shape; only texts and null are good
ones. -/
def connectionOf (source target : String) (sourceHandle targetHandle : Json) :
    Except RequestError Edit := do
  if !Graph.hintsAtData source && !Graph.hintsAtData target then
    let hinted ← handleHintsAtData sourceHandle
    if !hinted then
      let _ ← handleHintsAtData targetHandle
  let handle (name : String) (json : Json) : Checked (Option String) :=
    ((Check.optional Check.text) json).under (.field name)
  match Prod.mk <$> handle "source_handle" sourceHandle <*> handle "target_handle" targetHandle with
  | .valid (sourceHandle, targetHandle) =>
    return .connect source target sourceHandle targetHandle
  | .invalid issues => .error (.invalidHandle issues)

namespace Draft

/-- The id of a node that is there. Model of `GraphEditor._node`. -/
def existingNode (d : Draft) : Json → Except RequestError String
  | .str id =>
    if (d.graph.node? id).isSome then .ok id else .error (.edit (.unknownNode id))
  | json => .error (.edit (.unknownNode json.asText))

/-- The id that an edge may have. -/
def possibleEdge : Json → Except RequestError String
  | .str id => .ok id
  | json => .error (.edit (.unknownEdge json.asText))

/-- What comes of an edit, and the draft after it. -/
def perform (d : Draft) (edit : Edit) : Logged (Except RequestError Touched × Draft) :=
  ⟨((edit.apply d.graph).map (·.1) |>.mapError .edit, { d with graph := d.graph.edited edit }),
    edit.records d.graph⟩

/-- The edit that a request amounts to, and what is wrong with the rest of the request. -/
def editOf (d : Draft) : EditRequest → Except RequestError (Edit × Option RequestError)
  | .update id label description inputs outputs => do
    let id ← d.existingNode id
    let (change, fault) := changeOf label description inputs outputs
    return (.update id change, fault)
  | .connect source target sourceHandle targetHandle => do
    let source ← d.existingNode source
    let target ← d.existingNode target
    return (← connectionOf source target sourceHandle targetHandle, none)
  | .disconnect id => return (.disconnect (← possibleEdge id), none)
  | .move id x y => return (.move (← d.existingNode id) x.coordinate y.coordinate, none)

/-- The draft with the label or the position that a request gives, where the graph is edited
already. -/
def withRaw (d : Draft) : EditRequest → Draft
  | .update (.str id) (some label) _ _ _ => d.withLabel id label
  | .move (.str id) x y => d.withPosition id x y
  | _ => d

end Draft

/-- What comes of a request, and the draft after it. Model of `update_node`, `add_edge`,
`remove_edge` and `move_node` of `GraphEditor`. -/
def EditRequest.apply (request : EditRequest) (d : Draft) :
    Logged (Except RequestError Touched × Draft) := do
  match d.editOf request with
  | .error e => pure (.error e, d)
  | .ok (edit, fault) =>
    let (result, after) ← d.perform edit
    match fault with
    | some e => pure (.error e, after.withRaw request)
    | none => pure (result, after.withRaw request)

theorem EditRequest.apply_error {request : EditRequest} {d : Draft} {e : RequestError}
    (h : d.editOf request = .error e) : request.apply d = pure (.error e, d) := by
  simp only [EditRequest.apply, h]

end RoleFlow
