import RoleFlow.Graph.Basic
import RoleFlow.Log
import RoleFlow.Number.Spelling
import RoleFlow.Text.Blank

/-!
# Editing a graph

An edit changes one node, adds one edge or removes one. It fails, and changes nothing, if it
names a node or an edge that is not there. Other nodes and edges are never adjusted. This is
`GraphEditor` with arguments of the declared types.

Main definitions:
* `Edit.apply`: the node or edge that an edit is about, and the graph after it.
* `Graph.edited`: the graph after an edit, whether it failed or not.
-/

namespace RoleFlow

/-- Why an edit fails. -/
inductive EditError where
  | unknownNode (id : String)
  | unknownEdge (id : String)

/-- The wording of a failed edit. -/
def EditError.message : EditError → String
  | .unknownNode id => "Unknown node: " ++ id
  | .unknownEdge id => "Unknown edge: " ++ id

/-- New values for the attributes of a node; those without one stay. A description may have any
shape, as all data may. -/
structure NodeChange where
  label : Option String
  description : Option Json
  inputs : Option (List String)
  outputs : Option (List String)

/-- A change to a graph. -/
inductive Edit where
  | update (id : String) (change : NodeChange)
  | connect (source target : String) (sourceHandle targetHandle : Option String)
  | disconnect (id : String)
  | move (id : String) (x y : Double)

/-- What an edit was about. -/
inductive Touched where
  | node (node : Node)
  | edge (edge : Edge)

/-! ## Nodes -/

/-- The names without the blanks at their ends, those that are blank left out. -/
def cleanNames (names : List String) : List String :=
  (names.map trimBlanks).filter fun name => !name.isEmpty

/-- The data with a member set, if there is a value for it. -/
def putSome (data : Fields) (name : String) (value : Option Json) : Fields :=
  match value with
  | some json => data.put name json
  | none => data

namespace Node

/-- The node after a change. Model of `GraphEditor.update_node`. -/
def changed (n : Node) (change : NodeChange) : Node :=
  let names (list : Option (List String)) : Option Json :=
    list.map fun list => Json.ofStrings (cleanNames list)
  let data := putSome n.data "description" change.description
  let data := putSome data "inputs" (names change.inputs)
  let data := putSome data "outputs" (names change.outputs)
  { n with label := change.label.getD n.label, data }

/-- The node at another place. Model of `GraphEditor.move_node`. -/
def movedTo (n : Node) (x y : Double) : Node := { n with position := some [("x", x), ("y", y)] }

end Node

namespace Graph

/-- The nodes with the first one of an id replaced. -/
def replaceNode (id : String) (f : Node → Node) : List Node → List Node
  | [] => []
  | node :: nodes => if node.id = id then f node :: nodes else node :: replaceNode id f nodes

/-- The graph with the first node of an id changed. -/
def changeNode (g : Graph) (id : String) (f : Node → Node) : Except EditError (Touched × Graph) :=
  match g.node? id with
  | some node => .ok (.node (f node), { g with nodes := replaceNode id f g.nodes })
  | none => .error (.unknownNode id)

/-! ## Edges -/

/-- Whether a text occurs in another one. -/
def occursIn (part : List Char) : List Char → Bool
  | [] => part.isEmpty
  | c :: cs => part.isPrefixOf (c :: cs) || occursIn part cs

/-- What makes an edge one of data when it occurs in one of its ends or handles. -/
def dataHint : String := "data"

/-- Whether a text hints at data. -/
def hintsAtData (text : String) : Bool := occursIn dataHint.toList text.toList

/-- The ids that an edge from one node to another may get, in order of preference: as many as
there are edges, and one more. -/
def edgeIds (g : Graph) (source target : String) : List String :=
  let plain := "edge_user_" ++ source ++ "_" ++ target
  plain :: (List.range g.edges.length).map fun i => plain ++ "_" ++ digitsOf (i + 1)

/-- The id of a new edge: the first that no edge has. Model of `GraphEditor._edge_id`. -/
def newEdgeId (g : Graph) (source target : String) : String :=
  let taken := g.edges.map (·.id)
  ((g.edgeIds source target).find? fun id => !taken.contains id).getD ""

/-- The edge that connects two nodes: one of data if an end or a handle hints at it, one of
sequence if not. Model of `GraphEditor.add_edge`. -/
def newEdge (g : Graph) (source target : String) (sourceHandle targetHandle : Option String) :
    Edge :=
  let hints := [source, target, sourceHandle.getD "", targetHandle.getD ""]
  let isData := hints.any hintsAtData
  let kind : EdgeKind := if isData then .dataFlow else .sequence
  { id := g.newEdgeId source target
    source, target, kind
    label := if isData then "data flow" else "connects to"
    sourceHandle, targetHandle
    style := kind.style }

/-- The nodes that a connection needs. Model of the calls of `GraphEditor._node` in `add_edge`. -/
def checkEnds (g : Graph) (source target : String) : Except EditError Unit :=
  if (g.node? source).isNone then .error (.unknownNode source)
  else if (g.node? target).isNone then .error (.unknownNode target)
  else .ok ()

/-- The edges without the first one of an id. Model of `GraphEditor.remove_edge`. -/
def dropEdge (id : String) (edges : List Edge) : List Edge := edges.eraseP (·.id == id)

end Graph

/-! ## Edits -/

/-- The node or edge that an edit is about, as it is after the edit, or was before it was removed,
and the graph after the edit. Model of the edits of `GraphEditor`. -/
def Edit.apply (edit : Edit) (g : Graph) : Except EditError (Touched × Graph) :=
  match edit with
  | .update id change => g.changeNode id (·.changed change)
  | .move id x y => g.changeNode id (·.movedTo x y)
  | .connect source target sourceHandle targetHandle => do
    g.checkEnds source target
    let edge := g.newEdge source target sourceHandle targetHandle
    return (.edge edge, { g with edges := g.edges ++ [edge] })
  | .disconnect id =>
    match g.edge? id with
    | some edge => .ok (.edge edge, { g with edges := Graph.dropEdge id g.edges })
    | none => .error (.unknownEdge id)

/-- What an edit logs: a new connection. -/
def Edit.records (edit : Edit) (g : Graph) : List Record :=
  match edit, edit.apply g with
  | .connect .., .ok (.edge edge, _) =>
    [⟨.debug, .editor,
      "Connected " ++ edge.source ++ " -> " ++ edge.target ++ " as " ++ edge.kind.name⟩]
  | _, _ => []

/-- The graph after an edit; one that fails leaves it as it is. -/
def Graph.edited (g : Graph) (edit : Edit) : Graph :=
  match edit.apply g with
  | .ok (_, after) => after
  | .error _ => g

end RoleFlow
