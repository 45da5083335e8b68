import RoleFlow.Graph.Basic
import RoleFlow.Validation

/-!
# Graphs as JSON

Nodes and edges are objects with all their members. What is read back may leave out the members
that can be empty, and positions may be given by any numbers. The data of nodes and the styles of
edges hold values of any shape, and are given out only up to a certain depth. Models of what
`model_dump` and `model_validate` do for `Graph`.

Main definitions:
* `Graph.toJson` and `Graph.check`: writing, and reading with all issues listed.
* `Graph.dump`: writing what does not nest too deeply.
-/

namespace RoleFlow

/-! ## Writing -/

/-- A node as JSON. -/
def Node.toJson (n : Node) : Json :=
  let position : Json := match n.position with
    | some coordinates => .object (coordinates.map fun (name, x) => (name, .float x))
    | none => .null
  .object [("id", .str n.id), ("kind", .str n.kind.name), ("label", .str n.label),
    ("data", .object n.data), ("position", position)]

/-- An edge as JSON. -/
def Edge.toJson (e : Edge) : Json :=
  .object [("id", .str e.id), ("source", .str e.source), ("target", .str e.target),
    ("kind", .str e.kind.name), ("label", .str e.label),
    ("source_handle", Json.ofString? e.sourceHandle),
    ("target_handle", Json.ofString? e.targetHandle), ("style", .object e.style)]

/-- A graph as JSON. Model of `model_dump` of `Graph` where nothing nests too deeply. -/
def Graph.toJson (g : Graph) : Json :=
  .object [("nodes", .list (g.nodes.map Node.toJson)), ("edges", .list (g.edges.map Edge.toJson))]

/-! ## Depth -/

/-- How deep a value may nest that is given out. -/
def maxDepth : Nat := 255

/-- Why something is not given out as JSON. -/
inductive DumpError where
  | tooDeep
  deriving DecidableEq

/-- The wording of a failed dump. -/
def DumpError.message : DumpError → String
  | .tooDeep => "Maximum serialization depth exceeded"

/-- Whether a member nests too deeply. -/
def Fields.isTooDeep (fields : Fields) : Bool := fields.any fun (_, value) => maxDepth < value.depth

/-- A node as JSON, if its data do not nest too deeply. -/
def Node.dump (n : Node) : Except DumpError Json :=
  if n.data.isTooDeep then .error .tooDeep else .ok n.toJson

/-- An edge as JSON, if its style does not nest too deeply. -/
def Edge.dump (e : Edge) : Except DumpError Json :=
  if e.style.isTooDeep then .error .tooDeep else .ok e.toJson

/-- A graph as JSON, if nothing in it nests too deeply. Model of `model_dump` of `Graph`. -/
def Graph.dump (g : Graph) : Except DumpError Json :=
  if g.nodes.any (·.data.isTooDeep) || g.edges.any (·.style.isTooDeep) then .error .tooDeep
  else .ok g.toJson

/-! ## Reading -/

open Check

/-- A node. -/
def Node.check : Json → Checked Node :=
  model fun fields =>
    Node.mk <$> required fields "id" Check.text <*>
      required fields "kind" (oneOf NodeKind.ofName?) <*>
      required fields "label" Check.text <*>
      withDefault fields "data" [] Check.object <*>
      withDefault fields "position" none (optional (members Check.double))

/-- An edge. -/
def Edge.check : Json → Checked Edge :=
  model fun fields =>
    Edge.mk <$> required fields "id" Check.text <*>
      required fields "source" Check.text <*>
      required fields "target" Check.text <*>
      required fields "kind" (oneOf EdgeKind.ofName?) <*>
      withDefault fields "label" "" Check.text <*>
      withDefault fields "source_handle" none (optional Check.text) <*>
      withDefault fields "target_handle" none (optional Check.text) <*>
      withDefault fields "style" [] Check.object

/-- A graph. Model of `model_validate` of `Graph`. -/
def Graph.check : Json → Checked Graph :=
  model fun fields =>
    Graph.mk <$> withDefault fields "nodes" [] (Check.list Node.check) <*>
      withDefault fields "edges" [] (Check.list Edge.check)

end RoleFlow
