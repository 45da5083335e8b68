import RoleFlow.Json.Basic

/-!
# Graphs

A graph is a list of nodes and a list of directed edges between node ids, both in order. Ids may
repeat, and edges may end at ids that no node has. Models of `GraphNode`, `GraphEdge` and `Graph`.

Main definitions:
* `Graph.node?`, `Graph.lastNode?`: the first and the last node of an id.
* `Graph.outgoing`, `Graph.incoming`: the edges at a node.
* `Graph.adjacency`: all edges by source and kind.
-/

namespace RoleFlow

/-- What a node stands for. Model of `NodeKind`. -/
inductive NodeKind where
  | action
  | entity
  | role
  | workflow
  | data
  deriving DecidableEq

/-- What an edge says of its ends. Model of `EdgeKind`. -/
inductive EdgeKind where
  | workflowStart
  | sequence
  | dataFlow
  | rolePerformance
  deriving DecidableEq

/-- The name of a kind of node. -/
def NodeKind.name : NodeKind → String
  | .action => "action"
  | .entity => "entity"
  | .role => "role"
  | .workflow => "workflow"
  | .data => "data"

/-- The kind of node of a name. -/
def NodeKind.ofName? (name : String) : Option NodeKind :=
  [NodeKind.action, .entity, .role, .workflow, .data].find? (·.name == name)

/-- The name of a kind of edge. -/
def EdgeKind.name : EdgeKind → String
  | .workflowStart => "workflowStart"
  | .sequence => "sequence"
  | .dataFlow => "dataFlow"
  | .rolePerformance => "rolePerformance"

/-- The kind of edge of a name. -/
def EdgeKind.ofName? (name : String) : Option EdgeKind :=
  [EdgeKind.workflowStart, .sequence, .dataFlow, .rolePerformance].find? (·.name == name)

/-- A node. `data` describes the definition that the node stands for, `position` where it is drawn.
Model of `GraphNode`. -/
structure Node where
  id : String
  kind : NodeKind
  label : String
  data : Fields
  position : Option (List (String × Double))

/-- A directed edge. Model of `GraphEdge`. -/
structure Edge where
  id : String
  source : String
  target : String
  kind : EdgeKind
  label : String
  sourceHandle : Option String
  targetHandle : Option String
  style : Fields

/-- Nodes and edges in order. Model of `Graph`. -/
structure Graph where
  nodes : List Node
  edges : List Edge

/-- How the edges of a kind are drawn. Model of `EDGE_STYLES`. -/
def EdgeKind.style : EdgeKind → Fields
  | .workflowStart => [("stroke", .str "#4a3f9f"), ("strokeWidth", .int 2)]
  | .sequence => [("stroke", .str "#4a3f9f"), ("strokeWidth", .int 2)]
  | .dataFlow =>
    [("stroke", .str "#ff6b6b"), ("strokeWidth", .int 2), ("strokeDasharray", .str "5,5")]
  | .rolePerformance =>
    [("stroke", .str "#ff9900"), ("strokeWidth", .int 2), ("animated", .bool true)]

namespace Graph

/-- The graph without nodes. -/
def empty : Graph := ⟨[], []⟩

/-- The first node of an id. Model of `Graph.get_node`. -/
def node? (g : Graph) (id : String) : Option Node := g.nodes.find? (·.id == id)

/-- The last node of an id. Model of the `nodes` of `sequence_path`. -/
def lastNode? (g : Graph) (id : String) : Option Node := g.nodes.reverse.find? (·.id == id)

/-- The first edge of an id. Model of `Graph.get_edge`. -/
def edge? (g : Graph) (id : String) : Option Edge := g.edges.find? (·.id == id)

/-- The nodes of a kind. Model of `Graph.nodes_of_kind`. -/
def nodesOfKind (g : Graph) (kind : NodeKind) : List Node := g.nodes.filter (·.kind == kind)

/-- The edges that leave a node. Model of `Graph.outgoing`. -/
def outgoing (g : Graph) (id : String) : List Edge := g.edges.filter (·.source == id)

/-- The edges that end at a node, of one kind if one is given. Model of `Graph.incoming`. -/
def incoming (g : Graph) (id : String) (kind? : Option EdgeKind) : List Edge :=
  g.edges.filter fun edge =>
    edge.target == id && (match kind? with | some kind => edge.kind == kind | none => true)

/-- Lists of edges by source and kind. -/
abbrev Adjacency := List ((String × EdgeKind) × List Edge)

/-- The index with an edge added at the end of its list. -/
def Adjacency.insert : Adjacency → Edge → Adjacency
  | [], edge => [((edge.source, edge.kind), [edge])]
  | (key, edges) :: index, edge =>
    if key = (edge.source, edge.kind) then (key, edges ++ [edge]) :: index
    else (key, edges) :: Adjacency.insert index edge

/-- The edges by source and kind, in edge order, the keys in the order of their first edges. Model
of `Graph.adjacency`. -/
def adjacency (g : Graph) : Adjacency := g.edges.foldl Adjacency.insert []

end Graph

end RoleFlow
