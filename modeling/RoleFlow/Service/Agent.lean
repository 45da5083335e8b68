import RoleFlow.Graph.Json
import RoleFlow.Service.Conversion
import RoleFlow.Service.Review

/-!
# Tools for agents

An agent calls a tool with a document or a graph and gets a value back, or a message that tells
why there is none. Models of the tools `validate_workflow`, `get_workflow_info`, `dsl_to_graph`,
`graph_to_dsl` and `format_workflow`.
-/

namespace RoleFlow

/-- A call of a tool. -/
inductive ToolCall where
  | validate (document : String)
  | info (document : String)
  | toGraph (document : String) (diagnostics : Option Bool)
  | toDocument (graph : Json)
  | format (document : String)

/-- Why a request is no call of a tool. -/
inductive CallError where
  | unknownTool
  | wrongArguments
  | documentNotText
  deriving DecidableEq

/-- Why a tool gives no value. -/
inductive ToolError where
  | syntaxError (task : String) (e : SyntaxError)
  | invalidGraph (issues : List Issue)
  | service (e : ServiceError)

/-- The wording of a tool's failure. -/
def ToolError.message : ToolError → String
  | .syntaxError task e => "Error " ++ task ++ " workflow: " ++ e.located
  | .invalidGraph _ => "Invalid graph"
  | .service e => e.message

/-- The value of a tool, and what it tells the agent on the way, if it tells anything. -/
structure ToolAnswer where
  result : Json
  notes : Option (List String)

namespace ToolCall

/-- The document among the arguments of a call, where `others` may stand beside it. -/
def documentIn (arguments : Fields) (others : List String) : Except CallError String :=
  if arguments.any fun (name, _) => name != "dsl" && !others.contains name then
    .error .wrongArguments
  else
    match arguments.get? "dsl" with
    | none => .error .wrongArguments
    | some (.str document) => .ok document
    | some _ => .error .documentNotText

/-- The wish for a log of graph construction among the arguments of a call; there is none by
default, and null leaves the choice to the environment. -/
def diagnosticsIn (arguments : Fields) : Option Bool :=
  match arguments.get? "diagnostics" with
  | none => some false
  | some .null => none
  | some json => some !json.isVoid

/-- The call of a tool by its name, with its arguments. -/
def ofRequest (name : String) (arguments : Fields) : Except CallError ToolCall :=
  match name with
  | "validate_workflow" => .validate <$> documentIn arguments []
  | "get_workflow_info" => .info <$> documentIn arguments []
  | "format_workflow" => .format <$> documentIn arguments []
  | "dsl_to_graph" =>
    (toGraph · (diagnosticsIn arguments)) <$> documentIn arguments ["diagnostics"]
  | "graph_to_dsl" =>
    match arguments with
    | [("graph", graph)] => .ok (.toDocument graph)
    | _ => .error .wrongArguments
  | _ => .error .unknownTool

/-- An answer without notes. -/
def plain (result : Json) : ToolAnswer := ⟨result, none⟩

/-- A graph with hints for its layout. A graph that cannot be given out is noticed before bad
hints. Model of the answer of `dsl_to_graph`. -/
def graphAnswer (env : Environment) (g : Graph) : Except ServiceError Json := do
  let graph ← g.givenOut
  let layout ← env.layoutHints
  return withLayout graph layout

/-- The document of a graph, with notes on the sizes of both. Model of the answer of
`graph_to_dsl`. -/
def documentAnswer (g : Graph) : Logged ToolAnswer := do
  let document ← g.text
  pure ⟨.str document, some
    ["Reconciling " ++ digitsOf g.nodes.length ++ " nodes and " ++ digitsOf g.edges.length ++
      " edges",
     "✓ Generated DSL (" ++ digitsOf document.length ++ " chars)"]⟩

/-- The answer to a call. Model of the tools `validate_workflow`, `get_workflow_info`,
`dsl_to_graph`, `graph_to_dsl` and `format_workflow`. -/
def run (env : Environment) : ToolCall → Logged (Except ToolError ToolAnswer)
  | .validate document => do
    match ← parse document with
    | .error e => pure (.ok (plain e.report))
    | .ok program => pure (.ok (plain program.report))
  | .info document => do
    match ← parse document with
    | .error e => pure (.error (.syntaxError "analyzing" e))
    | .ok program => pure (.ok (plain program.info))
  | .toGraph document diagnostics => do
    match ← graphOfDocument document (diagnosticsOr env diagnostics) with
    | .error e => pure (.error (.syntaxError "converting" e))
    | .ok graph => pure ((plain <$> graphAnswer env graph).mapError .service)
  | .toDocument json =>
    match Graph.check json with
    | .invalid issues => pure (.error (.invalidGraph issues))
    | .valid graph => .ok <$> documentAnswer graph
  | .format document => do
    match ← formatDocument document with
    | .error e => pure (.error (.syntaxError "formatting" e))
    | .ok text => pure (.ok (plain (.str text)))

end ToolCall

end RoleFlow
