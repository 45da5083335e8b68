import RoleFlow.Graph.Json
import RoleFlow.Service.Address
import RoleFlow.Service.Conversion
import RoleFlow.Text.Uppercase

/-!
# The web interface

Requests carry JSON, and so do answers. A body that does not have the expected shape is answered
with all its issues, a document with a syntax error with the error. Models of the endpoints
`dsl_to_graph`, `graph_to_dsl`, `normalize`, `root` and `health`.

Main definitions:
* `Request.ofAddress?`: the request for an address.
* `Request.answer`: the answer to a request.
-/

namespace RoleFlow

/-- What is served. -/
inductive Endpoint where
  | welcome
  | health
  | toGraph
  | toDocument
  | format
  deriving DecidableEq

namespace Endpoint

/-- The path that an endpoint is served at. -/
def path : Endpoint → String
  | .welcome => "/"
  | .health => "/health"
  | .toGraph => "/dslToGraph"
  | .toDocument => "/graphToDsl"
  | .format => "/normalize"

/-- The endpoint of an exact path. -/
def atPath? (path : String) : Option Endpoint :=
  [welcome, health, toGraph, toDocument, format].find? (·.path == path)

/-- The endpoint that a path leads to; slashes at its end do not matter. -/
def ofPath? (path : String) : Option Endpoint :=
  (atPath? path).orElse fun _ => atPath? (dropFinalSlashes path)

/-- The method that an endpoint answers to. -/
def method : Endpoint → String
  | .welcome | .health => "GET"
  | _ => "POST"

end Endpoint

/-- A request, its method in capitals and its path in normal form. A body that is null counts as
none. -/
structure Request where
  method : String
  path : String
  body : Option Json

/-- The request for an address, if that is one. -/
def Request.ofAddress? (method address : String) (body : Option Json) : Option Request :=
  (addressPath? address).map fun path => ⟨toUpperCase method, path, body⟩

/-- An answer. -/
structure Response where
  status : Nat
  body : Json

namespace Response

/-- An answer that gives a value. As JSON text has no infinite numbers, these become null. -/
def ok (body : Json) : Response := ⟨200, body.withoutInfinities⟩

/-- An answer that gives a document. -/
def document (text : String) : Response := ok (.object [("dsl", .str text)])

/-- The answer to a document with a syntax error. Model of `_syntax_error`. -/
def badDocument (e : SyntaxError) : Response :=
  ⟨400, .object [("detail", .object [("message", .str ("Failed to parse DSL: " ++ e.message)),
    ("position", .ofNat e.position), ("context", .str e.context)])]⟩

/-- A step of a path as JSON. -/
def stepJson : PathStep → Json
  | .field name => .str name
  | .index i => .ofNat i

/-- An issue of the body as JSON; a part that is no object is one without attributes. -/
def issueJson (issue : Issue) : Json :=
  let kind := if issue.kind = .notModel then IssueKind.notAttributes else issue.kind
  .object [("type", .str kind.name), ("loc", .list (.str "body" :: issue.path.map stepJson))]

/-- The answer to a body with issues. -/
def badBody (issues : List Issue) : Response :=
  ⟨422, .object [("detail", .list (issues.map issueJson))]⟩

end Response

namespace Request

open Check

/-- What a request gives whose body passes a check. -/
def withBody {α : Type} (body : Option Json) (check : Json → Checked α)
    (use : α → Logged (Except ServiceError Response)) : Logged (Except ServiceError Response) :=
  match body with
  | none | some .null => pure (.ok (.badBody [⟨.missing, []⟩]))
  | some json =>
    match check json with
    | .invalid issues => pure (.ok (.badBody issues))
    | .valid value => use value

/-- A body with a document, and perhaps a wish for a log of graph construction. Model of
`DslToGraphRequest`. -/
def checkConversion : Json → Checked (String × Option Bool) :=
  model fun fields =>
    Prod.mk <$> required fields "dsl" Check.text <*>
      withDefault fields "diagnostics" none (optional Check.boolean)

/-- A body with a document. Model of `NormalizeRequest`. -/
def checkDocument : Json → Checked String := model fun fields => required fields "dsl" Check.text

/-- A body with a graph. Model of `GraphToDslRequest`. -/
def checkGraph : Json → Checked Graph := model fun fields => required fields "graph" Graph.check

/-- A graph with hints for its layout. Bad hints are noticed before a graph that cannot be given
out. -/
def graphResponse (env : Environment) (g : Graph) : Except ServiceError Response := do
  let layout ← env.layoutHints
  let graph ← g.givenOut
  return .ok (withLayout graph layout)

/-- The graph of a document, with hints for its layout. Model of `dsl_to_graph`. -/
def convertDocument (env : Environment) (document : String) (diagnostics : Option Bool) :
    Logged (Except ServiceError Response) := do
  match ← graphOfDocument document (diagnosticsOr env diagnostics) with
  | .error e => pure (.ok (.badDocument e))
  | .ok graph => pure (graphResponse env graph)

/-- The document of a graph. Model of `graph_to_dsl`. -/
def convertGraph (g : Graph) : Logged (Except ServiceError Response) := do
  let text ← g.text
  pure (.ok (.document text))

/-- A document in canonical form. Model of `normalize`. -/
def reformat (document : String) : Logged (Except ServiceError Response) := do
  match ← formatDocument document with
  | .error e => pure (.ok (.badDocument e))
  | .ok text => pure (.ok (.document text))

/-- The description of the interface. Model of `root`. -/
def welcome : Json :=
  .object [("name", .str "Flowgo DSL API"), ("version", .str "0.1.0"),
    ("endpoints", .object
      [("dslToGraph", .str "POST /dslToGraph - Convert DSL to an editing graph"),
       ("graphToDsl", .str "POST /graphToDsl - Convert an edited graph to DSL"),
       ("normalize", .str "POST /normalize - Reformat DSL into canonical form")])]

/-- The answer to a path that is not served, or not by the method. -/
def notServed (status : Nat) (detail : String) : Response :=
  ⟨status, .object [("detail", .str detail)]⟩

/-- What an endpoint answers to a body. -/
def answerAt (env : Environment) (body : Option Json) :
    Endpoint → Logged (Except ServiceError Response)
  | .welcome => pure (.ok (.ok welcome))
  | .health => pure (.ok (.ok (.object [("status", .str "healthy")])))
  | .toGraph =>
    withBody body checkConversion fun (document, diagnostics) =>
      convertDocument env document diagnostics
  | .toDocument => withBody body checkGraph convertGraph
  | .format => withBody body checkDocument reformat

/-- The answer to a request. -/
def answer (env : Environment) (r : Request) : Logged (Except ServiceError Response) :=
  match Endpoint.ofPath? r.path with
  | none => pure (.ok (notServed 404 "Not Found"))
  | some endpoint =>
    if r.method = endpoint.method then answerAt env r.body endpoint
    else pure (.ok (notServed 405 "Method Not Allowed"))

end Request

end RoleFlow
