import RoleFlow.Graph.Build
import RoleFlow.Graph.Json
import RoleFlow.Graph.Reconcile
import RoleFlow.Settings
import RoleFlow.Source.Parser

/-!
# Conversions between documents and graphs

The conversions that every service offers, each with the records it logs: `DSLParser.parse`,
`AstToGraphConverter.convert`, `GraphToAstConverter.convert` and `DSLGenerator.generate` after one
another.
-/

namespace RoleFlow

/-- Why a service fails on a good request. -/
inductive ServiceError where
  | settings (e : SettingsError)
  | dump (e : DumpError)

/-- The wording of a service's failure. -/
def ServiceError.message : ServiceError → String
  | .settings e => e.message
  | .dump e => e.message

/-- The layout hints of the environment, for a service. -/
def Environment.layoutHints (env : Environment) : Except ServiceError Layout :=
  env.layout.mapError .settings

/-- A graph as JSON, for a service. -/
def Graph.givenOut (g : Graph) : Except ServiceError Json := g.dump.mapError .dump

/-- A graph with hints for its layout, both as JSON. -/
def withLayout (graph : Json) (layout : Layout) : Json :=
  .object [("graph", graph), ("layout", layout.toJson)]

/-- Whether graph construction is logged: as asked for, or else as the environment says. -/
def diagnosticsOr (env : Environment) (asked : Option Bool) : Bool :=
  asked.getD env.wantsDiagnostics

/-- What comes of a document that is parsed. -/
def withProgram {α : Type} (document : String) (use : Program → Logged α) :
    Logged (Except SyntaxError α) := do
  match ← parse document with
  | .error e => pure (.error e)
  | .ok program => .ok <$> use program

/-- A document in canonical form. -/
def formatDocument (document : String) : Logged (Except SyntaxError String) :=
  withProgram document fun program => pure program.render

/-- The graph of a document. Model of `DSLParser.parse` and `AstToGraphConverter.convert`, one
after the other. -/
def graphOfDocument (document : String) (diagnostics : Bool) :
    Logged (Except SyntaxError Graph) :=
  withProgram document fun program => program.build diagnostics

/-- A program after a trip through its graph. -/
def Program.afterGraph (p : Program) (diagnostics : Bool) : Logged Program := do
  let graph ← p.build diagnostics
  graph.reconcile

end RoleFlow
