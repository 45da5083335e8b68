import RoleFlow.Program.Json
import RoleFlow.Source.SyntaxError

/-!
# Reviewing programs

`Program.warnings` lists the references that a graph drops silently. `Program.info` describes
what a program declares, who performs it and how its data flow. Models of `validate_workflow` and
`get_workflow_info`.
-/

namespace RoleFlow

/-! ## Warnings -/

/-- A reference to something that no definition provides. -/
inductive Warning where
  | undefinedRole (action role : String)
  | unproducedInput (input action : String)
  | undefinedAction (workflow action : String)
  deriving DecidableEq

/-- The wording of a warning. -/
def Warning.message : Warning → String
  | .undefinedRole action role =>
    "Action '" ++ action ++ "' is performed by undefined role '" ++ role ++ "'"
  | .unproducedInput input action =>
    "Input '" ++ input ++ "' of action '" ++ action ++ "' is not produced by any action"
  | .undefinedAction workflow action =>
    "Workflow '" ++ workflow ++ "' calls undefined action '" ++ action ++ "'"

namespace Program

/-- The warning about the role of an action, if it has one. Model of the loop over actions of
`validate_workflow`. -/
def roleWarnings (p : Program) (a : ActionDef) : List Warning :=
  let defined := match a.roleName with
    | some role => p.roles.any (·.name == role)
    | none => false
  if a.actor = .role && !defined then [.undefinedRole a.name (roleNameText a.roleName)] else []

/-- The warnings about the inputs of an action. Model of the loop over actions of
`validate_workflow`. -/
def inputWarnings (p : Program) (a : ActionDef) : List Warning :=
  let produced := p.actions.flatMap (·.outputs)
  (a.inputs.filter fun input => !produced.contains input).map (.unproducedInput · a.name)

/-- The warnings about the calls of a workflow, those in branches included. Model of the loop over
workflows of `validate_workflow`. -/
def callWarnings (p : Program) (w : WorkflowDef) : List Warning :=
  let calls := Element.callsList w.elements
  (calls.filter fun name => !p.actions.any (·.name == name)).map (.undefinedAction w.name ·)

/-- All warnings about a program: first those of each action, then those of each workflow. Model of
the `warnings` of `validate_workflow`. -/
def warnings (p : Program) : List Warning :=
  p.actions.flatMap (fun a => p.roleWarnings a ++ p.inputWarnings a) ++
    p.workflows.flatMap p.callWarnings

/-! ## Description -/

/-- The flow of one output: its name, the action that produces it, and those that use it. -/
structure DataFlow where
  data : String
  producer : String
  consumers : List String
  deriving DecidableEq

/-- The flow of every output, in the order of the actions and their outputs. Model of the
`data_flow` of `get_workflow_info`. -/
def dataFlow (p : Program) : List DataFlow :=
  p.actions.flatMap fun producer =>
    producer.outputs.map fun output =>
      ⟨output, producer.name, (p.actions.filter (·.inputs.contains output)).map (·.name)⟩

/-- How often each text occurs, in the order of first occurrences. -/
def tally (texts : List String) : List (String × Nat) :=
  let rec add (text : String) : List (String × Nat) → List (String × Nat)
    | [] => [(text, 1)]
    | (other, count) :: counts =>
      if other = text then (other, count + 1) :: counts else (other, count) :: add text counts
  texts.foldl (fun counts text => add text counts) []

/-- The names of all definitions by kind. Model of `Program.list_definitions`. -/
def definitionNames (p : Program) : Json :=
  .object [("actions", Json.ofStrings (p.actions.map (·.name))),
    ("entities", Json.ofStrings (p.entities.map (·.name))),
    ("roles", Json.ofStrings (p.roles.map (·.name))),
    ("workflows", Json.ofStrings (p.workflows.map (·.name)))]

/-- The flow of an output as JSON. -/
def DataFlow.toJson (flow : DataFlow) : Json :=
  .object [("data", .str flow.data), ("from", .str flow.producer),
    ("to", Json.ofStrings flow.consumers)]

end Program

/-- The size of a workflow as JSON. -/
def WorkflowDef.sizes (w : WorkflowDef) : Json :=
  .object [("name", .str w.name), ("element_count", .ofNat w.elements.length),
    ("call_count", .ofNat (Element.callsList w.elements).length),
    ("decision_count", .ofNat (Element.decisionCountList w.elements))]

namespace Program

/-- The description of a program. Model of the answer of `get_workflow_info`. -/
def info (p : Program) : Json :=
  .object [("definitions", p.definitionNames),
    ("actors", .object ((tally (p.actions.map (·.actorLabel))).map fun (label, count) =>
      (label, .ofNat count))),
    ("data_flow", .list (p.dataFlow.map DataFlow.toJson)),
    ("workflows", .list (p.workflows.map WorkflowDef.sizes))]

/-- The report on a valid program. Model of the answer of `validate_workflow`. -/
def report (p : Program) : Json :=
  .object [("is_valid", .bool true), ("errors", .list []),
    ("warnings", Json.ofStrings (p.warnings.map Warning.message)),
    ("action_count", .ofNat p.actions.length), ("entity_count", .ofNat p.entities.length),
    ("role_count", .ofNat p.roles.length), ("workflow_count", .ofNat p.workflows.length)]

end Program

/-- The report on a document with a syntax error. -/
def SyntaxError.report (e : SyntaxError) : Json :=
  .object [("is_valid", .bool false), ("errors", Json.ofStrings [e.located]),
    ("warnings", .list []), ("position", .ofNat e.position), ("message", .str "DSL syntax error")]

end RoleFlow
