import RoleFlow.Proofs.Exchange
import RoleFlow.Proofs.NodeData

/-!
# What is given out is taken back

A program, a step or a graph is taken in from many forms of JSON, where members are absent and
numbers and booleans are spelled in several ways, and is given out in one form. That form is always
taken in again, as what was given out.

Only depth stands in the way. The data of a node and the style of an edge hold values of any shape,
and a graph is not given out if one of them nests too deeply. It may have been taken in, though.

Results:
* `Program.check_toJson`: the JSON of a program is read as the program.
* `dumps_read_back`: so are the steps in the graph of a program, and a graph that does not nest too
  deeply.
* `no_dump_of_nested`: a graph that is accepted and not given out.
-/

namespace RoleFlow

open Check

/-! ## Names of kinds, and lists -/

theorem ActorKind.ofName?_name (kind : ActorKind) : ActorKind.ofName? kind.name = some kind := by
  cases kind <;> decide

namespace Check

variable {α : Type}

theorem list_map {check : Json → Checked α} {toJson : α → Json}
    (h : ∀ x, check (toJson x) = .valid x) (xs : List α) :
    list check (.list (xs.map toJson)) = .valid xs :=
  itemsFrom_map h xs 0

theorem list_ofStrings (names : List String) : list text (Json.ofStrings names) = .valid names := by
  have hname (name : String) : text (.str name) = .valid name := rfl
  exact list_map hname names

theorem optional_oneOf {value? : String → Option α} {name : α → String}
    (h : ∀ x, value? (name x) = some x) (value : Option α) :
    Check.optional (oneOf value?) (Json.ofString? (value.map name)) = .valid value := by
  cases value with
  | none => rfl
  | some x =>
    show some <$> oneOf value? (.str (name x)) = .valid (some x)
    rw [oneOf_str (h x)]
    rfl

end Check

/-! ## Steps

An expression and a step are told apart from the others by their tags, which are written and so are
always found.
-/

theorem Expression.check_toJson (e : Expression) : Expression.check e.toJson = .valid e := by
  cases e <;> rfl

-- what is taken in need not be in the form that is given out
example : Expression.check (.object [("value", .bool true), ("type", .str "numberLiteral"),
    ("unit", .null)]) = .valid (.number .one) := rfl

theorem Argument.check_toJson (a : Argument) : Argument.check a.toJson = .valid a := by
  have hvalue := a.value.check_toJson
  simp [Argument.check, Argument.toJson, model, required, withDefault, Fields.get?, hvalue,
    optional_ofString?]

mutual

theorem Element.check_toJson : (e : Element) → Element.check e.toJson = .valid e
  | .call name args => by
    have hargs := list_map Argument.check_toJson args
    simp [Element.check, Element.toJson, Element.checkCallMembers, required, withDefault,
      Fields.get?, text, hargs]
  | .decision condition thenBody elseBody => by
    have hcondition := condition.check_toJson
    have hthen := Element.checkFrom_toJsonList thenBody 0
    have helse := Element.checkFrom_toJsonList elseBody 0
    simp [Element.check, Element.toJson, Element.checkBody, Element.checkSteps, required,
      Fields.get?, hcondition, hthen, helse]

/-- The number of the first step matters for the paths of issues only. -/
theorem Element.checkFrom_toJsonList : (elements : List Element) → (i : Nat) →
    Element.checkFrom i (Element.toJsonList elements) = .valid elements
  | [], _ => by rw [Element.toJsonList, Element.checkFrom]
  | element :: elements, i => by
    rw [Element.toJsonList, Element.checkFrom, Element.check_toJson element,
      Element.checkFrom_toJsonList elements (i + 1)]
    rfl

end

theorem Element.checkSteps_toJsonList (elements : List Element) :
    Element.checkSteps (.list (Element.toJsonList elements)) = .valid elements := by
  rw [Element.checkSteps, Element.checkFrom_toJsonList]

/-! ## Definitions and programs -/

theorem ActionDef.check_toJson (a : ActionDef) : ActionDef.check a.toJson = .valid a := by
  have hactor := oneOf_str a.actor.ofName?_name
  have hparameters := list_map TypedName.check_toJson a.parameters
  simp [ActionDef.check, ActionDef.toJson, model, required, withDefault, Fields.get?, text, hactor,
    hparameters, optional_ofString?, list_ofStrings]

theorem EntityDef.check_toJson (e : EntityDef) : EntityDef.check e.toJson = .valid e := by
  have hattributes := list_map TypedName.check_toJson e.attributes
  simp [EntityDef.check, EntityDef.toJson, model, required, withDefault, Fields.get?, text,
    hattributes]

theorem RoleDef.check_toJson (r : RoleDef) : RoleDef.check r.toJson = .valid r := by
  have hkind := optional_oneOf ActorKind.ofName?_name r.kind
  simp [RoleDef.check, RoleDef.toJson, model, required, withDefault, Fields.get?, text, hkind]

theorem WorkflowDef.check_toJson (w : WorkflowDef) : WorkflowDef.check w.toJson = .valid w := by
  have helements := Element.checkSteps_toJsonList w.elements
  simp [WorkflowDef.check, WorkflowDef.toJson, model, required, withDefault, Fields.get?, text,
    helements]

/-- The JSON of a program is read as the program. -/
theorem Program.check_toJson (p : Program) : Program.check p.toJson = .valid p := by
  have hactions := list_map ActionDef.check_toJson p.actions
  have hentities := list_map EntityDef.check_toJson p.entities
  have hroles := list_map RoleDef.check_toJson p.roles
  have hworkflows := list_map WorkflowDef.check_toJson p.workflows
  simp [Program.check, Program.toJson, model, withDefault, Fields.get?, hactions, hentities, hroles,
    hworkflows]

/-! ## Graphs -/

theorem Program.checkSteps_workflowNode (p : Program) (i : Nat) (w : WorkflowDef) :
    required (p.workflowNode i w).data "elements" Element.checkSteps = .valid w.elements := by
  show (Element.checkSteps (.list (Element.toJsonList w.elements))).under _ = _
  rw [Element.checkSteps_toJsonList]
  rfl

/-- The nodes of workflows hold their steps, one node for each workflow in order. -/
theorem Program.checkSteps_graph (p : Program) :
    (p.graph.nodesOfKind .workflow).map
        (fun n => (n.label, required n.data "elements" Element.checkSteps)) =
      p.workflows.map fun w => (w.name, .valid w.elements) := by
  rw [nodesOfKind_graph]
  exact map_mapIdx_of_forall p.workflowNode _
    (fun i w => Prod.ext rfl (p.checkSteps_workflowNode i w)) p.workflows

/-- A program is read back from its JSON, and the steps of each workflow from the data of its node.
A graph is read back from its JSON, which is given out unless data or a style nest too deeply. -/
theorem dumps_read_back (p : Program) (g : Graph) :
    Program.check p.toJson = .valid p ∧
      (p.graph.nodesOfKind .workflow).map
          (fun n => (n.label, required n.data "elements" Element.checkSteps)) =
        p.workflows.map (fun w => (w.name, .valid w.elements)) ∧
      (g.IsShallow ∧ (∃ json, g.dump = .ok json ∧ Graph.check json = .valid g) ∨
        ¬ g.IsShallow ∧ g.dump = .error .tooDeep) := by
  refine ⟨p.check_toJson, p.checkSteps_graph, ?_⟩
  rcases g.dump_cases with ⟨hshallow, hdump⟩ | hdeep
  · exact .inl ⟨hshallow, g.toJson, hdump, g.check_toJson⟩
  · exact .inr hdeep

/-! ## A graph that is not given out -/

/-- An empty list, inside as many others as told. -/
def Json.nested : Nat → Json
  | 0 => .list []
  | depth + 1 => .list [nested depth]

theorem Json.depth_nested (depth : Nat) : (nested depth).depth = depth + 1 := by
  induction depth with
  | zero => rfl
  | succ depth ih => rw [nested, Json.depth, Json.depthOfItems, Json.depthOfItems, ih, Nat.max_zero]

theorem Json.withoutInfinities_nested (depth : Nat) :
    (nested depth).withoutInfinities = nested depth := by
  induction depth with
  | zero => rfl
  | succ depth ih =>
    rw [nested, withoutInfinities, withoutInfinitiesItems, withoutInfinitiesItems, ih]

/-- The graph of a data node that holds a nested list. -/
def Graph.nested (depth : Nat) : Graph :=
  ⟨[⟨"n", .data, "x", [("deep", Json.nested depth)], none⟩], []⟩

theorem Graph.isShallow_nested_iff (depth : Nat) : (nested depth).IsShallow ↔ depth < maxDepth := by
  have hdepth : (Json.nested depth).depth ≤ maxDepth ↔ depth < maxDepth := by
    rw [Json.depth_nested]
    exact Iff.rfl
  simpa [nested, IsShallow, Fields.IsShallow] using hdepth

/-- The graph of a list inside 255 others is accepted and holds no infinite number, and no JSON is
given out for it. -/
theorem no_dump_of_nested :
    let g := Graph.nested 255
    Graph.check g.toJson = .valid g ∧ g.toJson.withoutInfinities = g.toJson ∧
      ¬ ∃ json, g.dump = .ok json ∧ Graph.check json = .valid g := by
  intro g
  have hfinite : g.toJson.withoutInfinities = g.toJson := by
    rw [Graph.toJson_withoutInfinities (by simp [g, Graph.nested])]
    simp [g, Graph.nested, Graph.withoutInfinities, Node.withoutInfinities,
      Json.withoutInfinitiesFields, Json.withoutInfinities_nested]
  have hdeep : ¬ g.IsShallow := by
    rw [Graph.isShallow_nested_iff]
    decide
  refine ⟨g.check_toJson, hfinite, ?_⟩
  rintro ⟨json, hdump, -⟩
  rcases g.dump_cases with ⟨hshallow, -⟩ | ⟨-, hnone⟩
  · exact hdeep hshallow
  · rw [hnone] at hdump
    cases hdump

end RoleFlow
