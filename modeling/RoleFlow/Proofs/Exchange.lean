import RoleFlow.Graph.Json
import RoleFlow.Proofs.Contents
import RoleFlow.Proofs.JsonText
import RoleFlow.Proofs.Structure

/-!
# Graphs passed on as JSON

A graph that is given out is read as it was, from its JSON and from the text of that. The graph of a
program is given out unless the elements of a workflow nest too deeply. Infinite numbers stand only
among these elements, so that the graph without them has the same program.

Results:
* `Graph.check_toJson`: the JSON of a graph is read as the graph.
* `Graph.dump_cases`, `Program.dump_graph`: when a graph is given out, and that of a program.
* `Program.reconcile_withoutInfinities`: the program of a graph that lost its infinite numbers.
* `Program.isReadable_graph`: the JSON of the graph of a program is determined by its text.
-/

namespace RoleFlow

open Check

/-! ## Reading what is given out -/

theorem NodeKind.ofName?_name (kind : NodeKind) : NodeKind.ofName? kind.name = some kind := by
  cases kind <;> decide

theorem EdgeKind.ofName?_name (kind : EdgeKind) : EdgeKind.ofName? kind.name = some kind := by
  cases kind <;> decide

namespace Check

variable {α : Type}

theorem oneOf_str {value? : String → Option α} {name : String} {a : α} (h : value? name = some a) :
    oneOf value? (.str name) = .valid a := by
  rw [oneOf, h]

theorem optional_ofString? (value : Option String) :
    Check.optional text (Json.ofString? value) = .valid value := by
  cases value with
  | none => rfl
  | some value => rfl

theorem itemsFrom_map {check : Json → Checked α} {toJson : α → Json}
    (h : ∀ x, check (toJson x) = .valid x) (xs : List α) (i : Nat) :
    itemsFrom check i (xs.map toJson) = .valid xs := by
  induction xs generalizing i with
  | nil => rfl
  | cons x xs ih =>
    rw [List.map_cons, itemsFrom, h, ih]
    rfl

theorem membersOf_double (coordinates : List (String × Double)) :
    membersOf double (coordinates.map fun (name, x) => (name, .float x)) = .valid coordinates := by
  induction coordinates with
  | nil => rfl
  | cons coordinate coordinates ih =>
    rw [List.map_cons, membersOf, ih]
    rfl

end Check

theorem Node.check_toJson (n : Node) : Node.check n.toJson = .valid n := by
  obtain ⟨id, kind, label, data, position⟩ := n
  have hkind := oneOf_str kind.ofName?_name
  cases position with
  | none =>
    simp [Node.check, Node.toJson, model, required, withDefault, Fields.get?, text, object, hkind,
      Check.optional]
  | some coordinates =>
    have hposition := membersOf_double coordinates
    simp [Node.check, Node.toJson, model, required, withDefault, Fields.get?, text, object, hkind,
      Check.optional, members, hposition]

theorem Edge.check_toJson (e : Edge) : Edge.check e.toJson = .valid e := by
  obtain ⟨id, source, target, kind, label, sourceHandle, targetHandle, style⟩ := e
  have hkind := oneOf_str kind.ofName?_name
  simp [Edge.check, Edge.toJson, model, required, withDefault, Fields.get?, text, object, hkind,
    optional_ofString?]

/-- The JSON of a graph is read as the graph. -/
theorem Graph.check_toJson (g : Graph) : Graph.check g.toJson = .valid g := by
  have hnodes := itemsFrom_map Node.check_toJson g.nodes 0
  have hedges := itemsFrom_map Edge.check_toJson g.edges 0
  simp [Graph.check, Graph.toJson, model, withDefault, Fields.get?, list, hnodes, hedges]

/-! ## Nodes and edges of programs -/

namespace Program

variable {p : Program}

/-- What the data of a node of a program hold: a definition, or nothing. -/
inductive HasData (p : Program) : NodeKind → Fields → Prop
  | action {a : ActionDef} (ha : a ∈ p.actions) : HasData p .action a.nodeData
  | entity {e : EntityDef} (he : e ∈ p.entities) : HasData p .entity e.nodeData
  | role {r : RoleDef} (hr : r ∈ p.roles) : HasData p .role r.nodeData
  | workflow {w : WorkflowDef} (hw : w ∈ p.workflows) : HasData p .workflow w.nodeData
  | data : HasData p .data []

theorem hasData_of_mem {n : Node} (h : n ∈ p.graph.nodes) :
    p.HasData n.kind n.data ∧ n.position = none := by
  rw [graph_nodes] at h
  simp only [List.mem_append, List.mem_mapIdx] at h
  rcases h with (((⟨i, hi, rfl⟩ | ⟨i, hi, rfl⟩) | ⟨i, hi, rfl⟩) | ⟨i, hi, rfl⟩) | ⟨i, hi, rfl⟩
  · exact ⟨.action (List.getElem_mem hi), rfl⟩
  · exact ⟨.entity (List.getElem_mem hi), rfl⟩
  · exact ⟨.role (List.getElem_mem hi), rfl⟩
  · exact ⟨.workflow (List.getElem_mem hi), rfl⟩
  · exact ⟨.data, rfl⟩

theorem exists_node_of_workflow {w : WorkflowDef} (hw : w ∈ p.workflows) :
    ∃ n ∈ p.graph.nodes, n.data = w.nodeData := by
  obtain ⟨i, hi, rfl⟩ := List.getElem_of_mem hw
  refine ⟨p.workflowNode i p.workflows[i], ?_, rfl⟩
  rw [graph_nodes]
  simp only [List.mem_append, List.mem_mapIdx]
  exact .inl (.inr ⟨i, hi, rfl⟩)

theorem style_of_mem {e : Edge} (h : e ∈ p.graph.edges) : e.style = e.kind.style := by
  obtain ⟨link, a, b, -, rfl⟩ := mem_graph_edges_iff.mp h
  rfl

end Program

/-! ## Depth -/

theorem Json.depthOfItems_le {items : List Json} {depth : Nat}
    (h : ∀ item ∈ items, item.depth ≤ depth) : Json.depthOfItems items ≤ depth := by
  induction items with
  | nil => exact Nat.zero_le depth
  | cons item items ih =>
    obtain ⟨hitem, hitems⟩ := List.forall_mem_cons.mp h
    exact Nat.max_le.mpr ⟨hitem, ih hitems⟩

theorem Json.depth_ofStrings_le (names : List String) : (Json.ofStrings names).depth ≤ 3 := by
  refine Nat.succ_le_succ (Json.depthOfItems_le fun item hitem => ?_)
  obtain ⟨name, -, rfl⟩ := List.mem_map.mp hitem
  exact Nat.le_succ 1

theorem Json.depth_typedNames_le (ts : List TypedName) :
    (Json.list (ts.map TypedName.toJson)).depth ≤ 3 := by
  refine Nat.succ_le_succ (Json.depthOfItems_le fun item hitem => ?_)
  obtain ⟨t, -, rfl⟩ := List.mem_map.mp hitem
  exact Nat.le_refl 2

theorem Json.depth_ofString?_le (text : Option String) : (Json.ofString? text).depth ≤ 3 := by
  cases text with
  | none => exact Nat.le_add_left 1 2
  | some text => exact Nat.le_add_left 1 2

/-- No member nests too deeply to be given out. -/
def Fields.IsShallow (fields : Fields) : Prop := ∀ field ∈ fields, field.2.depth ≤ maxDepth

instance (fields : Fields) : Decidable fields.IsShallow :=
  inferInstanceAs (Decidable (∀ field ∈ fields, field.2.depth ≤ maxDepth))

theorem Fields.isTooDeep_iff {fields : Fields} : fields.isTooDeep = true ↔ ¬ fields.IsShallow := by
  simp [Fields.isTooDeep, Fields.IsShallow]

/-- Neither the data of a node nor the style of an edge nests too deeply to be given out. -/
def Graph.IsShallow (g : Graph) : Prop :=
  (∀ n ∈ g.nodes, n.data.IsShallow) ∧ ∀ e ∈ g.edges, e.style.IsShallow

instance (g : Graph) : Decidable g.IsShallow := inferInstanceAs (Decidable (_ ∧ _))

/-- A graph is given out whole, or not at all if it nests too deeply. -/
theorem Graph.dump_cases (g : Graph) :
    g.IsShallow ∧ g.dump = .ok g.toJson ∨ ¬ g.IsShallow ∧ g.dump = .error .tooDeep := by
  have hdeep : (g.nodes.any (·.data.isTooDeep) || g.edges.any (·.style.isTooDeep)) = true ↔
      ¬ g.IsShallow := by
    simp only [Bool.or_eq_true, List.any_eq_true, Fields.isTooDeep_iff, IsShallow,
      Classical.not_and_iff_not_or_not, Classical.not_forall, exists_prop]
  by_cases h : g.IsShallow
  · exact .inl ⟨h, if_neg fun hany => hdeep.mp hany h⟩
  · exact .inr ⟨h, if_pos (hdeep.mpr h)⟩

/-- The elements of the workflow do not nest too deeply, as JSON, to be given out. -/
def WorkflowDef.IsShallow (w : WorkflowDef) : Prop :=
  (Json.list (Element.toJsonList w.elements)).depth ≤ maxDepth

instance (w : WorkflowDef) : Decidable w.IsShallow := inferInstanceAs (Decidable (_ ≤ _))

theorem WorkflowDef.isShallow_nodeData (w : WorkflowDef) : w.nodeData.IsShallow ↔ w.IsShallow :=
  List.forall_mem_singleton

namespace Program

variable {p : Program} {kind : NodeKind} {data : Fields}

theorem HasData.depth_le (h : p.HasData kind data) (hkind : kind ≠ .workflow) :
    ∀ field ∈ data, field.2.depth ≤ 3 := by
  cases h with
  | @action a =>
    have hinputs := Json.depth_ofStrings_le a.inputs
    have houtputs := Json.depth_ofStrings_le a.outputs
    have hparameters := Json.depth_typedNames_le a.parameters
    intro field hfield
    simp only [ActionDef.nodeData, List.mem_cons, List.not_mem_nil, or_false] at hfield
    rcases hfield with rfl | rfl | rfl | rfl | rfl
    · exact Nat.le_add_left 1 2
    · exact Nat.le_add_left 1 2
    · exact hinputs
    · exact houtputs
    · exact hparameters
  | @entity e => simpa [EntityDef.nodeData] using Json.depth_typedNames_le e.attributes
  | @role r => simpa [RoleDef.nodeData, Json.depth] using Json.depth_ofString?_le _
  | workflow => exact absurd rfl hkind
  | data => simp

theorem isShallow_graph_iff (p : Program) : p.graph.IsShallow ↔ ∀ w ∈ p.workflows, w.IsShallow := by
  constructor
  · rintro ⟨hnodes, -⟩ w hw
    obtain ⟨n, hn, hdata⟩ := exists_node_of_workflow hw
    exact w.isShallow_nodeData.mp (hdata ▸ hnodes n hn)
  · refine fun h => ⟨fun n hn => ?_, fun e he => ?_⟩
    · obtain ⟨hdata, -⟩ := hasData_of_mem hn
      by_cases hkind : n.kind = .workflow
      · rw [hkind] at hdata
        generalize n.data = data at hdata
        cases hdata with
        | workflow hw => exact (WorkflowDef.isShallow_nodeData _).mpr (h _ hw)
      · exact fun field hfield => Nat.le_trans (hdata.depth_le hkind field hfield) (by decide)
    · rw [style_of_mem he]
      cases e.kind <;> decide

/-- The graph of a program is given out unless the elements of a workflow nest too deeply. -/
theorem dump_graph (p : Program) :
    (∀ w ∈ p.workflows, w.IsShallow) ∧ p.graph.dump = .ok p.graph.toJson ∨
      ¬ (∀ w ∈ p.workflows, w.IsShallow) ∧ p.graph.dump = .error .tooDeep := by
  rw [← isShallow_graph_iff]
  exact p.graph.dump_cases

end Program

/-! ## Infinite numbers -/

theorem Json.withoutInfinitiesItems_eq {items : List Json}
    (h : ∀ item ∈ items, item.withoutInfinities = item) :
    Json.withoutInfinitiesItems items = items := by
  induction items with
  | nil => rfl
  | cons item items ih =>
    obtain ⟨hitem, hitems⟩ := List.forall_mem_cons.mp h
    rw [Json.withoutInfinitiesItems, hitem, ih hitems]

theorem Json.withoutInfinities_ofStrings (names : List String) :
    (Json.ofStrings names).withoutInfinities = Json.ofStrings names := by
  refine congrArg Json.list (Json.withoutInfinitiesItems_eq fun item hitem => ?_)
  obtain ⟨name, -, rfl⟩ := List.mem_map.mp hitem
  rfl

theorem Json.withoutInfinities_typedNames (ts : List TypedName) :
    (Json.list (ts.map TypedName.toJson)).withoutInfinities = .list (ts.map TypedName.toJson) := by
  refine congrArg Json.list (Json.withoutInfinitiesItems_eq fun item hitem => ?_)
  obtain ⟨t, -, rfl⟩ := List.mem_map.mp hitem
  rfl

theorem Json.withoutInfinities_ofString? (text : Option String) :
    (Json.ofString? text).withoutInfinities = Json.ofString? text := by
  cases text with
  | none => rfl
  | some text => rfl

/-- The node with null in place of every infinite number in its data. -/
def Node.withoutInfinities (n : Node) : Node :=
  { n with data := Json.withoutInfinitiesFields n.data }

/-- The edge with null in place of every infinite number in its style. -/
def Edge.withoutInfinities (e : Edge) : Edge :=
  { e with style := Json.withoutInfinitiesFields e.style }

/-- The graph with null in place of every infinite number in its data and styles. -/
def Graph.withoutInfinities (g : Graph) : Graph :=
  ⟨g.nodes.map Node.withoutInfinities, g.edges.map Edge.withoutInfinities⟩

theorem Node.toJson_withoutInfinities {n : Node} (h : n.position = none) :
    n.toJson.withoutInfinities = n.withoutInfinities.toJson := by
  simp [Node.toJson, Node.withoutInfinities, Json.withoutInfinities, Json.withoutInfinitiesFields,
    h]

theorem Edge.toJson_withoutInfinities (e : Edge) :
    e.toJson.withoutInfinities = e.withoutInfinities.toJson := by
  simp [Edge.toJson, Edge.withoutInfinities, Json.withoutInfinities, Json.withoutInfinitiesFields,
    Json.withoutInfinities_ofString?]

theorem Json.withoutInfinitiesItems_map {α : Type} {toJson : α → Json} {change : α → α}
    {xs : List α} (h : ∀ x ∈ xs, (toJson x).withoutInfinities = toJson (change x)) :
    Json.withoutInfinitiesItems (xs.map toJson) = (xs.map change).map toJson := by
  induction xs with
  | nil => rfl
  | cons x xs ih =>
    obtain ⟨hx, hmore⟩ := List.forall_mem_cons.mp h
    rw [List.map_cons, Json.withoutInfinitiesItems, hx, ih hmore, List.map_cons, List.map_cons]

theorem Graph.toJson_withoutInfinities {g : Graph} (h : ∀ n ∈ g.nodes, n.position = none) :
    g.toJson.withoutInfinities = g.withoutInfinities.toJson := by
  have hnodes : Json.withoutInfinitiesItems (g.nodes.map Node.toJson) =
      (g.nodes.map Node.withoutInfinities).map Node.toJson :=
    Json.withoutInfinitiesItems_map fun n hn => Node.toJson_withoutInfinities (h n hn)
  have hedges : Json.withoutInfinitiesItems (g.edges.map Edge.toJson) =
      (g.edges.map Edge.withoutInfinities).map Edge.toJson :=
    Json.withoutInfinitiesItems_map fun e _ => e.toJson_withoutInfinities
  show Json.object [("nodes", .list (Json.withoutInfinitiesItems (g.nodes.map Node.toJson))),
    ("edges", .list (Json.withoutInfinitiesItems (g.edges.map Edge.toJson)))] = _
  rw [hnodes, hedges]
  rfl

namespace Program

variable {p : Program} {kind : NodeKind} {data : Fields}

/-- No node but that of a workflow holds an infinite number. -/
theorem HasData.withoutInfinities (h : p.HasData kind data) (hkind : kind ≠ .workflow) :
    Json.withoutInfinitiesFields data = data := by
  cases h with
  | action =>
    simp only [ActionDef.nodeData, Json.withoutInfinitiesFields, Json.withoutInfinities_ofStrings,
      Json.withoutInfinities_typedNames]
    rfl
  | entity =>
    simp only [EntityDef.nodeData, Json.withoutInfinitiesFields, Json.withoutInfinities_typedNames]
  | role =>
    simp only [RoleDef.nodeData, Json.withoutInfinitiesFields, Json.withoutInfinities_ofString?]
    rfl
  | workflow => exact absurd rfl hkind
  | data => rfl

theorem sameStructure_withoutInfinities (p : Program) :
    Graph.SameStructure id p.graph p.graph.withoutInfinities := by
  refine ⟨?_, Set.injOn_id _, fun n _ => ?_, fun n _ => ?_⟩
  · refine List.forall₂_map_right_iff.mpr (List.forall₂_same.mpr fun n hn => ?_)
    exact ⟨rfl, rfl, rfl, fun hkind _ => (hasData_of_mem hn).1.withoutInfinities hkind⟩
  · rw [Graph.outgoing, Graph.withoutInfinities, List.filter_map, List.map_map]
    rfl
  · rw [Graph.incoming, Graph.withoutInfinities, List.filter_map, List.map_map]
    rfl

/-- The graph of a program that lost its infinite numbers has the program of the graph. -/
theorem reconcile_withoutInfinities (p : Program) :
    p.graph.withoutInfinities.reconcile = p.graph.reconcile :=
  Graph.reconcile_of_definitions p.sameStructure_withoutInfinities.definitions

end Program

/-! ## Text -/

namespace Json

theorem isReadable_ofStrings (names : List String) : (ofStrings names).IsReadable := by
  refine .list fun item hitem => ?_
  obtain ⟨name, -, rfl⟩ := List.mem_map.mp hitem
  exact .str name

theorem isReadable_ofString? (text : Option String) : (ofString? text).IsReadable := by
  cases text with
  | none => exact .null
  | some text => exact .str text

/-- An object is readable if its members have different names and are readable. -/
theorem isReadable_fields {fields : Fields} (hnames : (fields.map (·.1)).Nodup)
    (hvalues : ∀ value ∈ fields.map (·.2), IsReadable value) : (object fields).IsReadable :=
  .object hnames fun _ hfield => hvalues _ (List.mem_map_of_mem hfield)

end Json

theorem TypedName.isReadable_toJson (t : TypedName) : t.toJson.IsReadable := by
  refine Json.isReadable_fields (by simp) ?_
  simpa using ⟨Json.IsReadable.str t.name, Json.IsReadable.str t.type⟩

theorem Expression.isReadable_toJson (e : Expression) : e.toJson.IsReadable := by
  cases e with
  | text value =>
    refine Json.isReadable_fields (by simp) ?_
    simpa using ⟨Json.IsReadable.str _, Json.IsReadable.str value⟩
  | number value =>
    refine Json.isReadable_fields (by simp) ?_
    simpa using ⟨Json.IsReadable.str _, Json.IsReadable.float value⟩
  | boolean value =>
    refine Json.isReadable_fields (by simp) ?_
    simpa using ⟨Json.IsReadable.str _, Json.IsReadable.bool value⟩
  | identifier name =>
    refine Json.isReadable_fields (by simp) ?_
    simpa using ⟨Json.IsReadable.str _, Json.IsReadable.str name⟩
  | property owner part =>
    refine Json.isReadable_fields (by simp) ?_
    simpa using ⟨Json.IsReadable.str _, Json.IsReadable.str owner, Json.IsReadable.str part⟩

theorem Argument.isReadable_toJson (a : Argument) : a.toJson.IsReadable := by
  refine Json.isReadable_fields (by simp) ?_
  simpa using ⟨Json.isReadable_ofString? a.name, a.value.isReadable_toJson⟩

mutual

theorem Element.isReadable_toJson : (e : Element) → e.toJson.IsReadable
  | .call name args => by
    have hargs : (Json.list (args.map Argument.toJson)).IsReadable := by
      refine .list fun item hitem => ?_
      obtain ⟨a, -, rfl⟩ := List.mem_map.mp hitem
      exact a.isReadable_toJson
    refine Json.isReadable_fields (by simp) ?_
    simpa using ⟨Json.IsReadable.str _, Json.IsReadable.str name, hargs⟩
  | .decision condition thenBody elseBody => by
    have hthen := Json.IsReadable.list (Element.isReadable_toJsonList thenBody)
    have helse := Json.IsReadable.list (Element.isReadable_toJsonList elseBody)
    refine Json.isReadable_fields (by simp) ?_
    simpa using ⟨Json.IsReadable.str _, condition.isReadable_toJson, hthen, helse⟩

theorem Element.isReadable_toJsonList :
    (elements : List Element) → ∀ item ∈ Element.toJsonList elements, item.IsReadable
  | [] => fun _ hitem => absurd hitem List.not_mem_nil
  | element :: elements => List.forall_mem_cons.mpr
    ⟨Element.isReadable_toJson element, Element.isReadable_toJsonList elements⟩

end

theorem EdgeKind.isReadable_style (kind : EdgeKind) : (Json.object kind.style).IsReadable := by
  have htwo : (Json.int 2).IsReadable := .int (by decide)
  cases kind with
  | workflowStart | sequence =>
    refine Json.isReadable_fields (by decide) ?_
    simpa [style] using ⟨Json.IsReadable.str _, htwo⟩
  | dataFlow =>
    refine Json.isReadable_fields (by decide) ?_
    simpa [style] using ⟨Json.IsReadable.str _, htwo, Json.IsReadable.str _⟩
  | rolePerformance =>
    refine Json.isReadable_fields (by decide) ?_
    simpa [style] using ⟨Json.IsReadable.str _, htwo, Json.IsReadable.bool true⟩

theorem Node.isReadable_toJson {n : Node} (hdata : (Json.object n.data).IsReadable)
    (hposition : n.position = none) : n.toJson.IsReadable := by
  refine Json.isReadable_fields (by simp) ?_
  rw [hposition]
  simpa using ⟨Json.IsReadable.str n.id, Json.IsReadable.str n.kind.name,
    Json.IsReadable.str n.label, hdata, Json.IsReadable.null⟩

theorem Edge.isReadable_toJson {e : Edge} (hstyle : (Json.object e.style).IsReadable) :
    e.toJson.IsReadable := by
  refine Json.isReadable_fields (by simp) ?_
  simpa using ⟨Json.IsReadable.str e.id, Json.IsReadable.str e.source, Json.IsReadable.str e.target,
    Json.IsReadable.str e.kind.name, Json.IsReadable.str e.label,
    Json.isReadable_ofString? e.sourceHandle, Json.isReadable_ofString? e.targetHandle, hstyle⟩

namespace Program

variable {p : Program}

theorem HasData.isReadable {kind : NodeKind} {data : Fields} (h : p.HasData kind data) :
    (Json.object data).IsReadable := by
  have htyped (ts : List TypedName) : (Json.list (ts.map TypedName.toJson)).IsReadable := by
    refine .list fun item hitem => ?_
    obtain ⟨t, -, rfl⟩ := List.mem_map.mp hitem
    exact t.isReadable_toJson
  cases h with
  | @action a =>
    refine Json.isReadable_fields (by simp [ActionDef.nodeData]) ?_
    simpa [ActionDef.nodeData] using ⟨Json.IsReadable.str a.actorLabel,
      Json.IsReadable.str a.description, Json.isReadable_ofStrings a.inputs,
      Json.isReadable_ofStrings a.outputs, htyped a.parameters⟩
  | @entity e =>
    refine Json.isReadable_fields (by simp [EntityDef.nodeData]) ?_
    simpa [EntityDef.nodeData] using htyped e.attributes
  | @role r =>
    refine Json.isReadable_fields (by simp [RoleDef.nodeData]) ?_
    simpa [RoleDef.nodeData] using
      ⟨Json.IsReadable.str r.description, Json.isReadable_ofString? (r.kind.map ActorKind.name)⟩
  | @workflow w =>
    refine Json.isReadable_fields (by simp [WorkflowDef.nodeData]) ?_
    simpa [WorkflowDef.nodeData] using
      Json.IsReadable.list (Element.isReadable_toJsonList w.elements)
  | data => exact Json.isReadable_fields List.nodup_nil (by simp)

/-- The text of the graph of a program is read as the JSON that it is of. -/
theorem isReadable_graph (p : Program) : p.graph.toJson.IsReadable := by
  have hnodes : (Json.list (p.graph.nodes.map Node.toJson)).IsReadable := by
    refine .list fun item hitem => ?_
    obtain ⟨n, hn, rfl⟩ := List.mem_map.mp hitem
    obtain ⟨hdata, hposition⟩ := hasData_of_mem hn
    exact Node.isReadable_toJson hdata.isReadable hposition
  have hedges : (Json.list (p.graph.edges.map Edge.toJson)).IsReadable := by
    refine .list fun item hitem => ?_
    obtain ⟨e, he, rfl⟩ := List.mem_map.mp hitem
    exact Edge.isReadable_toJson (style_of_mem he ▸ e.kind.isReadable_style)
  refine Json.isReadable_fields (by simp) ?_
  simpa using ⟨hnodes, hedges⟩

end Program

end RoleFlow
