import Mathlib.Data.List.Find
import Mathlib.Data.List.Forall2
import Mathlib.Data.Set.Function
import RoleFlow.Graph.Reconcile
import RoleFlow.Proofs.Walks

/-!
# Graphs of one structure

The program of a graph is told by what its nodes stand for and by which edges leave and enter every
node, in which order. Ids only tell nodes apart. Places, the data of workflows and of data nodes,
and what edges carry besides their ends and kinds tell nothing, nor does the order of edges that
have no node in common.

Results:
* `sequenceIds_rename`: a walk takes the same course under other ids.
* `argumentsOf_becomes`: a call passes on the same data.
* `program_eq_of_sameStructure`: graphs of one structure have one program.
-/

namespace RoleFlow

/-- The ends of an edge and its kind. -/
def Edge.ends (e : Edge) : String × String × EdgeKind := (e.source, e.target, e.kind)

/-- The ends of an edge under other ids, and its kind. -/
def Edge.endsUnder (rename : String → String) (e : Edge) : String × String × EdgeKind :=
  (rename e.source, rename e.target, e.kind)

/-- The node with the renamed id that stands for the same as another one. The data of workflows and
of data nodes may differ, and so may the places. Other data have the same members in the same order:
where a value that is no text is shown as one, the order of its members shows. -/
structure Node.Becomes (rename : String → String) (n m : Node) : Prop where
  id : m.id = rename n.id
  kind : m.kind = n.kind
  label : m.label = n.label
  data : n.kind ≠ .workflow → n.kind ≠ .data → m.data = n.data

namespace Graph

/-- The ids that occur in a graph: those of nodes and of the ends of edges. -/
def ids (g : Graph) : List String :=
  g.nodes.map (·.id) ++ g.edges.flatMap fun e => [e.source, e.target]

/-- The second graph has the nodes of the first one under other ids, and each node is left and
entered by edges of the same ends and kinds in the same order. -/
structure SameStructure (rename : String → String) (g h : Graph) : Prop where
  nodes : List.Forall₂ (Node.Becomes rename) g.nodes h.nodes
  injective : Set.InjOn rename {id | id ∈ g.ids}
  leaving : ∀ n ∈ g.nodes,
    (h.outgoing (rename n.id)).map Edge.ends = (g.outgoing n.id).map (Edge.endsUnder rename)
  entering : ∀ n ∈ g.nodes,
    (h.incoming (rename n.id) none).map Edge.ends =
      (g.incoming n.id none).map (Edge.endsUnder rename)

variable {rename : String → String} {g h : Graph}

/-! ## What is read of edges -/

theorem mem_ids_of_node {n : Node} (hn : n ∈ g.nodes) : n.id ∈ g.ids :=
  List.mem_append_left _ (List.mem_map_of_mem hn)

theorem mem_ids_of_edge {e : Edge} (he : e ∈ g.edges) : e.source ∈ g.ids ∧ e.target ∈ g.ids := by
  have hends : ∀ id ∈ [e.source, e.target], id ∈ g.ids := fun id hid =>
    List.mem_append_right _ (List.mem_flatMap.mpr ⟨e, he, hid⟩)
  exact ⟨hends _ (by simp), hends _ (by simp)⟩

theorem mem_ids_of_target {source id : String}
    (hid : id ∈ (g.outgoing source).map (·.target)) : id ∈ g.ids := by
  obtain ⟨e, he, rfl⟩ := List.mem_map.mp hid
  exact (mem_ids_of_edge (List.mem_filter.mp he).1).2

theorem targets_outgoing (g : Graph) (id : String) :
    (g.outgoing id).map (·.target) = ((g.outgoing id).map Edge.ends).map (·.2.1) := by
  rw [List.map_map]
  rfl

theorem targets_sequence (g : Graph) (id : String) :
    ((g.outgoing id).filter (·.kind == .sequence)).map (·.target) =
      (((g.outgoing id).map Edge.ends).filter (·.2.2 == .sequence)).map (·.2.1) := by
  rw [List.filter_map, List.map_map]
  rfl

/-- The label of the data node of an id. -/
def dataLabelOf? (g : Graph) (id : String) : Option String :=
  (g.node? id).bind fun n => if n.kind = .data then some n.label else none

theorem dataLabel?_eq (g : Graph) (e : Edge) : g.dataLabel? e = g.dataLabelOf? e.source := by
  unfold dataLabel? dataLabelOf?
  cases g.node? e.source with
  | none => rfl
  | some n => rfl

/-- The argument that an edge of the given ends and kind makes, if it is one. -/
def argumentOf? (g : Graph) (declared : List String) (ends : String × String × EdgeKind) :
    Option Argument :=
  if ends.2.2 = .dataFlow then
    (g.dataLabelOf? ends.1).bind fun label =>
      if declared.contains label then some (bindingOf label) else none
  else none

theorem argumentsOf_eq_filterMap (g : Graph) (n : Node) :
    g.argumentsOf n =
      ((g.incoming n.id none).map Edge.ends).filterMap (g.argumentOf? n.declaredInputs) := by
  have hincoming : g.incoming n.id (some .dataFlow) =
      (g.incoming n.id none).filter (·.kind == .dataFlow) := by
    unfold incoming
    rw [List.filter_filter]
    refine List.filter_congr fun e _ => ?_
    rw [Bool.and_true, Bool.and_comm]
  unfold argumentsOf
  rw [hincoming, List.filterMap_filter, List.filterMap_map]
  refine List.filterMap_congr fun e _ => ?_
  unfold Function.comp argumentOf? Edge.ends
  rw [dataLabel?_eq]
  by_cases hkind : e.kind = .dataFlow
  · simp only [hkind, beq_self_eq_true, if_true]
    cases g.dataLabelOf? e.source with
    | none => rfl
    | some label => rfl
  · simp [hkind]

/-! ## Nodes of an id -/

/-- Of two lists of nodes that correspond, the first nodes of an id correspond. -/
theorem find?_becomes {ns ms : List Node} {id : String}
    (hnodes : List.Forall₂ (Node.Becomes rename) ns ms)
    (hid : ∀ n ∈ ns, rename n.id = rename id → n.id = id) :
    Option.Rel (Node.Becomes rename) (ns.find? (·.id == id)) (ms.find? (·.id == rename id)) := by
  induction hnodes with
  | nil => exact .none
  | @cons n m ns ms hbecomes _ ih =>
    obtain ⟨hn, hmore⟩ := List.forall_mem_cons.mp hid
    by_cases heq : n.id = id
    · have hm : m.id = rename id := hbecomes.id.trans (congrArg rename heq)
      rw [List.find?_cons_of_pos (by simpa using heq), List.find?_cons_of_pos (by simpa using hm)]
      exact .some hbecomes
    · have hm : m.id ≠ rename id := fun h => heq (hn (hbecomes.id.symm.trans h))
      rw [List.find?_cons_of_neg (by simpa using heq), List.find?_cons_of_neg (by simpa using hm)]
      exact ih hmore

namespace SameStructure

variable {id : String}

theorem node?_becomes (hs : SameStructure rename g h) (hid : id ∈ g.ids) :
    Option.Rel (Node.Becomes rename) (g.node? id) (h.node? (rename id)) :=
  find?_becomes hs.nodes fun _ hn heq => hs.injective (mem_ids_of_node hn) hid heq

theorem lastNode?_becomes (hs : SameStructure rename g h) (hid : id ∈ g.ids) :
    Option.Rel (Node.Becomes rename) (g.lastNode? id) (h.lastNode? (rename id)) :=
  find?_becomes (List.forall₂_reverse_iff.mpr hs.nodes) fun _ hn heq =>
    hs.injective (mem_ids_of_node (List.mem_reverse.mp hn)) hid heq

theorem isAction_rename (hs : SameStructure rename g h) (hid : id ∈ g.ids) :
    h.isAction (rename id) = g.isAction id := by
  have hnodes := hs.lastNode?_becomes hid
  unfold isAction
  generalize g.lastNode? id = n? at *
  generalize h.lastNode? (rename id) = m? at *
  cases hnodes with
  | none => rfl
  | some hbecomes => exact congrArg (· == NodeKind.action) hbecomes.kind

theorem dataLabelOf?_rename (hs : SameStructure rename g h) (hid : id ∈ g.ids) :
    h.dataLabelOf? (rename id) = g.dataLabelOf? id := by
  have hnodes := hs.node?_becomes hid
  unfold dataLabelOf?
  generalize g.node? id = n? at *
  generalize h.node? (rename id) = m? at *
  cases hnodes with
  | none => rfl
  | some hbecomes => simp only [Option.bind_some, hbecomes.kind, hbecomes.label]

/-! ## Walks -/

theorem contains_rename (hs : SameStructure rename g h) {met : List String}
    (hmet : ∀ other ∈ met, other ∈ g.ids) (hid : id ∈ g.ids) :
    (met.map rename).contains (rename id) = met.contains id := by
  rw [Bool.eq_iff_iff, List.contains_iff_mem, List.contains_iff_mem, List.mem_map]
  constructor
  · rintro ⟨other, hother, heq⟩
    rwa [← hs.injective (hmet other hother) hid heq]
  · exact fun hmem => ⟨id, hmem, rfl⟩

theorem startOf?_rename (hs : SameStructure rename g h) {n : Node} (hn : n ∈ g.nodes) :
    h.startOf? (rename n.id) = (g.startOf? n.id).map rename := by
  have htargets : (h.outgoing (rename n.id)).map (·.target) =
      ((g.outgoing n.id).map (·.target)).map rename := by
    rw [targets_outgoing, hs.leaving n hn, List.map_map, List.map_map]
    rfl
  unfold startOf?
  rw [htargets, List.find?_map]
  refine congrArg (Option.map rename) (List.find?_congr fun id hid => ?_)
  exact hs.isAction_rename (mem_ids_of_target hid)

theorem nextStep?_rename (hs : SameStructure rename g h) {met : List String} {n : Node}
    (hn : n ∈ g.nodes) (hmet : ∀ id ∈ met, id ∈ g.ids) :
    h.nextStep? (met.map rename) (rename n.id) = (g.nextStep? met n.id).map rename := by
  have htargets : ((h.outgoing (rename n.id)).filter (·.kind == .sequence)).map (·.target) =
      (((g.outgoing n.id).filter (·.kind == .sequence)).map (·.target)).map rename := by
    rw [targets_sequence, hs.leaving n hn, List.filter_map, List.map_map, List.map_map]
    rfl
  unfold nextStep?
  rw [htargets, List.find?_map]
  refine congrArg (Option.map rename) (List.find?_congr fun id hid => ?_)
  have hids : id ∈ g.ids :=
    mem_ids_of_target (List.map_subset _ (List.filter_subset_self _) hid)
  show (!(met.map rename).contains (rename id) && h.isAction (rename id)) = _
  rw [hs.contains_rename hmet hids, hs.isAction_rename hids]

theorem walkFrom_rename (hs : SameStructure rename g h) {met : List String} {current : String}
    (hcurrent : ∃ n ∈ g.nodes, n.id = current) (hmet : ∀ id ∈ met, id ∈ g.ids) :
    h.walkFrom (met.map rename) (rename current) = (g.walkFrom met current).map rename := by
  fun_induction walkFrom g met current with
  | case1 met current hstep =>
    obtain ⟨n, hn, rfl⟩ := hcurrent
    exact walkFrom_none (by rw [hs.nextStep?_rename hn hmet, hstep, Option.map_none])
  | case2 met current id hstep ih =>
    obtain ⟨n, hn, rfl⟩ := hcurrent
    obtain ⟨m, hm, hid⟩ := exists_node_of_isAction (leads_of_nextStep? hstep).1.1
    have hids : id ∈ g.ids := hid ▸ mem_ids_of_node hm
    have hnext : h.nextStep? (met.map rename) (rename n.id) = some (rename id) := by
      rw [hs.nextStep?_rename hn hmet, hstep, Option.map_some]
    rw [walkFrom_some hnext, List.map_cons]
    exact congrArg _ (ih ⟨m, hm, hid⟩ (List.forall_mem_cons.mpr ⟨hids, hmet⟩))

/-- The walk of a workflow takes the same course under other ids. -/
theorem sequenceIds_rename (hs : SameStructure rename g h) {n : Node} (hn : n ∈ g.nodes) :
    h.sequenceIds (rename n.id) = (g.sequenceIds n.id).map rename := by
  unfold sequenceIds
  rw [hs.startOf?_rename hn]
  cases hstart : g.startOf? n.id with
  | none => rfl
  | some first =>
    obtain ⟨m, hm, hid⟩ := exists_node_of_isAction (List.find?_some hstart)
    have hfirst : ∀ id ∈ [first], id ∈ g.ids := by
      intro id hmem
      rw [List.mem_singleton.mp hmem, ← hid]
      exact mem_ids_of_node hm
    exact congrArg (rename first :: ·) (hs.walkFrom_rename ⟨m, hm, hid⟩ hfirst)

/-! ## Definitions -/

/-- A call of an action passes on the same data under other ids. -/
theorem argumentsOf_becomes (hs : SameStructure rename g h) {n m : Node} (hn : n ∈ g.nodes)
    (hbecomes : Node.Becomes rename n m) (hkind : n.kind = .action) :
    h.argumentsOf m = g.argumentsOf n := by
  have hdata : m.data = n.data := hbecomes.data (by simp [hkind]) (by simp [hkind])
  have hdeclared : m.declaredInputs = n.declaredInputs := by
    rw [Node.declaredInputs, hdata, Node.declaredInputs]
  rw [argumentsOf_eq_filterMap, argumentsOf_eq_filterMap, hbecomes.id, hs.entering n hn, hdeclared,
    List.filterMap_map, List.filterMap_map]
  refine List.filterMap_congr fun e he => ?_
  have hsource : e.source ∈ g.ids := (mem_ids_of_edge (List.mem_filter.mp he).1).1
  show h.argumentOf? _ (rename e.source, rename e.target, e.kind) =
    g.argumentOf? _ (e.source, e.target, e.kind)
  unfold argumentOf?
  rw [hs.dataLabelOf?_rename hsource]

theorem call_rename (hs : SameStructure rename g h) (haction : g.isAction id = true) :
    ((h.lastNode? (rename id)).map fun m => Element.call m.label (h.argumentsOf m)) =
      (g.lastNode? id).map fun n => .call n.label (g.argumentsOf n) := by
  obtain ⟨n, hn, hid⟩ := exists_node_of_isAction haction
  have hnodes := hs.lastNode?_becomes (hid ▸ mem_ids_of_node hn)
  unfold isAction at haction
  cases hlast : g.lastNode? id with
  | none =>
    rw [hlast] at haction
    cases haction
  | some n =>
    rw [hlast] at haction hnodes
    have hmem : n ∈ g.nodes := List.mem_reverse.mp (List.mem_of_find?_eq_some hlast)
    generalize h.lastNode? (rename id) = m? at *
    cases hnodes with
    | some hbecomes =>
      rw [Option.map_some, Option.map_some, hbecomes.label,
        hs.argumentsOf_becomes hmem hbecomes (beq_iff_eq.mp haction)]

theorem workflowOf_becomes (hs : SameStructure rename g h) {n m : Node} (hn : n ∈ g.nodes)
    (hbecomes : Node.Becomes rename n m) : h.workflowOf m = g.workflowOf n := by
  unfold workflowOf sequencePath
  rw [hbecomes.label, hbecomes.id, hs.sequenceIds_rename hn, List.filterMap_map,
    List.map_filterMap, List.map_filterMap]
  refine congrArg _ (List.filterMap_congr fun id hid => ?_)
  exact hs.call_rename (isAction_of_mem_sequenceIds hid)

theorem definitionOf_becomes (hs : SameStructure rename g h) {n m : Node} (hn : n ∈ g.nodes)
    (hbecomes : Node.Becomes rename n m) : h.definitionOf m = g.definitionOf n := by
  have hlabel := hbecomes.label
  have hdata := hbecomes.data
  unfold definitionOf
  rw [hbecomes.kind]
  cases hkind : n.kind with
  | action =>
    have hdata : m.data = n.data := hdata (by simp [hkind]) (by simp [hkind])
    simp only [Node.action, Node.declaredInputs, hlabel, hdata]
  | entity =>
    have hdata : m.data = n.data := hdata (by simp [hkind]) (by simp [hkind])
    simp only [Node.entity, hlabel, hdata]
  | role =>
    have hdata : m.data = n.data := hdata (by simp [hkind]) (by simp [hkind])
    simp only [Node.role, hlabel, hdata]
  | workflow => simp only [hs.workflowOf_becomes hn hbecomes]
  | data => rfl

end SameStructure

/-- A graph is read definition by definition. -/
theorem reconcile_of_definitions
    (hdefinitions : h.nodes.map h.definitionOf = g.nodes.map g.definitionOf) :
    h.reconcile = g.reconcile := by
  unfold reconcile
  rw [hdefinitions]

theorem SameStructure.definitions (hs : SameStructure rename g h) :
    h.nodes.map h.definitionOf = g.nodes.map g.definitionOf := by
  have hall : ∀ n ∈ g.nodes, ∀ m, Node.Becomes rename n m → h.definitionOf m = g.definitionOf n :=
    fun n hn m => hs.definitionOf_becomes hn
  have hnodes := hs.nodes
  generalize g.nodes = ns at hnodes hall
  generalize h.nodes = ms at hnodes
  induction hnodes with
  | nil => rfl
  | @cons n m ns ms hbecomes _ ih =>
    obtain ⟨hn, hmore⟩ := List.forall_mem_cons.mp hall
    rw [List.map_cons, List.map_cons, hn m hbecomes, ih hmore]

/-- Graphs of one structure have one program. -/
theorem program_eq_of_sameStructure (hs : SameStructure rename g h) : h.program = g.program :=
  congrArg Logged.value (reconcile_of_definitions hs.definitions)

/-- Two actions in a circle, one of which is left by an edge to nowhere. The second graph swaps
their ids, and gives its edges in another order. -/
theorem program_eq_of_sameStructure_circle :
    let rename : String → String := fun id =>
      if id = "a" then "b" else if id = "b" then "a" else id
    let action (id label : String) : Node :=
      ⟨id, .action, label, [("actor", .str "AI"), ("inputs", Json.ofStrings ["x"])], none⟩
    let edge (id source target : String) (kind : EdgeKind) (label : String) : Edge :=
      ⟨id, source, target, kind, label, none, none, []⟩
    let g : Graph :=
      ⟨[action "a" "A", action "b" "B", ⟨"w", .workflow, "W", [], none⟩,
          ⟨"d", .data, "x", [], none⟩],
        [edge "1" "w" "a" .workflowStart "", edge "2" "a" "gone" .sequence "",
          edge "3" "a" "b" .sequence "", edge "4" "b" "a" .sequence "",
          edge "5" "d" "b" .dataFlow ""]⟩
    let h : Graph :=
      ⟨[action "b" "A", { action "a" "B" with position := some [("x", .one)] },
          ⟨"w", .workflow, "W", [("elements", .list [])], none⟩,
          ⟨"d", .data, "x", [("note", .null)], none⟩],
        [edge "1" "b" "gone" .sequence "next", edge "1" "w" "b" .workflowStart "",
          edge "9" "a" "b" .sequence "", edge "3" "b" "a" .sequence "next",
          edge "1" "d" "a" .dataFlow "used by"]⟩
    SameStructure rename g h ∧ h.program = g.program := by
  intro rename action edge g h
  have hs : SameStructure rename g h := by
    refine ⟨?_, ?_, by decide, by decide⟩
    · exact .cons ⟨rfl, rfl, rfl, fun _ _ => rfl⟩ <| .cons ⟨rfl, rfl, rfl, fun _ _ => rfl⟩ <|
        .cons ⟨rfl, rfl, rfl, fun h => absurd rfl h⟩ <|
        .cons ⟨rfl, rfl, rfl, fun _ h => absurd rfl h⟩ .nil
    · have hinjective : ∀ x ∈ g.ids, ∀ y ∈ g.ids, rename x = rename y → x = y := by decide
      exact fun x hx y hy heq => hinjective x hx y hy heq
  exact ⟨hs, program_eq_of_sameStructure hs⟩

end Graph

end RoleFlow
