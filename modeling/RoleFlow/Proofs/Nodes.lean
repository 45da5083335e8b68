import RoleFlow.Graph.Reconcile
import RoleFlow.Proofs.Links

/-!
# The nodes of one kind

The nodes of the graph of a program stand kind by kind, and the definitions of the program of a
graph are read off its nodes kind by kind.

Results:
* `nodes_ids`, `nodes_labels`: the nodes, by number and by kind and label.
* `nodesOfKind_graph`: the nodes of a kind.
* `node?_of_mem`, `lastNode?_of_mem`: nodes are found by their ids if these are distinct.
* `actions_program`, `entities_program`, `roles_program`, `workflows_program`: the definitions of a
  graph, kind by kind.
-/

namespace RoleFlow

namespace Program

/-! ## Numbers -/

/-- The function makes nodes of one kind, which have numbers from `base` on. -/
structure Numbers {α : Type} (node : Nat → α → Node) (kind : NodeKind) (label : α → String)
    (base : Nat) : Prop where
  kind : ∀ i x, (node i x).kind = kind
  label : ∀ i x, (node i x).label = label x
  id : ∀ i x, (node i x).id = nodeId (base + i)

theorem numbers_action : Numbers actionNode .action ActionDef.name 0 :=
  ⟨fun _ _ => rfl, fun _ _ => rfl, fun i _ => congrArg nodeId (Nat.zero_add i).symm⟩

theorem numbers_entity (p : Program) : Numbers p.entityNode .entity EntityDef.name p.entityBase :=
  ⟨fun _ _ => rfl, fun _ _ => rfl, fun _ _ => rfl⟩

theorem numbers_role (p : Program) : Numbers p.roleNode .role RoleDef.name p.roleBase :=
  ⟨fun _ _ => rfl, fun _ _ => rfl, fun _ _ => rfl⟩

theorem numbers_workflow (p : Program) :
    Numbers p.workflowNode .workflow WorkflowDef.name p.workflowBase :=
  ⟨fun _ _ => rfl, fun _ _ => rfl, fun _ _ => rfl⟩

theorem numbers_data (p : Program) : Numbers p.dataNode .data id p.dataBase :=
  ⟨fun _ _ => rfl, fun _ _ => rfl, fun _ _ => rfl⟩

namespace Numbers

variable {α : Type} {node : Nat → α → Node} {kind : NodeKind} {label : α → String} {base : Nat}

theorem tail (h : Numbers node kind label base) :
    Numbers (fun i => node (i + 1)) kind label (base + 1) :=
  ⟨fun _ _ => h.kind _ _, fun _ _ => h.label _ _, fun i x => by
    rw [h.id, Nat.add_comm i 1, Nat.add_assoc]⟩

theorem ids (h : Numbers node kind label base) (xs : List α) :
    (xs.mapIdx node).map (·.id) = (List.range' base xs.length).map nodeId := by
  induction xs generalizing node base with
  | nil => rfl
  | cons x xs ih =>
    rw [List.mapIdx_cons, List.map_cons, List.length_cons, List.range'_succ, List.map_cons, h.id,
      ih h.tail, Nat.add_zero]

theorem labels (h : Numbers node kind label base) (xs : List α) :
    (xs.mapIdx node).map (fun n => (n.kind, n.label)) = xs.map fun x => (kind, label x) := by
  induction xs generalizing node base with
  | nil => rfl
  | cons x xs ih =>
    rw [List.mapIdx_cons, List.map_cons, List.map_cons, ih h.tail, h.kind, h.label]

theorem filter_eq (h : Numbers node kind label base) (other : NodeKind) (xs : List α) :
    (xs.mapIdx node).filter (·.kind == other) = if kind = other then xs.mapIdx node else [] := by
  have hkind : ∀ n ∈ xs.mapIdx node, n.kind = kind := by
    intro n hn
    obtain ⟨i, hi, rfl⟩ := List.mem_mapIdx.mp hn
    exact h.kind i _
  split
  · next heq => exact List.filter_eq_self.mpr fun n hn => by simp [hkind n hn, heq]
  · next hne => exact List.filter_eq_nil_iff.mpr fun n hn => by simp [hkind n hn, hne]

theorem last (h : Numbers node kind label base) (name : String) (xs : List α) :
    ((xs.mapIdx node).reverse.find? (·.label == name)).map (·.id) =
      (lastIndex? name (xs.map label)).map fun i => nodeId (base + i) := by
  induction xs generalizing node base with
  | nil => rfl
  | cons x xs ih =>
    have hrest := ih h.tail
    rw [List.mapIdx_cons, List.reverse_cons, List.find?_append, List.map_cons, lastIndex?]
    cases hlast : lastIndex? name (xs.map label) with
    | some i =>
      rw [hlast] at hrest
      obtain ⟨n, hn, hni⟩ := Option.map_eq_some_iff.mp hrest
      rw [hn, Option.some_or, Option.map_some, Option.map_some, hni, Nat.add_comm i 1,
        ← Nat.add_assoc]
    | none =>
      rw [hlast, Option.map_none, Option.map_eq_none_iff] at hrest
      rw [hrest, Option.none_or]
      by_cases hname : label x = name
      · simp [h.label, h.id, hname]
      · simp [h.label, hname]

end Numbers

/-! ## Nodes -/

/-- The nodes are numbered in order. -/
theorem nodes_ids (p : Program) :
    p.graph.nodes.map (·.id) = (List.range p.graph.nodes.length).map nodeId := by
  rw [graph_nodes, List.range_eq_range']
  simp only [List.map_append, List.length_append, List.length_mapIdx, numbers_action.ids,
    p.numbers_entity.ids, p.numbers_role.ids, p.numbers_workflow.ids, p.numbers_data.ids]
  simp only [← List.map_append]
  unfold dataBase workflowBase roleBase entityBase
  simp only [← List.range'_append_1, Nat.zero_add]

theorem actionNode_mem_nodes {p : Program} {i : Nat} {a : ActionDef} (h : p.actions[i]? = some a) :
    actionNode i a ∈ p.graph.nodes := by
  obtain ⟨hi, rfl⟩ := List.getElem?_eq_some_iff.mp h
  rw [graph_nodes]
  simp only [List.mem_append, List.mem_mapIdx]
  exact .inl (.inl (.inl (.inl ⟨i, hi, rfl⟩)))

theorem nodup_node_ids (p : Program) : (p.graph.nodes.map (·.id)).Nodup := by
  rw [nodes_ids]
  exact List.nodup_range.map fun a b h => nodeId_inj.mp h

/-- The kinds and labels of the nodes: definitions by kind, then data. -/
theorem nodes_labels (p : Program) :
    p.graph.nodes.map (fun n => (n.kind, n.label)) =
      p.actions.map (fun a => (NodeKind.action, a.name)) ++
        p.entities.map (fun e => (NodeKind.entity, e.name)) ++
        p.roles.map (fun r => (NodeKind.role, r.name)) ++
        p.workflows.map (fun w => (NodeKind.workflow, w.name)) ++
        (p.actions.flatMap (·.outputs)).eraseDups.map fun name => (NodeKind.data, name) := by
  rw [graph_nodes, ← dataNames_eq]
  simp only [List.map_append, numbers_action.labels, p.numbers_entity.labels,
    p.numbers_role.labels, p.numbers_workflow.labels, p.numbers_data.labels, id]

/-- The nodes of a kind. -/
theorem nodesOfKind_graph (p : Program) (kind : NodeKind) :
    p.graph.nodesOfKind kind =
      match kind with
      | .action => p.actions.mapIdx actionNode
      | .entity => p.entities.mapIdx p.entityNode
      | .role => p.roles.mapIdx p.roleNode
      | .workflow => p.workflows.mapIdx p.workflowNode
      | .data => p.dataNames.mapIdx p.dataNode := by
  unfold Graph.nodesOfKind
  rw [graph_nodes]
  simp only [List.filter_append, numbers_action.filter_eq, p.numbers_entity.filter_eq,
    p.numbers_role.filter_eq, p.numbers_workflow.filter_eq, p.numbers_data.filter_eq]
  cases kind with
  | action | entity | role | workflow | data => simp

end Program

namespace Graph

variable {g : Graph}

/-! ## Nodes of distinct ids -/

theorem find?_id_of_mem {nodes : List Node} {n : Node} (hids : (nodes.map (·.id)).Nodup)
    (hn : n ∈ nodes) : nodes.find? (·.id == n.id) = some n := by
  cases hfind : nodes.find? (·.id == n.id) with
  | none => exact absurd (beq_self_eq_true n.id) (List.find?_eq_none.mp hfind n hn)
  | some m =>
    have hid : m.id = n.id := by simpa using List.find?_some hfind
    rw [List.inj_on_of_nodup_map hids (List.mem_of_find?_eq_some hfind) hn hid]

theorem node?_of_mem {n : Node} (hids : (g.nodes.map (·.id)).Nodup) (hn : n ∈ g.nodes) :
    g.node? n.id = some n :=
  find?_id_of_mem hids hn

theorem lastNode?_of_mem {n : Node} (hids : (g.nodes.map (·.id)).Nodup) (hn : n ∈ g.nodes) :
    g.lastNode? n.id = some n := by
  refine find?_id_of_mem ?_ (List.mem_reverse.mpr hn)
  rw [List.map_reverse]
  exact List.nodup_reverse.mpr hids

/-! ## Definitions of graphs -/

theorem definitions_of_kind {α : Type} {f : Definition → Option α} {kind : NodeKind}
    {read : Node → α}
    (h : ∀ n, (g.definitionOf n).value.bind f = if n.kind = kind then some (read n) else none) :
    ((g.nodes.map g.definitionOf).filterMap (·.value)).filterMap f =
      (g.nodesOfKind kind).map read := by
  rw [nodesOfKind, List.filterMap_map, List.filterMap_filterMap, ← List.filterMap_eq_map,
    List.filterMap_filter]
  refine List.filterMap_congr fun n _ => (h n).trans ?_
  simp

theorem actions_program (g : Graph) :
    g.program.actions = (g.nodesOfKind .action).map (·.action.value) :=
  definitions_of_kind fun n => by
    unfold definitionOf
    cases n.kind <;> rfl

theorem entities_program (g : Graph) :
    g.program.entities = (g.nodesOfKind .entity).map (·.entity.value) :=
  definitions_of_kind fun n => by
    unfold definitionOf
    cases n.kind <;> rfl

theorem roles_program (g : Graph) : g.program.roles = (g.nodesOfKind .role).map Node.role :=
  definitions_of_kind fun n => by
    unfold definitionOf
    cases n.kind <;> rfl

theorem workflows_program (g : Graph) :
    g.program.workflows = (g.nodesOfKind .workflow).map g.workflowOf :=
  definitions_of_kind fun n => by
    unfold definitionOf
    cases n.kind <;> rfl

end Graph

end RoleFlow
