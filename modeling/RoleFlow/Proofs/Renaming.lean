import RoleFlow.Proofs.Edits
import RoleFlow.Proofs.NodeData

/-!
# Another label for an action

The label of an action node is the name in its definition and in the calls for which a walk comes to
it, and nothing else: nodes are found by their ids, and data by the labels of data nodes. So another
label renames this definition and these calls, whatever other nodes are called.

Main definitions:
* `Graph.relabeled`: the graph with another label for the nodes of an id.
* `Graph.programRenaming`: the program with another name for the action of an id.

Results:
* `apply_relabel`: what the edit does that sets a label.
* `program_relabeled`: another label for the actions of an id.
* `program_of_relabel`: what the edit does to the program.
-/

namespace RoleFlow

/-! ## Changed places -/

/-- The list with its members changed at the places where the nodes have the id. -/
def changeAt {α : Type} (nodes : List Node) (id : String) (f : α → α) (xs : List α) : List α :=
  xs.mapIdx fun i x => if nodes[i]?.map (·.id) = some id then f x else x

/-- What is read off a list, place by place, may as well be changed as it is read. -/
theorem mapIdx_map_getElem? {α β γ : Type} (xs : List α) (read : α → β) (f : Option α → β → γ) :
    ((xs.map read).mapIdx fun i y => f xs[i]? y) = xs.map fun x => f (some x) (read x) := by
  refine List.ext_getElem? fun i => ?_
  rw [List.getElem?_mapIdx, List.getElem?_map, List.getElem?_map]
  cases hx : xs[i]? with
  | none => rfl
  | some x => rfl

theorem changeAt_map {α : Type} (nodes : List Node) (id : String) (f : α → α) (read : Node → α) :
    changeAt nodes id f (nodes.map read) =
      nodes.map fun n => if n.id = id then f (read n) else read n := by
  have hread := mapIdx_map_getElem? nodes read fun n? x =>
    if n?.map (·.id) = some id then f x else x
  simpa only [changeAt, Option.map_some, Option.some.injEq] using hread

/-- The call of an action under another name. -/
def Element.renamed (name : String) : Element → Element
  | .call _ args => .call name args
  | .decision condition thenBody elseBody => .decision condition thenBody elseBody

/-- The node with another label, if it has the id. -/
def Node.relabeled (id label : String) (n : Node) : Node :=
  if n.id = id then { n with label } else n

namespace Graph

/-- The graph with another label for the nodes of an id. -/
def relabeled (g : Graph) (id label : String) : Graph :=
  { g with nodes := g.nodes.map (Node.relabeled id label) }

/-- The program of the graph with another name for the action of an id: in its definition, and in
the calls for which the walk of a workflow comes to it. -/
def programRenaming (g : Graph) (id name : String) : Program where
  actions := changeAt (g.nodesOfKind .action) id ({ · with name }) g.program.actions
  entities := g.program.entities
  roles := g.program.roles
  workflows := g.program.workflows.mapIdx fun i w =>
    let path := ((g.nodesOfKind .workflow)[i]?).elim [] fun n => g.sequencePath n.id
    { w with elements := changeAt path id (Element.renamed name) w.elements }

end Graph

/-! ## Nodes -/

namespace Node

variable {id label : String}

@[simp] theorem relabeled_id (n : Node) : (n.relabeled id label).id = n.id := by
  unfold relabeled
  split <;> rfl

@[simp] theorem relabeled_kind (n : Node) : (n.relabeled id label).kind = n.kind := by
  unfold relabeled
  split <;> rfl

@[simp] theorem relabeled_data (n : Node) : (n.relabeled id label).data = n.data := by
  unfold relabeled
  split <;> rfl

theorem relabeled_of_ne {n : Node} (h : n.id ≠ id) : n.relabeled id label = n := if_neg h

/-- The label of an action node is the name in its definition, and nothing else. -/
theorem action_relabeled (n : Node) :
    (n.relabeled id label).action.value =
      if n.id = id then { n.action.value with name := label } else n.action.value := by
  by_cases hid : n.id = id
  · rw [if_pos hid, relabeled, if_pos hid, action_value, action_value,
      typedNamesOf_owner "parameter" n.label label]
    rfl
  · rw [if_neg hid, relabeled_of_ne hid]

end Node

namespace Graph

variable {g : Graph} {id label : String}

theorem node?_relabeled (other : String) :
    (g.relabeled id label).node? other = (g.node? other).map (Node.relabeled id label) := by
  unfold node? relabeled
  rw [List.find?_map]
  simp only [Function.comp_def, Node.relabeled_id]

theorem lastNode?_relabeled (other : String) :
    (g.relabeled id label).lastNode? other = (g.lastNode? other).map (Node.relabeled id label) := by
  unfold lastNode? relabeled
  rw [← List.map_reverse, List.find?_map]
  simp only [Function.comp_def, Node.relabeled_id]

theorem nodesOfKind_relabeled (kind : NodeKind) :
    (g.relabeled id label).nodesOfKind kind =
      (g.nodesOfKind kind).map (Node.relabeled id label) := by
  unfold nodesOfKind relabeled
  rw [List.filter_map]
  simp only [Function.comp_def, Node.relabeled_kind]

/-! ## Walks and arguments -/

theorem isAction_relabeled : (g.relabeled id label).isAction = g.isAction := by
  funext other
  rw [isAction, isAction, lastNode?_relabeled]
  cases g.lastNode? other with
  | none => rfl
  | some n => exact congrArg (· == NodeKind.action) n.relabeled_kind

/-- A walk comes to the same nodes under any labels. -/
theorem sequencePath_relabeled (workflow : String) :
    (g.relabeled id label).sequencePath workflow =
      (g.sequencePath workflow).map (Node.relabeled id label) := by
  have hedges : (g.relabeled id label).edges = g.edges := rfl
  have hids := sequenceIds_congr hedges isAction_relabeled workflow
  rw [sequencePath, sequencePath, hids, List.map_filterMap]
  exact List.filterMap_congr fun other _ => lastNode?_relabeled other

/-- Data keep their labels if the nodes with another label are actions. -/
theorem dataLabel?_relabeled (hactions : ∀ n ∈ g.nodes, n.id = id → n.kind = .action) (e : Edge) :
    (g.relabeled id label).dataLabel? e = g.dataLabel? e := by
  rw [dataLabel?, dataLabel?, node?_relabeled]
  cases hnode : g.node? e.source with
  | none => rfl
  | some d =>
    by_cases hid : d.id = id
    · have haction := hactions d (List.mem_of_find?_eq_some hnode) hid
      simp [haction]
    · rw [Option.map_some, Node.relabeled_of_ne hid]

theorem argumentsOf_relabeled (hactions : ∀ n ∈ g.nodes, n.id = id → n.kind = .action) (n : Node) :
    (g.relabeled id label).argumentsOf (n.relabeled id label) = g.argumentsOf n := by
  have hlabel : (g.relabeled id label).dataLabel? = g.dataLabel? :=
    funext (dataLabel?_relabeled hactions)
  rw [argumentsOf, argumentsOf, hlabel, Node.declaredInputs, Node.declaredInputs,
    Node.relabeled_data, Node.relabeled_id]
  rfl

theorem workflowOf_relabeled (hactions : ∀ n ∈ g.nodes, n.id = id → n.kind = .action) (n : Node) :
    (g.relabeled id label).workflowOf n =
      { g.workflowOf n with
        elements := changeAt (g.sequencePath n.id) id (Element.renamed label)
          (g.workflowOf n).elements } := by
  rw [workflowOf, workflowOf, sequencePath_relabeled, List.map_map, changeAt_map]
  refine congrArg _ (List.map_congr_left fun action _ => ?_)
  rw [Function.comp_apply, argumentsOf_relabeled hactions]
  by_cases hid : action.id = id
  · rw [if_pos hid, Node.relabeled, if_pos hid]
    rfl
  · rw [if_neg hid, Node.relabeled_of_ne hid]

/-! ## Programs -/

/-- Nodes that are no actions are read as before. -/
theorem map_relabeled_of_kind {α : Type} {kind : NodeKind} {read : Node → α}
    (hactions : ∀ n ∈ g.nodes, n.id = id → n.kind = .action) (hkind : kind ≠ .action) :
    ((g.relabeled id label).nodesOfKind kind).map read = (g.nodesOfKind kind).map read := by
  rw [nodesOfKind_relabeled, List.map_map]
  refine List.map_congr_left fun n hn => congrArg read (Node.relabeled_of_ne fun hid => hkind ?_)
  obtain ⟨hmem, hnkind⟩ := List.mem_filter.mp hn
  rw [← beq_iff_eq.mp hnkind, hactions n hmem hid]

/-- Another label for actions renames their definitions and their calls, and nothing else. -/
theorem program_relabeled (hactions : ∀ n ∈ g.nodes, n.id = id → n.kind = .action) :
    (g.relabeled id label).program = g.programRenaming id label := by
  refine Program.eq_of_parts ?_ ?_ ?_ ?_
  · rw [programRenaming, actions_program, actions_program, changeAt_map, nodesOfKind_relabeled,
      List.map_map]
    exact List.map_congr_left fun n _ => n.action_relabeled
  · rw [entities_program, map_relabeled_of_kind hactions (by decide), ← entities_program]
    rfl
  · rw [roles_program, map_relabeled_of_kind hactions (by decide), ← roles_program]
    rfl
  · have hread := mapIdx_map_getElem? (g.nodesOfKind .workflow) g.workflowOf fun n? w =>
      { w with
        elements := changeAt (n?.elim [] fun n => g.sequencePath n.id) id (Element.renamed label)
          w.elements }
    rw [workflows_program, map_relabeled_of_kind hactions (by decide), programRenaming,
      workflows_program]
    exact (List.map_congr_left fun n _ => workflowOf_relabeled hactions n).trans hread.symm

/-! ## Edits -/

theorem replaceNode_of_nodup {nodes : List Node} (hids : (nodes.map (·.id)).Nodup)
    (f : Node → Node) :
    replaceNode id f nodes = nodes.map fun n => if n.id = id then f n else n := by
  induction nodes with
  | nil => rfl
  | cons n nodes ih =>
    obtain ⟨hn, hmore⟩ := List.nodup_cons.mp hids
    by_cases hid : n.id = id
    · have hothers : ∀ m ∈ nodes, (if m.id = id then f m else m) = m := fun m hm =>
        if_neg fun heq => hn (List.mem_map.mpr ⟨m, hm, heq.trans hid.symm⟩)
      rw [replaceNode, if_pos hid, List.map_cons, if_pos hid, map_eq_self hothers]
    · rw [replaceNode, if_neg hid, List.map_cons, if_neg hid, ih hmore]

/-- The edit that sets a label sets that of the one node of the id. -/
theorem apply_relabel {n : Node} (hids : (g.nodes.map (·.id)).Nodup) (hn : n ∈ g.nodes)
    (label : String) :
    (Edit.update n.id ⟨some label, none, none, none⟩).apply g =
      .ok (.node { n with label }, g.relabeled n.id label) := by
  have hnodes : replaceNode n.id (·.changed ⟨some label, none, none, none⟩) g.nodes =
      g.nodes.map (Node.relabeled n.id label) := replaceNode_of_nodup hids _
  rw [Edit.apply, changeNode, node?_of_mem hids hn, hnodes]
  rfl

/-- If ids are distinct, another label for an action renames its definition and the calls for which
walks come to it, and nothing else, whatever other nodes are called. -/
theorem program_of_relabel {n : Node} (hids : (g.nodes.map (·.id)).Nodup) (hn : n ∈ g.nodes)
    (hkind : n.kind = .action) (label : String) :
    ∃ after, (Edit.update n.id ⟨some label, none, none, none⟩).apply g =
        .ok (.node { n with label }, after) ∧
      after.program = g.programRenaming n.id label := by
  refine ⟨g.relabeled n.id label, apply_relabel hids hn label, program_relabeled fun m hm hid => ?_⟩
  rw [List.inj_on_of_nodup_map hids hm hn hid, hkind]

/-- Two actions, a workflow and data have the old label, and another action has the new one. -/
theorem program_of_relabel_homonyms :
    let action (id label : String) : Node :=
      ⟨id, .action, label, [("actor", .str "AI"), ("inputs", Json.ofStrings ["A"])], none⟩
    let edge (id source target : String) (kind : EdgeKind) : Edge :=
      ⟨id, source, target, kind, "", none, none, []⟩
    let n := action "a" "A"
    let g : Graph :=
      ⟨[n, action "b" "A", action "c" "B", ⟨"w", .workflow, "A", [], none⟩,
          ⟨"d", .data, "A", [], none⟩],
        [edge "1" "w" "a" .workflowStart, edge "2" "a" "b" .sequence, edge "3" "b" "a" .sequence,
          edge "4" "b" "c" .sequence, edge "5" "d" "a" .dataFlow, edge "6" "d" "b" .dataFlow]⟩
    (g.nodes.map (·.id)).Nodup ∧ n ∈ g.nodes ∧ n.kind = .action ∧
      (∃ after, (Edit.update n.id ⟨some "B", none, none, none⟩).apply g =
          .ok (.node { n with label := "B" }, after) ∧
        after.program = g.programRenaming n.id "B") ∧
      (g.programRenaming n.id "B").actions.map (·.name) = ["B", "A", "B"] ∧
      (g.programRenaming n.id "B").workflows =
        [⟨"A", [.call "B" [⟨some "A", .identifier "A"⟩], .call "A" [⟨some "A", .identifier "A"⟩],
          .call "B" []]⟩] := by
  intro action edge n g
  have hids : (g.nodes.map (·.id)).Nodup := by decide
  have hn : n ∈ g.nodes := List.mem_cons_self
  exact ⟨hids, hn, rfl, program_of_relabel hids hn rfl "B", by decide +kernel, by decide +kernel⟩

end Graph

end RoleFlow
