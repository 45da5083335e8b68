import Mathlib.Data.List.Perm.Subperm
import RoleFlow.Proofs.Greedy
import RoleFlow.Proofs.NodeData

/-!
# What the program of a graph refers to

A call is found by the last node of an id, its arguments by the first one, and definitions by their
kind. Ids may repeat and edges may end nowhere; still a program of a graph refers to nothing that is
missing, since the node of a call is itself that of a definition.

Main definitions:
* `Graph.Brings`: data of a name reach a node.
* `Graph.IsBacked`: an element refers to nothing that is missing.

Results:
* `exists_of_mem_workflowOf`, `exists_of_mem_argumentsOf`: calls, and what they pass on.
* `sequencePath_subperm`: a walk meets action nodes, each at most once.
* `isBacked_of_mem_program`: what programs of graphs refer to.
-/

namespace RoleFlow

namespace Graph

/-- An edge of data leads to the node from a data node of the name. -/
def Brings (g : Graph) (name : String) (n : Node) : Prop :=
  ∃ d ∈ g.nodes, d.kind = .data ∧ d.label = name ∧
    ∃ e ∈ g.edges, e.kind = .dataFlow ∧ e.source = d.id ∧ e.target = n.id

/-- The element is a call of one of the actions. It passes on nothing but inputs that this action
declares, each under its own name, and that data bring to a node of the graph. -/
def IsBacked (g : Graph) (actions : List ActionDef) : Element → Prop
  | .call name args => ∃ a ∈ actions, a.name = name ∧ ∃ n ∈ g.nodes,
      ∀ arg ∈ args, ∃ x ∈ a.inputs, arg = ⟨some x, .identifier x⟩ ∧ g.Brings x n
  | .decision .. => False

variable {g : Graph} {n : Node}

/-! ## Arguments -/

theorem dataLabel?_eq_some_iff {e : Edge} {name : String} :
    g.dataLabel? e = some name ↔
      ∃ d, g.node? e.source = some d ∧ d.kind = .data ∧ d.label = name := by
  unfold dataLabel?
  cases g.node? e.source with
  | none => simp
  | some d => simp

/-- A call passes on nothing but inputs that its action declares and that data bring to it. -/
theorem exists_of_mem_argumentsOf {a : Argument} (h : a ∈ g.argumentsOf n) :
    ∃ name ∈ n.declaredInputs, a = bindingOf name ∧ g.Brings name n := by
  obtain ⟨e, he, harg⟩ := List.mem_filterMap.mp h
  obtain ⟨hedge, hends⟩ := List.mem_filter.mp he
  obtain ⟨htarget, hkind⟩ := Bool.and_eq_true _ _ ▸ hends
  split at harg
  · next name hname =>
    obtain ⟨d, hd, hdata, hlabel⟩ := dataLabel?_eq_some_iff.mp hname
    have hid : d.id = e.source := by simpa using List.find?_some hd
    have hbrings : g.Brings name n :=
      ⟨d, List.mem_of_find?_eq_some hd, hdata, hlabel, e, hedge, beq_iff_eq.mp hkind, hid.symm,
        beq_iff_eq.mp htarget⟩
    split at harg
    · next hdeclared =>
      cases harg
      exact ⟨name, List.contains_iff_mem.mp hdeclared, rfl, hbrings⟩
    · cases harg
  · cases harg

/-! ## Calls -/

/-- What a workflow consists of: calls of action nodes. -/
theorem exists_of_mem_workflowOf {workflow : Node} {element : Element}
    (h : element ∈ (g.workflowOf workflow).elements) :
    ∃ n ∈ g.nodes, n.kind = .action ∧ element = .call n.label (g.argumentsOf n) := by
  obtain ⟨n, hn, rfl⟩ := List.mem_map.mp h
  obtain ⟨hmem, hkind⟩ := mem_sequencePath hn
  exact ⟨n, hmem, hkind, rfl⟩

theorem action_mem_program (hn : n ∈ g.nodes) (hkind : n.kind = .action) :
    n.action.value ∈ g.program.actions := by
  rw [actions_program]
  exact List.mem_map_of_mem (List.mem_filter.mpr ⟨hn, beq_iff_eq.mpr hkind⟩)

/-- The call of an action node is backed: the definition of the same node stands in the program. -/
theorem isBacked_call (hn : n ∈ g.nodes) (hkind : n.kind = .action) :
    g.IsBacked g.program.actions (.call n.label (g.argumentsOf n)) := by
  have hvalue := n.action_value
  refine ⟨n.action.value, action_mem_program hn hkind, ?_, n, hn, fun arg harg => ?_⟩
  · rw [hvalue]
  · obtain ⟨x, hx, heq, hbrings⟩ := exists_of_mem_argumentsOf harg
    refine ⟨x, ?_, heq, hbrings⟩
    rw [hvalue]
    exact hx

/-- A walk meets action nodes of the graph, each at most once. -/
theorem sequencePath_subperm (g : Graph) (workflow : String) :
    (g.sequencePath workflow).Subperm (g.nodesOfKind .action) := by
  have hdistinct : (g.sequencePath workflow).Nodup :=
    List.Nodup.of_map _ (g.isGreedyWalk_sequencePath workflow).distinct
  refine hdistinct.subperm fun n hn => ?_
  obtain ⟨hmem, hkind⟩ := mem_sequencePath hn
  exact List.mem_filter.mpr ⟨hmem, beq_iff_eq.mpr hkind⟩

/-! ## Programs -/

/-- Whatever a graph holds, its workflows consist of calls of actions that its program defines.
These pass on, each under its own name, inputs that the definition declares and that data of the
graph bring, and there are no more of them than there are action nodes. -/
theorem isBacked_of_mem_program (g : Graph) :
    ∀ w ∈ g.program.workflows, (∀ element ∈ w.elements, g.IsBacked g.program.actions element) ∧
      w.elements.length ≤ (g.nodesOfKind .action).length := by
  intro w hw
  rw [workflows_program] at hw
  obtain ⟨v, -, rfl⟩ := List.mem_map.mp hw
  constructor
  · intro element helement
    obtain ⟨n, hn, hkind, rfl⟩ := exists_of_mem_workflowOf helement
    exact isBacked_call hn hkind
  · rw [workflowOf, List.length_map]
    exact (g.sequencePath_subperm v.id).length_le

/-- Data and an action share an id, so that an edge leads from the data to the action as a loop. The
walk goes in a circle, and past an edge to nowhere. -/
theorem isBacked_of_mem_program_loop :
    let action (id label : String) (inputs : List String) : Node :=
      ⟨id, .action, label, [("inputs", Json.ofStrings inputs)], none⟩
    let edge (id source target : String) (kind : EdgeKind) : Edge :=
      ⟨id, source, target, kind, "", none, none, []⟩
    let g : Graph :=
      ⟨[⟨"a", .data, "x", [], none⟩, action "a" "A" ["y", "x"], action "b" "A" ["x"],
          ⟨"w", .workflow, "W", [], none⟩],
        [edge "1" "w" "a" .dataFlow, edge "2" "a" "a" .dataFlow, edge "2" "c" "a" .dataFlow,
          edge "3" "a" "c" .sequence, edge "4" "a" "b" .sequence, edge "5" "b" "a" .sequence]⟩
    let w : WorkflowDef := ⟨"W", [.call "A" [⟨some "x", .identifier "x"⟩], .call "A" []]⟩
    w ∈ g.program.workflows ∧
      (∀ element ∈ w.elements, g.IsBacked g.program.actions element) ∧
      w.elements.length ≤ (g.nodesOfKind .action).length := by
  intro action edge g w
  have hw : w ∈ g.program.workflows := by decide +kernel
  exact ⟨hw, g.isBacked_of_mem_program w hw⟩

end Graph

end RoleFlow
