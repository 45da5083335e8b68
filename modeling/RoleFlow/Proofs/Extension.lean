import Mathlib.Data.List.Forall2
import RoleFlow.Proofs.Edits
import RoleFlow.Proofs.Nodes
import RoleFlow.Proofs.Walks

/-!
# Connections extend workflows

Walks and arguments take the first edge that fits. So edges that are added at the end are looked at
only where none fitted before: walks and lists of arguments go on, and nothing that was there
changes.

Results:
* `IsExtendedBy.walkFrom_prefix`, `IsExtendedBy.argumentsOf_prefix`: more edges at the end.
* `isExtendedBy_program`: the program of a graph with more edges at the end.
* `program_isExtendedBy_of_connect`: what a connection does to the program.
-/

namespace RoleFlow

/-! ## Extended programs -/

/-- The second step is the same call, perhaps with more arguments at the end. -/
inductive Element.IsExtendedBy : Element → Element → Prop
  | call (name : String) {args more : List Argument} (h : args <+: more) :
    IsExtendedBy (.call name args) (.call name more)

/-- The second workflow has the same name, and begins with the calls of the first one, which may
have more arguments at the end. -/
structure WorkflowDef.IsExtendedBy (w v : WorkflowDef) : Prop where
  name : v.name = w.name
  calls : ∃ kept, kept <+: v.elements ∧ List.Forall₂ Element.IsExtendedBy w.elements kept

/-- The second program has the same definitions but for workflows, and the same workflows but for
more calls and more arguments at the end. -/
structure Program.IsExtendedBy (p q : Program) : Prop where
  actions : q.actions = p.actions
  entities : q.entities = p.entities
  roles : q.roles = p.roles
  workflows : List.Forall₂ WorkflowDef.IsExtendedBy p.workflows q.workflows

namespace Graph

/-- The second graph has the same nodes, and more edges at the end. -/
structure IsExtendedBy (g h : Graph) : Prop where
  nodes : h.nodes = g.nodes
  edges : g.edges <+: h.edges

variable {g h : Graph}

namespace IsExtendedBy

/-! ## Nodes and edges -/

theorem lastNode?_eq (hext : g.IsExtendedBy h) (id : String) : h.lastNode? id = g.lastNode? id := by
  rw [lastNode?, lastNode?, hext.nodes]

theorem isAction_eq (hext : g.IsExtendedBy h) (id : String) : h.isAction id = g.isAction id := by
  rw [isAction, isAction, hext.lastNode?_eq]

theorem dataLabel?_eq (hext : g.IsExtendedBy h) (e : Edge) : h.dataLabel? e = g.dataLabel? e := by
  rw [dataLabel?, dataLabel?, node?, node?, hext.nodes]

theorem nodesOfKind_eq (hext : g.IsExtendedBy h) (kind : NodeKind) :
    h.nodesOfKind kind = g.nodesOfKind kind := by
  rw [nodesOfKind, nodesOfKind, hext.nodes]

theorem outgoing_prefix (hext : g.IsExtendedBy h) (id : String) :
    g.outgoing id <+: h.outgoing id :=
  hext.edges.filter _

theorem incoming_prefix (hext : g.IsExtendedBy h) (id : String) (kind? : Option EdgeKind) :
    g.incoming id kind? <+: h.incoming id kind? :=
  hext.edges.filter _

/-! ## Walks -/

/-- A walk that starts somewhere starts there still. -/
theorem startOf?_eq_some (hext : g.IsExtendedBy h) {workflow first : String}
    (hfirst : g.startOf? workflow = some first) : h.startOf? workflow = some first := by
  have haction : h.isAction = g.isAction := funext hext.isAction_eq
  rw [startOf?, haction]
  exact ((hext.outgoing_prefix workflow).map _).find?_eq_some hfirst

/-- A walk that goes on somewhere goes on there still. -/
theorem nextStep?_eq_some (hext : g.IsExtendedBy h) {met : List String} {current id : String}
    (hstep : g.nextStep? met current = some id) : h.nextStep? met current = some id := by
  have haction : h.isAction = g.isAction := funext hext.isAction_eq
  rw [nextStep?, haction]
  exact (((hext.outgoing_prefix current).filter _).map _).find?_eq_some hstep

theorem walkFrom_prefix (hext : g.IsExtendedBy h) (met : List String) (current : String) :
    g.walkFrom met current <+: h.walkFrom met current := by
  -- A step that was made is made again. Where none was left, the walk may now go on.
  fun_induction g.walkFrom met current with
  | case1 => exact List.nil_prefix
  | case2 met current id hstep ih =>
    rw [walkFrom_some (hext.nextStep?_eq_some hstep)]
    exact (List.prefix_cons_inj id).mpr ih

theorem sequenceIds_prefix (hext : g.IsExtendedBy h) (workflow : String) :
    g.sequenceIds workflow <+: h.sequenceIds workflow := by
  rw [sequenceIds]
  cases hfirst : g.startOf? workflow with
  | none => exact List.nil_prefix
  | some first =>
    rw [sequenceIds, hext.startOf?_eq_some hfirst]
    exact (List.prefix_cons_inj first).mpr (hext.walkFrom_prefix [first] first)

theorem sequencePath_prefix (hext : g.IsExtendedBy h) (workflow : String) :
    g.sequencePath workflow <+: h.sequencePath workflow := by
  have hlast : h.lastNode? = g.lastNode? := funext hext.lastNode?_eq
  rw [sequencePath, sequencePath, hlast]
  exact (hext.sequenceIds_prefix workflow).filterMap _

/-! ## Programs -/

theorem argumentsOf_prefix (hext : g.IsExtendedBy h) (action : Node) :
    g.argumentsOf action <+: h.argumentsOf action := by
  have hlabel : h.dataLabel? = g.dataLabel? := funext hext.dataLabel?_eq
  rw [argumentsOf, argumentsOf, hlabel]
  exact (hext.incoming_prefix action.id _).filterMap _

theorem workflowOf (hext : g.IsExtendedBy h) (n : Node) :
    (g.workflowOf n).IsExtendedBy (h.workflowOf n) where
  name := rfl
  calls := by
    let call (action : Node) : Element := .call action.label (h.argumentsOf action)
    refine ⟨(g.sequencePath n.id).map call, (hext.sequencePath_prefix n.id).map call, ?_⟩
    rw [Graph.workflowOf, List.forall₂_map_left_iff, List.forall₂_map_right_iff, List.forall₂_same]
    exact fun action _ => .call action.label (hext.argumentsOf_prefix action)

end IsExtendedBy

/-- More edges at the end of a graph extend its program. -/
theorem isExtendedBy_program (hext : g.IsExtendedBy h) : g.program.IsExtendedBy h.program where
  actions := by rw [actions_program, actions_program, hext.nodesOfKind_eq]
  entities := by rw [entities_program, entities_program, hext.nodesOfKind_eq]
  roles := by rw [roles_program, roles_program, hext.nodesOfKind_eq]
  workflows := by
    rw [workflows_program, workflows_program, hext.nodesOfKind_eq, List.forall₂_map_left_iff,
      List.forall₂_map_right_iff, List.forall₂_same]
    exact fun n _ => hext.workflowOf n

end Graph

/-! ## Connections -/

theorem Edit.Does.isExtendedBy_of_connect {g after : Graph} {touched : Touched}
    {source target : String} {sourceHandle targetHandle : Option String}
    (h : (Edit.connect source target sourceHandle targetHandle).Does g touched after) :
    g.IsExtendedBy after := by
  cases h with
  | connect => exact ⟨rfl, List.prefix_append _ _⟩

/-- A connection leaves all definitions but workflows as they are. Workflows keep their names and
their calls, in their places and with their arguments in front, whatever is connected. -/
theorem program_isExtendedBy_of_connect {g after : Graph} {touched : Touched}
    {source target : String} {sourceHandle targetHandle : Option String}
    (h : (Edit.connect source target sourceHandle targetHandle).apply g = .ok (touched, after)) :
    g.program.IsExtendedBy after.program :=
  Graph.isExtendedBy_program (Edit.does_of_apply h).isExtendedBy_of_connect

/-- Two actions in a circle. A connection to a third one lets the walk go on, and one from data
gives the first one an argument. -/
theorem program_isExtendedBy_of_connect_circle :
    let action (id label : String) : Node :=
      ⟨id, .action, label, [("actor", .str "AI"), ("inputs", Json.ofStrings ["x"])], none⟩
    let edge (id source target : String) (kind : EdgeKind) : Edge :=
      ⟨id, source, target, kind, "", none, none, []⟩
    let g : Graph :=
      ⟨[action "a" "A", action "b" "B", action "c" "C", ⟨"w", .workflow, "W", [], none⟩,
          ⟨"d", .data, "x", [], none⟩],
        [edge "1" "w" "a" .workflowStart, edge "2" "a" "b" .sequence, edge "3" "b" "a" .sequence]⟩
    let further := { g with edges := g.edges ++ [g.newEdge "b" "c" none none] }
    let supplied := { g with edges := g.edges ++ [g.newEdge "d" "a" (some "data") none] }
    (Edit.connect "b" "c" none none).apply g = .ok (.edge (g.newEdge "b" "c" none none), further) ∧
      g.program.IsExtendedBy further.program ∧
      (Edit.connect "d" "a" (some "data") none).apply g =
        .ok (.edge (g.newEdge "d" "a" (some "data") none), supplied) ∧
      g.program.IsExtendedBy supplied.program ∧
      g.program.workflows = [⟨"W", [.call "A" [], .call "B" []]⟩] ∧
      further.program.workflows = [⟨"W", [.call "A" [], .call "B" [], .call "C" []]⟩] ∧
      supplied.program.workflows =
        [⟨"W", [.call "A" [⟨some "x", .identifier "x"⟩], .call "B" []]⟩] := by
  intro action edge g further supplied
  have hfurther : (Edit.connect "b" "c" none none).apply g =
      .ok (.edge (g.newEdge "b" "c" none none), further) := rfl
  have hsupplied : (Edit.connect "d" "a" (some "data") none).apply g =
      .ok (.edge (g.newEdge "d" "a" (some "data") none), supplied) := rfl
  exact ⟨hfurther, program_isExtendedBy_of_connect hfurther, hsupplied,
    program_isExtendedBy_of_connect hsupplied, by decide +kernel, by decide +kernel,
    by decide +kernel⟩

end RoleFlow
