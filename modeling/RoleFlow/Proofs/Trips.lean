import Mathlib.Data.List.Chain
import Mathlib.Data.List.Nodup
import RoleFlow.Proofs.Nodes
import RoleFlow.Proofs.Walks
import RoleFlow.Source.Parser

/-!
# Workflows after a trip through the graph

Sequence edges belong to no workflow: they lead from action to action, whichever workflows call
these one after the other. So a walk may leave its workflow where another one goes on, and it
may leave its place in a workflow that calls an action again.

Results:
* `isAction_graph_iff`, `leads_graph_iff`: the actions and the sequence edges, told by names.
* `sequenceIds_graph`: the walk of a workflow, told by names.
* `workflows_program_graph`: the workflows after the trip.
-/

namespace RoleFlow

/-- The names that a workflow calls at its top level, in order. -/
def WorkflowDef.callNames (w : WorkflowDef) : List String :=
  w.elements.filterMap Element.calledName?

namespace Program

variable {p : Program}

/-- An action of that name is defined. -/
def Defines (p : Program) (name : String) : Prop := name ∈ p.actions.map (·.name)

instance (name : String) : Decidable (p.Defines name) :=
  inferInstanceAs (Decidable (name ∈ p.actions.map (·.name)))

/-- The id of the node that the name of a defined action stands for. -/
def ownerId (p : Program) (name : String) : String := (p.actionId? name).getD ""

/-- The calls of defined actions that a body begins with. -/
def leadingCalls (p : Program) : List Element → List String
  | .call name _ :: rest => if p.Defines name then name :: p.leadingCalls rest else []
  | _ => []

/-! ## Nodes by their ids -/

theorem lt_of_actionNumber? {name : String} {i : Nat} (h : p.actionNumber? name = some i) :
    i < p.actions.length := by
  have hget := getElem?_of_lastIndex? h
  rw [List.getElem?_map] at hget
  obtain ⟨a, ha, -⟩ := Option.map_eq_some_iff.mp hget
  exact (List.getElem?_eq_some_iff.mp ha).1

theorem ownerId_eq {name : String} {i : Nat} (h : p.actionNumber? name = some i) :
    p.ownerId name = nodeId i := by
  show ((p.actionNumber? name).map nodeId).getD "" = _
  rw [h]
  rfl

theorem ownerId_inj {x y : String} (hy : p.Defines y) (h : p.ownerId x = p.ownerId y) : x = y := by
  obtain ⟨j, hj⟩ := exists_lastIndex? hy
  rw [ownerId_eq hj] at h
  cases hx : p.actionNumber? x with
  | none =>
    have hempty : p.ownerId x = "" := by
      show ((p.actionNumber? x).map nodeId).getD "" = _
      rw [hx]
      rfl
    rw [hempty] at h
    simp [nodeId] at h
  | some i =>
    rw [ownerId_eq hx, nodeId_inj] at h
    subst h
    exact Option.some.inj ((getElem?_of_lastIndex? hx).symm.trans (getElem?_of_lastIndex? hj))

theorem defines_of_actionNumber? {name : String} {i : Nat} (h : p.actionNumber? name = some i) :
    p.Defines name :=
  List.mem_of_getElem? (getElem?_of_lastIndex? h)

theorem node_cases {n : Node} (h : n ∈ p.graph.nodes) :
    (∃ i a, p.actions[i]? = some a ∧ n = actionNode i a) ∨
      ∃ k, p.actions.length ≤ k ∧ n.id = nodeId k ∧ n.kind ≠ .action := by
  rw [graph_nodes] at h
  simp only [List.mem_append, List.mem_mapIdx] at h
  rcases h with (((⟨i, hi, rfl⟩ | ⟨i, hi, rfl⟩) | ⟨i, hi, rfl⟩) | ⟨i, hi, rfl⟩) | ⟨i, hi, rfl⟩
  · exact .inl ⟨i, _, List.getElem?_eq_getElem hi, rfl⟩
  · exact .inr ⟨p.entityBase + i, by unfold entityBase; omega, rfl, by simp [entityNode]⟩
  · exact .inr ⟨p.roleBase + i, by unfold roleBase entityBase; omega, rfl, by simp [roleNode]⟩
  · exact .inr ⟨p.workflowBase + i, by unfold workflowBase roleBase entityBase; omega, rfl,
      by simp [workflowNode]⟩
  · exact .inr ⟨p.dataBase + i, by unfold dataBase workflowBase roleBase entityBase; omega, rfl,
      by simp [dataNode]⟩

theorem lastNode?_action {i : Nat} {a : ActionDef} (h : p.actions[i]? = some a) :
    p.graph.lastNode? (nodeId i) = some (actionNode i a) :=
  Graph.lastNode?_of_mem p.nodup_node_ids (actionNode_mem_nodes h)

theorem isAction_graph_iff {id : String} :
    p.graph.isAction id = true ↔ ∃ i, i < p.actions.length ∧ id = nodeId i := by
  constructor
  · intro h
    obtain ⟨n, hn, hid⟩ : ∃ n ∈ p.graph.nodes, n.id = id ∧ n.kind = .action := by
      unfold Graph.isAction at h
      split at h
      · next n hn =>
        exact ⟨n, List.mem_reverse.mp (List.mem_of_find?_eq_some hn),
          by simpa using List.find?_some hn, by simpa using h⟩
      · cases h
    rcases node_cases hn with ⟨i, a, ha, rfl⟩ | ⟨k, -, -, hk⟩
    · exact ⟨i, (List.getElem?_eq_some_iff.mp ha).1, hid.1.symm⟩
    · exact absurd hid.2 hk
  · rintro ⟨i, hi, rfl⟩
    rw [Graph.isAction, lastNode?_action (List.getElem?_eq_getElem hi)]
    rfl

/-! ## Edges by names -/

theorem leads_graph_iff {source target : String} :
    p.graph.Leads source target ↔ ∃ v ∈ p.workflows, ∃ x y, v.Follows x y ∧
      p.Defines x ∧ p.Defines y ∧ source = p.ownerId x ∧ target = p.ownerId y := by
  constructor
  · rintro ⟨-, e, he, rfl, hkind, rfl⟩
    obtain ⟨link, a, b, hlink, rfl⟩ := mem_graph_edges_iff.mp he
    cases hlink with
    | @sequence a b v x y hv hfollows ha hb =>
      exact ⟨v, hv, x, y, hfollows, defines_of_actionNumber? ha, defines_of_actionNumber? hb,
        (ownerId_eq ha).symm, (ownerId_eq hb).symm⟩
    | _ => cases hkind
  · rintro ⟨v, hv, x, y, hfollows, hx, hy, rfl, rfl⟩
    obtain ⟨a, ha⟩ := exists_lastIndex? hx
    obtain ⟨b, hb⟩ := exists_lastIndex? hy
    rw [ownerId_eq ha, ownerId_eq hb]
    refine ⟨isAction_graph_iff.mpr ⟨b, lt_of_actionNumber? hb, rfl⟩, LinkKind.sequence.edge a b, ?_,
      rfl, rfl, rfl⟩
    exact mem_graph_edges_iff.mpr ⟨_, a, b, .sequence hv hfollows ha hb, rfl⟩

/-- The edges that leave a workflow lead to its first call. -/
theorem edge_of_workflow {i : Nat} {w : WorkflowDef} {e : Edge} (hw : p.workflows[i]? = some w)
    (he : e ∈ p.graph.edges) (hsource : e.source = nodeId (p.workflowBase + i)) :
    ∃ name args rest b, w.elements = .call name args :: rest ∧ p.actionNumber? name = some b ∧
      e.target = nodeId b := by
  have hi : i < p.workflows.length := (List.getElem?_eq_some_iff.mp hw).1
  obtain ⟨link, a, b, hlink, rfl⟩ := mem_graph_edges_iff.mp he
  have ha : a = p.workflowBase + i := nodeId_inj.mp hsource
  cases hlink with
  | @start j b w' name args rest hw' hfirst hb =>
    obtain rfl : j = i := by omega
    obtain rfl : w' = w := Option.some.inj (hw'.symm.trans hw)
    exact ⟨name, args, rest, b, hfirst, hb, rfl⟩
  | sequence _ _ hnumber _ =>
    have := lt_of_actionNumber? hnumber
    unfold workflowBase roleBase entityBase at ha
    omega
  | output _ hnumber _ =>
    have := lt_of_actionNumber? hnumber
    unfold workflowBase roleBase entityBase at ha
    omega
  | input =>
    unfold dataBase at ha
    omega
  | @role a _ _ name _ _ _ _ hrole _ =>
    have hget := getElem?_of_lastIndex? hrole
    have := (List.getElem?_eq_some_iff.mp hget).1
    rw [List.length_map] at this
    unfold workflowBase at ha
    omega

theorem head?_leadingCalls_iff {elements : List Element} {name : String} :
    (p.leadingCalls elements).head? = some name ↔
      (∃ args rest, elements = .call name args :: rest) ∧ p.Defines name := by
  unfold leadingCalls
  split
  · next other args rest =>
    split
    · next hdefines =>
      simp only [List.head?_cons, Option.some.injEq, List.cons.injEq, Element.call.injEq]
      constructor
      · rintro rfl
        exact ⟨⟨args, rest, ⟨rfl, rfl⟩, rfl⟩, hdefines⟩
      · rintro ⟨⟨_, _, ⟨rfl, -⟩, -⟩, -⟩
        rfl
    · next hdefines =>
      refine iff_of_false (by simp) ?_
      rintro ⟨⟨_, _, heq⟩, hname⟩
      cases heq
      exact hdefines hname
  · next hnot =>
    refine iff_of_false (by simp) ?_
    rintro ⟨⟨args, rest, rfl⟩, -⟩
    exact hnot _ _ _ rfl

theorem startOf?_graph {i : Nat} {w : WorkflowDef} (hw : p.workflows[i]? = some w) :
    p.graph.startOf? (nodeId (p.workflowBase + i)) =
      (p.leadingCalls w.elements).head?.map p.ownerId := by
  have htarget : ∀ id, id ∈ (p.graph.outgoing (nodeId (p.workflowBase + i))).map (·.target) →
      ∃ name, (p.leadingCalls w.elements).head? = some name ∧ id = p.ownerId name := by
    intro id hid
    obtain ⟨e, he, rfl⟩ := List.mem_map.mp hid
    obtain ⟨he, hsource⟩ := List.mem_filter.mp he
    obtain ⟨name, args, rest, b, hfirst, hb, htarget⟩ :=
      edge_of_workflow hw he (by simpa using hsource)
    refine ⟨name,
      head?_leadingCalls_iff.mpr ⟨⟨args, rest, hfirst⟩, defines_of_actionNumber? hb⟩, ?_⟩
    rw [htarget, ownerId_eq hb]
  unfold Graph.startOf?
  cases hfind : ((p.graph.outgoing (nodeId (p.workflowBase + i))).map (·.target)).find?
      p.graph.isAction with
  | some id =>
    obtain ⟨name, hname, rfl⟩ := htarget id (List.mem_of_find?_eq_some hfind)
    rw [hname]
    rfl
  | none =>
    cases hhead : (p.leadingCalls w.elements).head? with
    | none => rfl
    | some name =>
      obtain ⟨⟨args, rest, hfirst⟩, hdefines⟩ := head?_leadingCalls_iff.mp hhead
      obtain ⟨b, hb⟩ := exists_lastIndex? hdefines
      have hedge : LinkKind.start.edge (p.workflowBase + i) b ∈ p.graph.edges :=
        mem_graph_edges_iff.mpr ⟨_, _, b, .start hw hfirst hb, rfl⟩
      have hmem : nodeId b ∈ (p.graph.outgoing (nodeId (p.workflowBase + i))).map (·.target) :=
        List.mem_map.mpr ⟨_, List.mem_filter.mpr ⟨hedge, beq_self_eq_true _⟩, rfl⟩
      have haction := isAction_graph_iff.mpr ⟨b, lt_of_actionNumber? hb, rfl⟩
      exact absurd haction (List.find?_eq_none.mp hfind _ hmem)

/-! ## Walks by names -/

/-- What a walk tells of a workflow of the program. -/
structure Tells (p : Program) (w : WorkflowDef) (names : List String) : Prop where
  head : names.head? = (p.leadingCalls w.elements).head?
  defined : ∀ x ∈ names, p.Defines x
  nodup : names.Nodup
  follows : names.IsChain fun x y => ∃ v ∈ p.workflows, v.Follows x y

theorem exists_names {ids : List String} (h : ∀ id ∈ ids, ∃ x, p.Defines x ∧ id = p.ownerId x) :
    ∃ names : List String, ids = names.map p.ownerId ∧ ∀ x ∈ names, p.Defines x := by
  induction ids with
  | nil => exact ⟨[], rfl, by simp⟩
  | cons id ids ih =>
    obtain ⟨x, hx, rfl⟩ := h id (by simp)
    obtain ⟨names, rfl, hnames⟩ := ih fun id hid => h id (List.mem_cons_of_mem _ hid)
    exact ⟨x :: names, rfl, List.forall_mem_cons.mpr ⟨hx, hnames⟩⟩

theorem sequenceIds_graph {i : Nat} {w : WorkflowDef} (hw : p.workflows[i]? = some w) :
    ∃ names : List String, p.graph.sequenceIds (nodeId (p.workflowBase + i)) = names.map p.ownerId ∧
      p.Tells w names := by
  unfold Graph.sequenceIds
  rw [startOf?_graph hw]
  cases hhead : (p.leadingCalls w.elements).head? with
  | none => exact ⟨[], rfl, hhead.symm, by simp, .nil, .nil⟩
  | some first =>
    have hfirst := (head?_leadingCalls_iff.mp hhead).2
    let walk := p.graph.walkFrom [p.ownerId first] (p.ownerId first)
    have hwalk : ∀ id ∈ walk, ∃ x, p.Defines x ∧ id = p.ownerId x := by
      intro id hid
      obtain ⟨source, hleads⟩ := Graph.exists_leads_of_mem_walkFrom hid
      obtain ⟨-, -, -, y, -, -, hy, -, rfl⟩ := leads_graph_iff.mp hleads
      exact ⟨y, hy, rfl⟩
    obtain ⟨names, hnames, hdefined⟩ := exists_names hwalk
    have hall : ∀ x ∈ first :: names, p.Defines x := List.forall_mem_cons.mpr ⟨hfirst, hdefined⟩
    refine ⟨first :: names, congrArg (p.ownerId first :: ·) hnames, hhead.symm, hall, ?_, ?_⟩
    · have hnodup := Graph.nodup_walkFrom p.graph [p.ownerId first] (p.ownerId first)
      have : (p.ownerId first :: walk).Nodup :=
        List.nodup_cons.mpr ⟨fun hmem => hnodup.2 _ hmem (by simp), hnodup.1⟩
      rw [hnames, ← List.map_cons] at this
      exact List.Nodup.of_map p.ownerId this
    · have hchain := Graph.isChain_walkFrom p.graph [p.ownerId first] (p.ownerId first)
      rw [show p.graph.walkFrom _ _ = names.map p.ownerId from hnames, ← List.map_cons,
        List.isChain_map] at hchain
      refine hchain.imp fun x y hleads => ?_
      obtain ⟨v, hv, x', y', hfollows, hx, hy, hsource, htarget⟩ := leads_graph_iff.mp hleads
      rw [ownerId_inj hx hsource, ownerId_inj hy htarget]
      exact ⟨v, hv, hfollows⟩

/-- No action that the workflow begins with is called twice there, or comes before another call
anywhere else in the program than there. -/
def Unmixed (p : Program) (w : WorkflowDef) : Prop :=
  (p.leadingCalls w.elements).Nodup ∧
    ∀ v ∈ p.workflows, ∀ x ∈ p.leadingCalls w.elements, ∀ y, v.Follows x y → p.Defines y →
      [x, y] <:+: p.leadingCalls w.elements

theorem leadingCalls_defined (p : Program) (elements : List Element) :
    ∀ x ∈ p.leadingCalls elements, p.Defines x := by
  fun_induction leadingCalls p elements with
  | case1 name args rest hdefines ih => exact List.forall_mem_cons.mpr ⟨hdefines, ih⟩
  | case2 => simp
  | case3 => simp

theorem leadingCalls_begins (p : Program) (elements : List Element) :
    (p.leadingCalls elements).map some <+: elements.map Element.calledName? := by
  fun_induction leadingCalls p elements with
  | case1 name args rest hdefines ih =>
    rw [List.map_cons, List.map_cons]
    exact (List.prefix_cons_inj _).mpr ih
  | case2 => exact List.nil_prefix
  | case3 => exact List.nil_prefix

theorem follows_of_infix_leadingCalls {w : WorkflowDef} {x y : String}
    (h : [x, y] <:+: p.leadingCalls w.elements) : w.Follows x y :=
  (h.map some).trans (p.leadingCalls_begins w.elements).isInfix

theorem sequenceIds_of_unmixed {i : Nat} {w : WorkflowDef} (hw : p.workflows[i]? = some w)
    (h : p.Unmixed w) :
    p.graph.sequenceIds (nodeId (p.workflowBase + i)) =
      (p.leadingCalls w.elements).map p.ownerId := by
  obtain ⟨hnodup, hunmixed⟩ := h
  have hdefined := p.leadingCalls_defined w.elements
  have hfollows := List.isChain_isInfix (p.leadingCalls w.elements)
  unfold Graph.sequenceIds
  rw [startOf?_graph hw]
  generalize hcalls : p.leadingCalls w.elements = calls at *
  cases calls with
  | nil => rfl
  | cons first rest =>
    have hids : ([] ++ p.ownerId first :: rest.map p.ownerId).Nodup := by
      rw [List.nil_append, ← List.map_cons]
      exact hnodup.map_on fun x hx y hy heq => ownerId_inj (hdefined y hy) heq
    have hleads : (p.ownerId first :: rest.map p.ownerId).IsChain p.graph.Leads := by
      rw [← List.map_cons, List.isChain_map]
      refine hfollows.imp fun x y hnext =>
        leads_graph_iff.mpr ⟨w, List.mem_of_getElem? hw, x, y, ?_⟩
      have hx := hdefined x (hnext.subset (by simp))
      have hy := hdefined y (hnext.subset (by simp))
      rw [← hcalls] at hnext
      exact ⟨follows_of_infix_leadingCalls hnext, hx, hy, rfl, rfl⟩
    refine congrArg (p.ownerId first :: ·) (Graph.walkFrom_eq_of_follows hids (by simp) hleads ?_)
    intro id hid target hlead
    rw [← List.map_cons] at hid ⊢
    obtain ⟨x, hx, rfl⟩ := List.mem_map.mp hid
    obtain ⟨v, hv, x', y, hfollow, hx', hy, hsource, rfl⟩ := leads_graph_iff.mp hlead
    obtain rfl := ownerId_inj hx' hsource
    exact (hunmixed v hv x hx y hfollow hy).map p.ownerId

/-! ## Workflows -/

theorem workflows_program_graph_eq (p : Program) :
    p.graph.program.workflows =
      p.workflows.mapIdx fun i w => p.graph.workflowOf (p.workflowNode i w) := by
  rw [Graph.workflows_program, nodesOfKind_graph]
  show (p.workflows.mapIdx p.workflowNode).map p.graph.workflowOf = _
  rw [List.mapIdx_eq_zipIdx_map, List.mapIdx_eq_zipIdx_map, List.map_map]
  rfl

/-- What a workflow comes to after the trip. -/
structure Retells (p : Program) (w back : WorkflowDef) : Prop where
  name : back.name = w.name
  calls : ∀ element ∈ back.elements, element.calledName?.isSome
  tells : p.Tells w back.callNames
  unmixed : p.Unmixed w → back.callNames = p.leadingCalls w.elements ∧
    back.callNames.Sublist w.callNames

theorem lastNode?_ownerId {name : String} (h : p.Defines name) :
    ∃ n, p.graph.lastNode? (p.ownerId name) = some n ∧ n.label = name := by
  obtain ⟨i, hi⟩ := exists_lastIndex? h
  have hget := getElem?_of_lastIndex? hi
  rw [List.getElem?_map] at hget
  obtain ⟨a, ha, hname⟩ := Option.map_eq_some_iff.mp hget
  rw [ownerId_eq hi]
  exact ⟨actionNode i a, lastNode?_action ha, hname⟩

/-- Told by ids, the calls of a workflow are called by their names. -/
theorem callNames_workflowOf {names : List String} {n : Node}
    (hids : p.graph.sequenceIds n.id = names.map p.ownerId)
    (hnames : ∀ x ∈ names, p.Defines x) : (p.graph.workflowOf n).callNames = names := by
  unfold Graph.workflowOf Graph.sequencePath WorkflowDef.callNames
  rw [hids, List.filterMap_map]
  show List.filterMap (fun action : Node => some action.label) _ = _
  clear hids
  induction names with
  | nil => rfl
  | cons x names ih =>
    obtain ⟨hx, hnames⟩ := List.forall_mem_cons.mp hnames
    obtain ⟨node, hnode, hlabel⟩ := lastNode?_ownerId hx
    rw [List.map_cons, List.filterMap_cons_some hnode, List.filterMap_cons, ih hnames, hlabel]

theorem leadingCalls_sublist (p : Program) (w : WorkflowDef) :
    (p.leadingCalls w.elements).Sublist w.callNames := by
  have h := (p.leadingCalls_begins w.elements).sublist.filterMap id
  rw [List.filterMap_map, List.filterMap_map] at h
  simpa [WorkflowDef.callNames, Function.comp_def] using h

theorem retells_workflowOf {i : Nat} {w : WorkflowDef} (hw : p.workflows[i]? = some w) :
    p.Retells w (p.graph.workflowOf (p.workflowNode i w)) := by
  obtain ⟨names, hids, htells⟩ := sequenceIds_graph hw
  have hnames : (p.graph.workflowOf (p.workflowNode i w)).callNames = names :=
    callNames_workflowOf hids htells.defined
  refine ⟨rfl, ?_, hnames ▸ htells, fun hunmixed => ?_⟩
  · intro element helement
    obtain ⟨action, -, rfl⟩ := List.mem_map.mp helement
    rfl
  · have hleading : (p.graph.workflowOf (p.workflowNode i w)).callNames =
        p.leadingCalls w.elements :=
      callNames_workflowOf (sequenceIds_of_unmixed hw hunmixed) (p.leadingCalls_defined w.elements)
    rw [hleading]
    exact ⟨rfl, p.leadingCalls_sublist w⟩

/-- After the trip every workflow has its name and calls actions only. What it calls are the
actions of a walk: its first call, and then calls that follow each other in some workflow of the
program, none of them twice. If the calls that the workflow begins with are not mixed up with
others, they are what is left. -/
theorem workflows_program_graph (p : Program) :
    List.Forall₂ p.Retells p.workflows p.graph.program.workflows := by
  rw [workflows_program_graph_eq, List.forall₂_iff_get]
  refine ⟨(List.length_mapIdx).symm, fun i hi hi' => ?_⟩
  rw [List.get_eq_getElem, List.get_eq_getElem, List.getElem_mapIdx]
  exact retells_workflowOf (List.getElem?_eq_getElem hi)

/-- A walk leaves its workflow where another workflow goes on. -/
theorem trip_leaves_workflow :
    let document := "action A by AI \x7b\x7d action B by AI \x7b\x7d " ++
      "workflow V \x7b A; B; \x7d workflow W \x7b A; \x7d"
    ∃ p, (parse document).value = .ok p ∧
      p.workflows.map WorkflowDef.callNames = [["A", "B"], ["A"]] ∧
      p.graph.program.workflows.map WorkflowDef.callNames = [["A", "B"], ["A", "B"]] ∧
      ¬ ["A", "B"].Sublist ["A"] := by
  intro document
  let p : Program :=
    ⟨[⟨"A", .ai, none, [], "", [], []⟩, ⟨"B", .ai, none, [], "", [], []⟩], [], [],
      [⟨"V", [.call "A" [], .call "B" []]⟩, ⟨"W", [.call "A" []]⟩]⟩
  exact ⟨p, parse_of_toOption (by decide +kernel), by decide +kernel, by decide +kernel, by decide⟩

end Program

end RoleFlow
