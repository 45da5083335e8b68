import RoleFlow.Proofs.Links
import RoleFlow.Proofs.Trips

/-!
# The nodes and edges that make up a graph

Where an edge begins and ends is told by kinds and names: each of its ends is the last node of its
kind and name, but an edge that starts a workflow leaves that workflow's own node.

Results:
* `owner?_action`, `owner?_role`, `owner?_data`: the numbers of the last nodes.
* `graph_contents`: the nodes, and the edges, each of which is there once.
-/

namespace RoleFlow

/-- The id of the last node of a kind and a label. -/
def Graph.owner? (g : Graph) (kind : NodeKind) (label : String) : Option String :=
  (g.nodes.reverse.find? fun n => n.kind == kind && n.label == label).map (·.id)

theorem LinkKind.label_inj {link link' : LinkKind} (h : link.label = link'.label) :
    link = link' := by
  cases link <;> cases link' <;> first | rfl | exact absurd h (by decide)

namespace Program

/-- What an edge of the graph says: its kind, its label, and the ids of its ends. Nobody performs an
action by an empty role name. -/
inductive Joins (p : Program) : EdgeKind → String → String → String → Prop
  | start {i : Nat} {w : WorkflowDef} {n : Node} {name target : String} {args : List Argument}
    {rest : List Element} (hw : p.workflows[i]? = some w)
    (hn : (p.graph.nodesOfKind .workflow)[i]? = some n)
    (hfirst : w.elements = .call name args :: rest)
    (htarget : p.graph.owner? .action name = some target) :
    Joins p .workflowStart "starts with" n.id target
  | sequence {w : WorkflowDef} {x y source target : String} (hw : w ∈ p.workflows)
    (hfollows : w.Follows x y) (hsource : p.graph.owner? .action x = some source)
    (htarget : p.graph.owner? .action y = some target) : Joins p .sequence "next" source target
  | output {action : ActionDef} {name source target : String} (haction : action ∈ p.actions)
    (hname : name ∈ action.outputs) (hsource : p.graph.owner? .action action.name = some source)
    (htarget : p.graph.owner? .data name = some target) :
    Joins p .dataFlow "produces" source target
  | input {action : ActionDef} {name source target : String} (haction : action ∈ p.actions)
    (hname : name ∈ action.inputs) (hsource : p.graph.owner? .data name = some source)
    (htarget : p.graph.owner? .action action.name = some target) :
    Joins p .dataFlow "used by" source target
  | role {action : ActionDef} {name source target : String} (haction : action ∈ p.actions)
    (hactor : action.actor = .role) (hname : action.roleName = some name) (hempty : name ≠ "")
    (hsource : p.graph.owner? .role name = some source)
    (htarget : p.graph.owner? .action action.name = some target) :
    Joins p .rolePerformance "performs" source target

variable {p : Program}

/-! ## Owners -/

theorem owner?_eq (g : Graph) (kind : NodeKind) (label : String) :
    g.owner? kind label = ((g.nodesOfKind kind).reverse.find? (·.label == label)).map (·.id) := by
  rw [Graph.owner?, Graph.nodesOfKind, ← List.filter_reverse, List.find?_filter]
  simp only [Bool.decide_and, Bool.decide_eq_true]

theorem owner?_action (p : Program) (name : String) :
    p.graph.owner? .action name = (p.actionNumber? name).map nodeId := by
  rw [owner?_eq, nodesOfKind_graph, numbers_action.last]
  simp only [Nat.zero_add]
  rfl

theorem owner?_role (p : Program) (name : String) :
    p.graph.owner? .role name =
      (lastIndex? name (p.roles.map (·.name))).map fun i => nodeId (p.roleBase + i) := by
  rw [owner?_eq, nodesOfKind_graph, p.numbers_role.last]

/-- Where no name is repeated, the last place of a name is its first. -/
theorem lastIndex?_of_nodup {name : String} {names : List String} (h : names.Nodup) :
    lastIndex? name names = if name ∈ names then some (names.idxOf name) else none := by
  induction names with
  | nil => rfl
  | cons other names ih =>
    obtain ⟨hnot, hnodup⟩ := List.nodup_cons.mp h
    rw [lastIndex?, ih hnodup]
    by_cases hmem : name ∈ names
    · have hne : other ≠ name := fun heq => hnot (heq ▸ hmem)
      simp [hmem, List.idxOf_cons_ne _ hne]
    · by_cases heq : other = name
      · simp [heq, hmem]
      · simp [heq, hmem, Ne.symm heq]

theorem nodup_dataNames (p : Program) : p.dataNames.Nodup := by
  rw [dataNames_eq]
  exact nodup_eraseDups _

theorem owner?_data (p : Program) (name : String) :
    p.graph.owner? .data name =
      if name ∈ p.dataNames then some (nodeId (p.dataNumber name)) else none := by
  rw [owner?_eq, nodesOfKind_graph, p.numbers_data.last, List.map_id,
    lastIndex?_of_nodup p.nodup_dataNames]
  split
  · rfl
  · rfl

theorem owner?_action_eq_some {name id : String} :
    p.graph.owner? .action name = some id ↔
      ∃ a, p.actionNumber? name = some a ∧ nodeId a = id := by
  rw [owner?_action, Option.map_eq_some_iff]

theorem owner?_role_eq_some {name id : String} :
    p.graph.owner? .role name = some id ↔
      ∃ i, lastIndex? name (p.roles.map (·.name)) = some i ∧ nodeId (p.roleBase + i) = id := by
  rw [owner?_role, Option.map_eq_some_iff]

theorem owner?_data_eq_some {name id : String} :
    p.graph.owner? .data name = some id ↔
      name ∈ p.dataNames ∧ nodeId (p.dataNumber name) = id := by
  rw [owner?_data]
  simp

/-! ## Edges -/

/-- What a link joins is told by kinds, labels and owners. -/
theorem Links.joins {link : LinkKind} {a b : Nat} (h : p.Links link a b) :
    p.Joins link.kind link.label (nodeId a) (nodeId b) := by
  cases h with
  | @start i b w name args rest hw hfirst hb =>
    have hn : (p.graph.nodesOfKind .workflow)[i]? = some (p.workflowNode i w) := by
      rw [nodesOfKind_graph, List.getElem?_mapIdx, hw]
      rfl
    exact .start hw hn hfirst (owner?_action_eq_some.mpr ⟨b, hb, rfl⟩)
  | sequence hw hfollows ha hb =>
    exact .sequence hw hfollows (owner?_action_eq_some.mpr ⟨_, ha, rfl⟩)
      (owner?_action_eq_some.mpr ⟨_, hb, rfl⟩)
  | @output a action name haction ha hname =>
    have hdata : name ∈ p.dataNames := mem_dataNames_iff.mpr ⟨action, haction, hname⟩
    exact .output haction hname (owner?_action_eq_some.mpr ⟨a, ha, rfl⟩)
      (owner?_data_eq_some.mpr ⟨hdata, rfl⟩)
  | input haction hb hname hdata =>
    exact .input haction hname (owner?_data_eq_some.mpr ⟨hdata, rfl⟩)
      (owner?_action_eq_some.mpr ⟨_, hb, rfl⟩)
  | role haction hactor hname hempty ha hb =>
    exact .role haction hactor hname hempty (owner?_role_eq_some.mpr ⟨_, ha, rfl⟩)
      (owner?_action_eq_some.mpr ⟨_, hb, rfl⟩)

/-- What kinds, labels and owners tell is a link between the numbers of the owners. -/
theorem Joins.exists_links {kind : EdgeKind} {label source target : String}
    (h : p.Joins kind label source target) :
    ∃ link a b, p.Links link a b ∧ link.kind = kind ∧ link.label = label ∧
      nodeId a = source ∧ nodeId b = target := by
  cases h with
  | @start i w n _ _ args rest hw hn hfirst htarget =>
    obtain ⟨b, hb, rfl⟩ := owner?_action_eq_some.mp htarget
    rw [nodesOfKind_graph, List.getElem?_mapIdx, hw] at hn
    cases hn
    exact ⟨_, _, b, .start hw hfirst hb, rfl, rfl, rfl, rfl⟩
  | sequence hw hfollows hsource htarget =>
    obtain ⟨a, ha, rfl⟩ := owner?_action_eq_some.mp hsource
    obtain ⟨b, hb, rfl⟩ := owner?_action_eq_some.mp htarget
    exact ⟨_, a, b, .sequence hw hfollows ha hb, rfl, rfl, rfl, rfl⟩
  | output haction hname hsource htarget =>
    obtain ⟨a, ha, rfl⟩ := owner?_action_eq_some.mp hsource
    obtain ⟨-, rfl⟩ := owner?_data_eq_some.mp htarget
    exact ⟨_, a, _, .output haction ha hname, rfl, rfl, rfl, rfl⟩
  | input haction hname hsource htarget =>
    obtain ⟨hdata, rfl⟩ := owner?_data_eq_some.mp hsource
    obtain ⟨b, hb, rfl⟩ := owner?_action_eq_some.mp htarget
    exact ⟨_, _, b, .input haction hb hname hdata, rfl, rfl, rfl, rfl⟩
  | role haction hactor hname hempty hsource htarget =>
    obtain ⟨i, hi, rfl⟩ := owner?_role_eq_some.mp hsource
    obtain ⟨b, hb, rfl⟩ := owner?_action_eq_some.mp htarget
    exact ⟨_, _, b, .role haction hactor hname hempty hi hb, rfl, rfl, rfl, rfl⟩

/-- The edges of the graph are told by kinds, labels and owners. -/
theorem exists_edge_iff_joins {kind : EdgeKind} {label source target : String} :
    (∃ e ∈ p.graph.edges, e.kind = kind ∧ e.label = label ∧ e.source = source ∧
      e.target = target) ↔ p.Joins kind label source target := by
  constructor
  · rintro ⟨e, he, rfl, rfl, rfl, rfl⟩
    obtain ⟨link, a, b, hlink, rfl⟩ := mem_graph_edges_iff.mp he
    exact hlink.joins
  · intro h
    obtain ⟨link, a, b, hlink, rfl, rfl, rfl, rfl⟩ := h.exists_links
    exact ⟨link.edge a b, mem_graph_edges_iff.mpr ⟨link, a, b, hlink, rfl⟩, rfl, rfl, rfl, rfl⟩

/-- Label and ends tell an edge of the graph. -/
theorem eq_of_same_ends {e e' : Edge} (he : e ∈ p.graph.edges) (he' : e' ∈ p.graph.edges)
    (hlabel : e.label = e'.label) (hsource : e.source = e'.source)
    (htarget : e.target = e'.target) : e = e' := by
  obtain ⟨link, a, b, -, rfl⟩ := mem_graph_edges_iff.mp he
  obtain ⟨link', a', b', -, rfl⟩ := mem_graph_edges_iff.mp he'
  obtain rfl : a = a' := nodeId_inj.mp hsource
  obtain rfl : b = b' := nodeId_inj.mp htarget
  obtain rfl : link = link' := LinkKind.label_inj hlabel
  rfl

theorem countP_le_one {α : Type} {q : α → Bool} {xs : List α} (hnodup : xs.Nodup)
    (hq : ∀ x ∈ xs, ∀ y ∈ xs, q x = true → q y = true → x = y) : xs.countP q ≤ 1 := by
  rw [List.countP_eq_length_filter]
  have hnodup' := hnodup.filter q
  cases hfilter : xs.filter q with
  | nil => exact Nat.zero_le _
  | cons x rest =>
    cases rest with
    | nil => exact Nat.le_refl _
    | cons y rest =>
      have hmem : ∀ z ∈ x :: y :: rest, z ∈ xs ∧ q z = true := fun z hz =>
        List.mem_filter.mp (hfilter ▸ hz)
      obtain ⟨hx, hqx⟩ := hmem x (by simp)
      obtain ⟨hy, hqy⟩ := hmem y (by simp)
      rw [hfilter] at hnodup'
      exact absurd (hq x hx y hy hqx hqy ▸ List.mem_cons_self) (List.nodup_cons.mp hnodup').1

/-- The graph of a program: its nodes are numbered in order, and have the kinds and labels of the
definitions, kind by kind, and of the data that actions put out. No two edges have one id, and
there is one edge for whatever the program joins, and no other. -/
theorem graph_contents (p : Program) :
    (∀ i n, p.graph.nodes[i]? = some n → n.id = "node_" ++ digitsOf i) ∧
    p.graph.nodes.map (fun n => (n.kind, n.label)) =
      p.actions.map (fun a => (NodeKind.action, a.name)) ++
        p.entities.map (fun e => (NodeKind.entity, e.name)) ++
        p.roles.map (fun r => (NodeKind.role, r.name)) ++
        p.workflows.map (fun w => (NodeKind.workflow, w.name)) ++
        (p.actions.flatMap (·.outputs)).eraseDups.map (fun name => (NodeKind.data, name)) ∧
    (p.graph.edges.map (·.id)).Nodup ∧
    ∀ kind label source target,
      let count := p.graph.edges.countP fun e =>
        e.kind = kind ∧ e.label = label ∧ e.source = source ∧ e.target = target
      count ≤ 1 ∧ (count = 1 ↔ p.Joins kind label source target) := by
  refine ⟨fun i n hn => ?_, p.nodes_labels, p.nodup_edge_ids, fun kind label source target => ?_⟩
  · have hi : i < p.graph.nodes.length := (List.getElem?_eq_some_iff.mp hn).1
    have hid := congrArg (fun ids : List String => ids[i]?) p.nodes_ids
    simp only [List.getElem?_map, hn, List.getElem?_range hi, Option.map_some] at hid
    exact Option.some.inj hid
  · intro count
    have hle : count ≤ 1 := by
      refine countP_le_one p.nodup_edge_ids.of_map fun e he e' he' h h' => ?_
      obtain ⟨-, hlabel, hsource, htarget⟩ := of_decide_eq_true h
      obtain ⟨-, hlabel', hsource', htarget'⟩ := of_decide_eq_true h'
      exact eq_of_same_ends he he' (hlabel.trans hlabel'.symm) (hsource.trans hsource'.symm)
        (htarget.trans htarget'.symm)
    have hpos : 0 < count ↔ p.Joins kind label source target := by
      rw [← exists_edge_iff_joins, List.countP_pos_iff]
      simp only [decide_eq_true_eq]
    refine ⟨hle, ?_⟩
    rw [← hpos]
    omega

end Program

end RoleFlow
