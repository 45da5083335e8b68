import RoleFlow.Proofs.NodeData

/-!
# Arguments after a trip through the graph

Data reach the node of an action's name along the edges of all actions of that name, in the order
of the program, each only once. The call passes on those that the last of these actions declares.

Results:
* `argumentsOf_actionNode`: the arguments of a call, told by names.
* `elements_workflowOf`: the elements of a workflow whose walk is told by names.
-/

namespace RoleFlow

namespace Program

/-- The inputs that the last action of a name declares. -/
def declaredInputsFor (p : Program) (name : String) : List String :=
  ((p.actionNumber? name).bind fun i => p.actions[i]?).elim [] (·.inputs)

/-- The inputs of the actions of a name that some action puts out. -/
def suppliedInputs (p : Program) (name : String) : List String :=
  (p.actions.filter (·.name == name)).flatMap fun a => a.inputs.filter p.dataNames.contains

/-- The arguments of a call of an action after a trip. -/
def argumentsFor (p : Program) (name : String) : List Argument :=
  ((p.suppliedInputs name).eraseDups.filter (p.declaredInputsFor name).contains).map bindingOf

variable {p : Program} {name : String} {i : Nat} {a : ActionDef}

theorem mem_dataNames_of_supplied {x : String} (h : x ∈ p.suppliedInputs name) :
    x ∈ p.dataNames := by
  obtain ⟨b, -, hx⟩ := List.mem_flatMap.mp h
  exact List.contains_iff_mem.mp (List.mem_filter.mp hx).2

/-! ## Nodes -/

/-- The link that brings data to a node. -/
def inputLink (p : Program) (i : Nat) (name : String) : Link := ⟨.input, p.dataNumber name, i⟩

theorem inputLink_inj {x y : String} (hx : x ∈ p.dataNames)
    (h : p.inputLink i x = p.inputLink i y) : x = y :=
  (List.idxOf_inj hx).mp (Nat.add_left_cancel (congrArg Link.source h))

theorem node?_dataNode {x : String} (hx : x ∈ p.dataNames) :
    p.graph.node? (nodeId (p.dataNumber x)) = some (p.dataNode (p.dataNames.idxOf x) x) := by
  have hmem : p.dataNode (p.dataNames.idxOf x) x ∈ p.graph.nodes := by
    rw [graph_nodes]
    refine List.mem_append_right _ (List.mem_mapIdx.mpr ⟨_, List.idxOf_lt_length_of_mem hx, ?_⟩)
    rw [List.getElem_idxOf]
  exact Graph.node?_of_mem p.nodup_node_ids hmem

theorem dataLabel?_inputLink {x : String} (hx : x ∈ p.dataNames) :
    p.graph.dataLabel? (p.inputLink i x).edge = some x := by
  unfold Graph.dataLabel?
  rw [show (p.inputLink i x).edge.source = nodeId (p.dataNumber x) from rfl, node?_dataNode hx]
  rfl

/-! ## Edges -/

/-- The links of data that end at an action are those of inputs. -/
theorem filter_linkList (hi : i < p.actions.length) :
    (p.linkList.filter fun l => l.target == i && l.kind.kind == .dataFlow) =
      (p.actions.flatMap p.inputLinks).filter (·.target == i) := by
  have hworkflows : ∀ l ∈ (p.workflows.mapIdx p.workflowLinks).flatten,
      ¬ (l.target == i && l.kind.kind == .dataFlow) = true := by
    intro l hl
    rcases kind_of_mem_workflowLinks hl with hkind | hkind
    · simp [hkind, LinkKind.kind]
    · simp [hkind, LinkKind.kind]
  have houtputs : ∀ l ∈ p.actions.flatMap p.outputLinks,
      ¬ (l.target == i && l.kind.kind == .dataFlow) = true := by
    intro l hl h
    obtain ⟨n, x, rfl⟩ := exists_of_mem_outputLinks hl
    have htarget : p.dataNumber x = i := beq_iff_eq.mp (Bool.and_eq_true_iff.mp h).1
    unfold dataNumber dataBase workflowBase roleBase entityBase at htarget
    omega
  have hinputs : ∀ l ∈ p.actions.flatMap p.inputLinks,
      (l.target == i && l.kind.kind == .dataFlow) = (l.target == i) := by
    intro l hl
    obtain ⟨n, x, rfl⟩ := exists_of_mem_inputLinks hl
    exact Bool.and_true _
  have hroles : ∀ l ∈ p.actions.flatMap p.roleLinks,
      ¬ (l.target == i && l.kind.kind == .dataFlow) = true := by
    intro l hl
    obtain ⟨r, n, rfl⟩ := exists_of_mem_roleLinks hl
    simp [LinkKind.kind]
  rw [linkList, List.filter_append, List.filter_append, List.filter_append,
    List.filter_eq_nil_iff.mpr hworkflows, List.filter_eq_nil_iff.mpr houtputs,
    List.filter_congr hinputs, List.filter_eq_nil_iff.mpr hroles, List.nil_append,
    List.nil_append, List.append_nil]

theorem filter_inputLinks (hi : p.actionNumber? name = some i) :
    (p.actions.flatMap p.inputLinks).filter (·.target == i) =
      (p.suppliedInputs name).map (p.inputLink i) := by
  have haction : ∀ b ∈ p.actions, (p.inputLinks b).filter (·.target == i) =
      if b.name == name then (b.inputs.filter p.dataNames.contains).map (p.inputLink i)
      else [] := by
    intro b hb
    obtain ⟨n, hn⟩ := exists_actionNumber? hb
    rw [inputLinks, hn, Option.toList_some, List.flatMap_singleton]
    by_cases hname : b.name = name
    · obtain rfl : n = i := Option.some.inj (hn.symm.trans (hname ▸ hi))
      rw [if_pos (beq_iff_eq.mpr hname)]
      refine List.filter_eq_self.mpr fun l hl => ?_
      obtain ⟨x, -, rfl⟩ := List.mem_map.mp hl
      exact beq_self_eq_true n
    · have hne : n ≠ i := by
        rintro rfl
        exact hname (Option.some.inj ((getElem?_of_lastIndex? hn).symm.trans
          (getElem?_of_lastIndex? hi)))
      rw [if_neg (by simpa using hname)]
      refine List.filter_eq_nil_iff.mpr fun l hl => ?_
      obtain ⟨x, -, rfl⟩ := List.mem_map.mp hl
      simpa using hne
  unfold suppliedInputs
  rw [List.filter_flatMap, List.map_flatMap]
  generalize p.actions = actions at haction
  induction actions with
  | nil => rfl
  | cons b actions ih =>
    obtain ⟨hb, hrest⟩ := List.forall_mem_cons.mp haction
    rw [List.flatMap_cons, hb, ih hrest]
    by_cases hname : b.name = name
    · rw [if_pos (by simpa using hname), List.filter_cons_of_pos (by simpa using hname),
        List.flatMap_cons]
    · rw [if_neg (by simpa using hname), List.filter_cons_of_neg (by simpa using hname),
        List.nil_append]

theorem incoming_actionNode (hi : p.actionNumber? name = some i) :
    p.graph.incoming (nodeId i) (some .dataFlow) =
      (p.suppliedInputs name).eraseDups.map fun x => (p.inputLink i x).edge := by
  have hfilter : (p.linkList.filter fun l => l.target == i && l.kind.kind == .dataFlow) =
      (p.suppliedInputs name).map (p.inputLink i) :=
    (filter_linkList (lt_of_actionNumber? hi)).trans (filter_inputLinks hi)
  unfold Graph.incoming
  rw [graph_edges, List.filter_map]
  simp only [Function.comp_def, Link.edge_target_beq, Link.edge_kind]
  rw [filter_eraseDups, hfilter, ← map_eraseDups, List.map_map]
  · rfl
  · intro x hx y hy h
    exact inputLink_inj (mem_dataNames_of_supplied hx) h

/-! ## Calls -/

theorem argumentsOf_actionNode (hi : p.actionNumber? name = some i) (ha : p.actions[i]? = some a) :
    p.graph.argumentsOf (actionNode i a) = p.argumentsFor name := by
  have hdeclared : p.declaredInputsFor name = a.inputs := by
    rw [declaredInputsFor, hi, Option.bind_some, ha]
    rfl
  unfold Graph.argumentsOf argumentsFor
  rw [show (actionNode i a).id = nodeId i from rfl, incoming_actionNode hi,
    declaredInputs_actionNode, hdeclared, List.filterMap_map, ← List.filterMap_eq_map,
    List.filterMap_filter]
  refine List.filterMap_congr fun x hx => ?_
  simp [dataLabel?_inputLink (mem_dataNames_of_supplied (List.mem_eraseDups.mp hx))]

theorem exists_lastNode?_ownerId (h : p.Defines name) :
    ∃ n, p.graph.lastNode? (p.ownerId name) = some n ∧ n.label = name ∧
      p.graph.argumentsOf n = p.argumentsFor name := by
  obtain ⟨i, hi⟩ := exists_lastIndex? h
  have hget := getElem?_of_lastIndex? hi
  rw [List.getElem?_map] at hget
  obtain ⟨a, ha, hname⟩ := Option.map_eq_some_iff.mp hget
  rw [ownerId_eq hi]
  exact ⟨actionNode i a, lastNode?_action ha, hname, argumentsOf_actionNode hi ha⟩

/-- Told by ids, the elements of a workflow are calls with their arguments. -/
theorem elements_workflowOf {names : List String} {n : Node}
    (hids : p.graph.sequenceIds n.id = names.map p.ownerId) (hnames : ∀ x ∈ names, p.Defines x) :
    (p.graph.workflowOf n).elements = names.map fun x => .call x (p.argumentsFor x) := by
  show ((p.graph.sequenceIds n.id).filterMap p.graph.lastNode?).map _ = _
  rw [hids, List.filterMap_map]
  clear hids
  induction names with
  | nil => rfl
  | cons x names ih =>
    obtain ⟨hx, hnames⟩ := List.forall_mem_cons.mp hnames
    obtain ⟨node, hnode, hlabel, hargs⟩ := exists_lastNode?_ownerId hx
    rw [List.filterMap_cons_some (f := p.graph.lastNode? ∘ p.ownerId) hnode, List.map_cons,
      List.map_cons, ih hnames, hlabel, hargs]

end Program

end RoleFlow
