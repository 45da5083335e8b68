import RoleFlow.Proofs.ReadBack
import RoleFlow.Proofs.References

/-!
# Clean graphs

A graph is clean if what its nodes tell can be written down: labels and names are words, and
descriptions stand in quotes as they are. Edges may join any nodes: a call has the label of an
action and passes on inputs that the action declares, however the walk comes to it.

Results:
* `isClean_graph`: the graph of a program is clean if the program can be written down.
* `parse_text_of_isClean`: the text of a clean graph is read as the program of the graph.
-/

namespace RoleFlow

/-- A text that is read as it was after it is written in quotes as it is. -/
def IsCleanText (s : String) : Prop := IsTidy s ∧ IsQuotable s ∧ IsSingleSpaced s

instance (s : String) : Decidable (IsCleanText s) := inferInstanceAs (Decidable (_ ∧ _))

/-- A word that is read as an identifier. -/
def IsDataName (s : String) : Prop := IsWord s ∧ s ≠ "true" ∧ s ≠ "false"

instance (s : String) : Decidable (IsDataName s) := inferInstanceAs (Decidable (_ ∧ _))

/-- What the node tells can be written down. -/
structure Node.IsClean (n : Node) : Prop where
  label : IsWord n.label
  called : n.kind = .action → n.label ≠ "if"
  description : IsCleanText n.description
  roleName : ∀ name ∈ n.performer.2, IsWord name
  typedNames : ∀ member ∈ ["parameters", "attributes"], ∀ noun owner,
    ∀ t ∈ (typedNamesOf noun owner (n.data.get? member)).value, t.WellFormed
  inputs : ∀ name ∈ n.declaredInputs, IsDataName name
  outputs : ∀ name ∈ n.declaredOutputs, IsWord name

/-- What the nodes tell can be written down. -/
def Graph.IsClean (g : Graph) : Prop := ∀ n ∈ g.nodes, n.IsClean

/-! ## Graphs of programs -/

namespace Program

variable {p : Program}

theorem isClean_actionNode {a : ActionDef} (h : a.WellFormed) (hif : a.name ≠ "if")
    (hinputs : ∀ x ∈ a.inputs, x ≠ "true" ∧ x ≠ "false")
    (hdescription : IsQuotable a.description ∧ IsSingleSpaced a.description) (i : Nat) :
    (actionNode i a).IsClean where
  label := h.name
  called _ := hif
  description := by
    rw [description_actionNode]
    exact ⟨h.description, hdescription⟩
  roleName name hname := by
    rw [performer_actionNode] at hname
    dsimp only at hname
    split at hname
    · next hactor =>
      obtain ⟨role, hrole⟩ := Option.isSome_iff_exists.mp (h.role.mp hactor)
      rw [hrole] at hname
      cases hname
      exact h.roleName role hrole
    · cases hname
  typedNames member hmember noun owner := by
    rcases List.mem_pair.mp hmember with rfl | rfl
    · rw [parameters_actionNode]
      exact h.parameters
    · intro t ht
      cases ht
  inputs := by
    rw [declaredInputs_actionNode]
    exact fun x hx => ⟨h.inputs x hx, hinputs x hx⟩
  outputs := by
    rw [declaredOutputs_actionNode]
    exact h.outputs

/-- A node that tells nothing of what only actions have. -/
theorem isClean_of_plain {n : Node} (hlabel : IsWord n.label) (hkind : n.kind ≠ .action)
    (hdata : ∀ member ∈ ["actor", "inputs", "outputs", "parameters"], n.data.get? member = none)
    (hdescription : IsCleanText n.description)
    (hattributes : ∀ noun owner,
      ∀ t ∈ (typedNamesOf noun owner (n.data.get? "attributes")).value, t.WellFormed) :
    n.IsClean where
  label := hlabel
  called h := absurd h hkind
  description := hdescription
  roleName name hname := by
    have hnone : n.performer = (.human, none) := by
      rw [Node.performer, hdata "actor" (by simp)]
      decide
    rw [hnone] at hname
    cases hname
  typedNames member hmember noun owner := by
    rcases List.mem_pair.mp hmember with rfl | rfl
    · rw [hdata "parameters" (by simp)]
      intro t ht
      cases ht
    · exact hattributes noun owner
  inputs name hname := by
    rw [Node.declaredInputs, hdata "inputs" (by simp)] at hname
    cases hname
  outputs name hname := by
    rw [Node.declaredOutputs, hdata "outputs" (by simp)] at hname
    cases hname

/-- The graph of a program is clean if the program can be written down as it is. -/
theorem isClean_graph (h : p.WellFormed)
    (hdescriptions : ∀ d ∈ p.descriptions, IsQuotable d ∧ IsSingleSpaced d)
    (hnames : ∀ a ∈ p.actions, a.name ≠ "if" ∧ ∀ x ∈ a.inputs, x ≠ "true" ∧ x ≠ "false") :
    p.graph.IsClean := by
  have hempty : IsCleanText "" := by decide
  have hnone : ∀ noun owner, ∀ t ∈ (typedNamesOf noun owner none).value, t.WellFormed := by
    intro noun owner t ht
    cases ht
  intro n hn
  rw [graph_nodes] at hn
  simp only [List.mem_append, List.mem_mapIdx] at hn
  rcases hn with (((⟨i, hi, rfl⟩ | ⟨i, hi, rfl⟩) | ⟨i, hi, rfl⟩) | ⟨i, hi, rfl⟩) | ⟨i, hi, rfl⟩
  · have ha := List.getElem_mem hi
    obtain ⟨hif, hinputs⟩ := hnames _ ha
    have hdescription := hdescriptions p.actions[i].description
      (List.mem_append_right _ (List.mem_map_of_mem ha))
    exact isClean_actionNode (h.actions _ ha) hif hinputs hdescription i
  · have he := h.entities _ (List.getElem_mem hi)
    refine isClean_of_plain he.name (by simp [entityNode])
      (by simp [entityNode, EntityDef.nodeData, Fields.get?]) hempty fun noun owner => ?_
    rw [attributes_entityNode]
    exact he.attributes
  · have hr := List.getElem_mem hi
    have hdescription := hdescriptions p.roles[i].description
      (List.mem_append_left _ (List.mem_map_of_mem hr))
    refine isClean_of_plain (h.roles _ hr).name (by simp [roleNode])
      (by simp [roleNode, RoleDef.nodeData, Fields.get?]) ?_ hnone
    rw [description_roleNode]
    exact ⟨(h.roles _ hr).description, hdescription⟩
  · have hw := h.workflows _ (List.getElem_mem hi)
    exact isClean_of_plain hw.name (by simp [workflowNode])
      (by simp [workflowNode, WorkflowDef.nodeData, Fields.get?]) hempty hnone
  · obtain ⟨a, ha, houtput⟩ := mem_dataNames_iff.mp (List.getElem_mem hi)
    exact isClean_of_plain ((h.actions a ha).outputs _ houtput) (by simp [dataNode])
      (by simp [dataNode, Fields.get?]) hempty hnone

end Program

/-! ## Definitions of clean nodes -/

/-- An actor with the name of a role is a role, and only that. -/
theorem Node.performer_role (n : Node) : n.performer.1 = .role ↔ n.performer.2.isSome := by
  unfold performer actorOfText?
  split
  · exact iff_of_true rfl rfl
  · split
    · exact iff_of_false (by decide) (by decide)
    · split
      · exact iff_of_false (by decide) (by decide)
      · exact iff_of_false (by decide) (by decide)

namespace Node.IsClean

variable {n : Node}

theorem action (h : n.IsClean) : n.action.value.WellFormed := by
  rw [action_value]
  exact ⟨h.label, n.performer_role, h.roleName, h.typedNames "parameters" (by simp) _ _,
    h.description.1, fun name hname => (h.inputs name hname).1, h.outputs⟩

theorem entity (h : n.IsClean) : n.entity.value.WellFormed :=
  ⟨h.label, h.typedNames "attributes" (by simp) "attribute" n.label⟩

theorem role (h : n.IsClean) : n.role.WellFormed := by
  refine ⟨h.label, h.description.1, ?_⟩
  unfold Node.role
  dsimp only
  split
  · split
    · decide
    · split
      · decide
      · decide
  · decide

end Node.IsClean

/-! ## Workflows of clean graphs -/

namespace Graph

variable {g : Graph}

/-- What stands in the workflows of a clean graph. -/
theorem exists_of_mem_elements {workflow : Node} {element : Element} (h : g.IsClean)
    (helement : element ∈ (g.workflowOf workflow).elements) :
    ∃ name args, element = .call name args ∧ (IsWord name ∧ name ≠ "if") ∧
      ∀ a ∈ args, ∃ x, IsDataName x ∧ a = bindingOf x := by
  obtain ⟨n, hn, hkind, rfl⟩ := exists_of_mem_workflowOf helement
  have hclean := h n hn
  refine ⟨n.label, g.argumentsOf n, rfl, ⟨hclean.label, hclean.called hkind⟩, fun a ha => ?_⟩
  obtain ⟨x, hx, rfl, -⟩ := exists_of_mem_argumentsOf ha
  exact ⟨x, hclean.inputs x hx, rfl⟩

end Graph

/-- A body of calls that pass on data by name is read as it was. -/
structure PassesOn (elements : List Element) : Prop where
  wellFormed : Element.WellFormedList elements
  noDanglingElse : Element.NoDanglingElseList elements
  arguments : ∀ e ∈ Element.argumentsList elements, e.Settled
  conditions : Element.conditionsList elements = []

theorem passesOn_of_forall {elements : List Element}
    (h : ∀ element ∈ elements, ∃ name args, element = .call name args ∧
      (IsWord name ∧ name ≠ "if") ∧ ∀ a ∈ args, ∃ x, IsDataName x ∧ a = bindingOf x) :
    PassesOn elements := by
  induction elements with
  | nil => exact ⟨trivial, trivial, by simp [Element.argumentsList], rfl⟩
  | cons element elements ih =>
    obtain ⟨⟨name, args, rfl, ⟨hword, hif⟩, hargs⟩, hrest⟩ := List.forall_mem_cons.mp h
    have hmore := ih hrest
    have hwellFormed : ∀ a ∈ args, a.WellFormed := by
      intro a ha
      obtain ⟨x, hx, rfl⟩ := hargs a ha
      refine ⟨fun name hname => ?_, hx⟩
      cases hname
      exact hx.1
    refine ⟨⟨⟨hword, hif, hwellFormed⟩, hmore.wellFormed⟩, ⟨trivial, hmore.noDanglingElse, ?_⟩, ?_,
      hmore.conditions⟩
    · intro condition thenBody heq
      cases heq
    · intro e he
      rcases List.mem_append.mp he with he | he
      · obtain ⟨a, ha, rfl⟩ := List.mem_map.mp he
        obtain ⟨x, -, rfl⟩ := hargs a ha
        trivial
      · exact hmore.arguments e he

/-! ## Programs of clean graphs -/

namespace Graph

variable {g : Graph}

theorem passesOn_of_mem_workflows (h : g.IsClean) {w : WorkflowDef}
    (hw : w ∈ g.program.workflows) : PassesOn w.elements := by
  rw [workflows_program] at hw
  obtain ⟨n, -, rfl⟩ := List.mem_map.mp hw
  exact passesOn_of_forall fun element => exists_of_mem_elements h

theorem wellFormed_program (h : g.IsClean) : g.program.WellFormed := by
  have hclean : ∀ {kind : NodeKind}, ∀ n ∈ g.nodesOfKind kind, n.IsClean :=
    fun n hn => h n (List.mem_filter.mp hn).1
  refine ⟨fun a ha => ?_, fun e he => ?_, fun r hr => ?_, fun w hw => ?_⟩
  · rw [actions_program] at ha
    obtain ⟨n, hn, rfl⟩ := List.mem_map.mp ha
    exact (hclean n hn).action
  · rw [entities_program] at he
    obtain ⟨n, hn, rfl⟩ := List.mem_map.mp he
    exact (hclean n hn).entity
  · rw [roles_program] at hr
    obtain ⟨n, hn, rfl⟩ := List.mem_map.mp hr
    exact (hclean n hn).role
  · have helements := (passesOn_of_mem_workflows h hw).wellFormed
    rw [workflows_program] at hw
    obtain ⟨n, hn, rfl⟩ := List.mem_map.mp hw
    exact ⟨(hclean n hn).label, helements⟩

theorem descriptions_program (h : g.IsClean) : ∀ d ∈ g.program.descriptions, IsCleanText d := by
  intro d hd
  rcases List.mem_append.mp hd with hd | hd
  · obtain ⟨r, hr, rfl⟩ := List.mem_map.mp hd
    rw [roles_program] at hr
    obtain ⟨n, hn, rfl⟩ := List.mem_map.mp hr
    exact (h n (List.mem_filter.mp hn).1).description
  · obtain ⟨a, ha, rfl⟩ := List.mem_map.mp hd
    rw [actions_program] at ha
    obtain ⟨n, hn, rfl⟩ := List.mem_map.mp ha
    show IsCleanText n.action.value.description
    rw [Node.action_value]
    exact (h n (List.mem_filter.mp hn).1).description

/-- The text of a clean graph is read as the program of the graph. -/
theorem parse_text_of_isClean (h : g.IsClean) :
    (parse g.text.value).value = .ok g.program := by
  have hwellFormed := wellFormed_program h
  have hdescriptions := descriptions_program h
  have helse : g.program.NoDanglingElse := fun w hw =>
    (passesOn_of_mem_workflows h hw).noDanglingElse
  have hargs : ∀ e ∈ g.program.arguments, e.Settled := by
    intro e he
    obtain ⟨w, hw, he⟩ := List.mem_flatMap.mp he
    exact (passesOn_of_mem_workflows h hw).arguments e he
  have hconditions : ∀ e ∈ g.program.conditions, e.Settled := by
    intro e he
    obtain ⟨w, hw, he⟩ := List.mem_flatMap.mp he
    rw [(passesOn_of_mem_workflows h hw).conditions] at he
    cases he
  have hread := parse_render hwellFormed helse (fun d hd => (hdescriptions d hd).2.1)
    (fun e he => commentFree_of_settled (hargs e he))
    fun e he => commentFree_of_settled (hconditions e he)
  rwa [reread_program hwellFormed (fun d hd => (hdescriptions d hd).2.2) hargs hconditions] at hread

end Graph

end RoleFlow
