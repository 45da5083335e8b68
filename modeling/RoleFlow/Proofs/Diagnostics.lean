import RoleFlow.Proofs.NodeData
import RoleFlow.Proofs.Warnings

/-!
# The log of graph construction accounts for the graph

What a record is about is told by its first words. Read like this, the log of graph construction
has a record for every node and every edge of the graph, in their order, one for every reference to
a name that nobody defines, and at the end one for the size. An edge that is called for again is
not told of.

Main definitions:
* `Record.subject?`: what a record is about.
* `Program.references`: what a program refers to by name, in the order of the passes.
* `Program.Dangles`: the references to names that nobody defines.

Results:
* `subject?_of_opening`: no two subjects share their first words.
* `skips_eq`: the references that are skipped.
* `build_accounts`: the log of graph construction.
-/

namespace RoleFlow

/-! ## Subjects of records -/

/-- What a record of graph construction is about. -/
inductive Subject where
  | node
  | edge
  | skip
  | size
  deriving DecidableEq

/-- How records begin, and what they are about. -/
def openings : List (String × Subject) :=
  [NodeKind.action, .entity, .role, .workflow, .data].map
    (fun kind => ("Added " ++ kind.name ++ " node ", .node)) ++
  [EdgeKind.workflowStart, .sequence, .dataFlow, .rolePerformance].map
    (fun kind => ("Added " ++ kind.name ++ " edge ", .edge)) ++
  [("Skipped: ", .skip), ("Built graph with ", .size)]

/-- What a record is about, told by how it begins. -/
def Record.subject? (r : Record) : Option Subject :=
  (openings.find? fun opening => opening.1.toList.isPrefixOf r.message.toList).map (·.2)

/-- Where one record can begin in two ways, these are the same. -/
theorem openings_incomparable : ∀ opening ∈ openings, ∀ other ∈ openings,
    opening.1.toList <+: other.1.toList → opening = other := by
  decide +kernel

theorem subject?_of_opening {r : Record} {opening : String × Subject}
    (hopening : opening ∈ openings)
    (h : opening.1.toList <+: r.message.toList) : r.subject? = some opening.2 := by
  have hfound : openings.find? (fun opening => opening.1.toList.isPrefixOf r.message.toList) =
      some opening := by
    cases hother : openings.find? fun opening => opening.1.toList.isPrefixOf r.message.toList with
    | none =>
      exact absurd (List.isPrefixOf_iff_prefix.mpr h) (List.find?_eq_none.mp hother _ hopening)
    | some other =>
      have hmem := List.mem_of_find?_eq_some hother
      have hprefix : other.1.toList <+: r.message.toList :=
        List.isPrefixOf_iff_prefix.mp (List.find?_some (p := fun opening : String × Subject =>
          opening.1.toList.isPrefixOf r.message.toList) hother)
      rcases List.prefix_or_prefix_of_prefix h hprefix with hle | hle
      · rw [openings_incomparable _ hopening _ hmem hle]
      · rw [openings_incomparable _ hmem _ hopening hle]
  rw [Record.subject?, hfound]
  rfl

theorem subject?_sizeRecord (g : Graph) : (Program.sizeRecord g).subject? = some .size := by
  have hopening : ("Built graph with ", .size) ∈ openings := by decide
  refine subject?_of_opening hopening ?_
  simp only [Program.sizeRecord, String.append_assoc, String.toList_append]
  exact List.prefix_append _ _

namespace BuildStep

/-- What a step is about. -/
def subject : BuildStep → Subject
  | .node _ => .node
  | .edge _ => .edge
  | .skip _ => .skip

theorem subject?_record (step : BuildStep) : step.record.subject? = some step.subject := by
  cases step with
  | node n =>
    have hopening : ("Added " ++ n.kind.name ++ " node ", .node) ∈ openings := by
      cases n.kind <;> decide
    refine subject?_of_opening hopening ?_
    simp only [record, String.append_assoc, String.toList_append, List.prefix_append_right_inj]
    exact List.prefix_append _ _
  | edge e =>
    have hopening : ("Added " ++ e.kind.name ++ " edge ", .edge) ∈ openings := by
      cases e.kind <;> decide
    refine subject?_of_opening hopening ?_
    simp only [record, String.append_assoc, String.toList_append, List.prefix_append_right_inj]
    exact List.prefix_append _ _
  | skip s =>
    have hopening : ("Skipped: ", .skip) ∈ openings := by decide
    refine subject?_of_opening hopening ?_
    simp only [record, String.toList_append]
    exact List.prefix_append _ _

/-- The records about a subject are those of the steps that are about it. -/
theorem filter_records {α : Type} (part? : BuildStep → Option α) (make : α → BuildStep)
    {about : Subject} (habout : ∀ step, (part? step).isSome = (step.subject == about))
    (hmake : ∀ step a, part? step = some a → make a = step) (steps : List BuildStep) :
    (steps.map record).filter (·.subject? = some about) =
      (steps.filterMap part?).map fun a => (make a).record := by
  induction steps with
  | nil => rfl
  | cons step steps ih =>
    have hsubject : step.record.subject? = some about ↔ (part? step).isSome := by
      rw [subject?_record, habout, beq_iff_eq, Option.some_inj]
    rw [List.map_cons]
    cases h : part? step with
    | none =>
      rw [List.filter_cons_of_neg (by simp [hsubject, h]), ih, List.filterMap_cons_none h]
    | some a =>
      rw [List.filter_cons_of_pos (by simp [hsubject, h]), ih, List.filterMap_cons_some h,
        List.map_cons, hmake step a h]

end BuildStep

/-! ## References -/

namespace Program

/-- The reference to the action that a workflow starts with. -/
def startReferences (w : WorkflowDef) : List Skip :=
  match w.elements with
  | .call name _ :: _ => [.start w.name name]
  | _ => []

/-- The reference of two calls that follow each other. -/
def pairReferences : Element × Element → List Skip
  | (.call current _, .call following _) => [.sequence current following]
  | _ => []

/-- The reference to the role that performs an action, if one is named. -/
def roleReferences (a : ActionDef) : List Skip :=
  match a.actor, a.roleName with
  | .role, some role => if role.isEmpty then [] else [.role a.name role]
  | _, _ => []

/-- What a program refers to by name, in the order of the passes: the starts and the sequences of
workflows, the inputs and the roles of actions. -/
def references (p : Program) : List Skip :=
  (p.workflows.flatMap fun w =>
    startReferences w ++ (w.elements.zip w.elements.tail).flatMap pairReferences) ++
  (p.actions.flatMap fun a => a.inputs.map fun name => .input name a.name) ++
  p.actions.flatMap roleReferences

/-- A reference meets a name that nobody defines: no action or role has it, or no action puts out
data of this name. -/
def Dangles (p : Program) : Skip → Prop
  | .start _ action => action ∉ p.actions.map (·.name)
  | .sequence source target =>
    source ∉ p.actions.map (·.name) ∨ target ∉ p.actions.map (·.name)
  | .input name _ => name ∉ p.actions.flatMap (·.outputs)
  | .role _ name => name ∉ p.roles.map (·.name)

instance (p : Program) : DecidablePred p.Dangles
  | .start _ _ => inferInstanceAs (Decidable (_ ∉ _))
  | .sequence _ _ => inferInstanceAs (Decidable (_ ∉ _ ∨ _ ∉ _))
  | .input _ _ => inferInstanceAs (Decidable (_ ∉ _))
  | .role _ _ => inferInstanceAs (Decidable (_ ∉ _))

variable {p : Program}

theorem skip?_startSteps (id : String) (w : WorkflowDef) :
    (p.startSteps id w).filterMap BuildStep.skip? = (startReferences w).filter p.Dangles := by
  rw [startSteps, startReferences]
  rcases w.elements with _ | ⟨⟨name, args⟩ | _, rest⟩
  · rfl
  · have hdangles : p.Dangles (.start w.name name) ↔ p.actionId? name = none :=
      actionId?_eq_none_iff.symm
    simp only [List.filter_singleton, hdangles]
    cases p.actionId? name <;> rfl
  · rfl

theorem skip?_pairSteps (pair : Element × Element) :
    (p.pairSteps pair).filterMap BuildStep.skip? = (pairReferences pair).filter p.Dangles := by
  obtain ⟨⟨current, _⟩ | _, ⟨following, _⟩ | _⟩ := pair
  · have hdangles : p.Dangles (.sequence current following) ↔
        p.actionId? current = none ∨ p.actionId? following = none :=
      (or_congr actionId?_eq_none_iff actionId?_eq_none_iff).symm
    simp only [pairSteps, pairReferences, List.filter_singleton, hdangles]
    cases p.actionId? current <;> cases p.actionId? following <;> rfl
  · rfl
  · rfl
  · rfl

theorem skip?_workflowSteps (id : String) (w : WorkflowDef) :
    (p.workflowSteps id w).filterMap BuildStep.skip? =
      (startReferences w ++ (w.elements.zip w.elements.tail).flatMap pairReferences).filter
        p.Dangles := by
  rw [workflowSteps, List.cons_append, List.filterMap_cons_none rfl, List.filterMap_append,
    List.filter_append, skip?_startSteps, List.filterMap_flatMap, List.filter_flatMap]
  simp only [skip?_pairSteps]

theorem skip?_inputSteps (id action : String) (inputs : List String) :
    (inputs.map (p.inputStep p.dataNames id action)).filterMap BuildStep.skip? =
      (inputs.map fun name => .input name action).filter p.Dangles := by
  have hdangles : ∀ name, p.Dangles (.input name action) ↔ ¬ p.dataNames.contains name = true := by
    intro name
    rw [List.contains_iff_mem, dataNames_eq, List.mem_eraseDups]
    exact Iff.rfl
  induction inputs with
  | nil => rfl
  | cons name inputs ih =>
    rw [List.map_cons, List.map_cons, inputStep]
    by_cases h : p.dataNames.contains name = true
    · rw [if_pos h, List.filterMap_cons_none rfl, ih, List.filter_cons_of_neg]
      simpa [hdangles] using h
    · have hskip : (BuildStep.skip (.input name action)).skip? = some (.input name action) := rfl
      rw [if_neg h, List.filterMap_cons_some hskip, ih, List.filter_cons_of_pos]
      simpa [hdangles] using h

theorem skip?_roleSteps (id : String) (a : ActionDef) :
    (p.roleSteps id a).filterMap BuildStep.skip? = (roleReferences a).filter p.Dangles := by
  rw [roleSteps, roleReferences]
  rcases a.actor with _ | _ | _
  · rfl
  · rfl
  rcases a.roleName with _ | role
  · rfl
  have hdangles : p.Dangles (.role a.name role) ↔ p.roleId? role = none := by
    rw [roleId?, Option.map_eq_none_iff, lastIndex?_eq_none_iff]
    exact Iff.rfl
  dsimp only
  split
  · rfl
  · simp only [List.filter_singleton, hdangles]
    cases p.roleId? role <;> rfl

theorem skip?_of_notMem {steps : List BuildStep} (h : ∀ s, .skip s ∉ steps) :
    steps.filterMap BuildStep.skip? = [] := by
  refine List.filterMap_eq_nil_iff.mpr fun step hstep => ?_
  cases step with
  | skip s => exact absurd hstep (h s)
  | _ => rfl

/-- What is skipped are the references to names that nobody defines, in the order of the passes. -/
theorem skips_eq (p : Program) : p.skips = p.references.filter p.Dangles := by
  have hnodes : ∀ {α : Type} {id : Nat → String} {kind : NodeKind} {label : α → String}
      {data : α → Fields} {xs : List α},
      (xs.mapIdx fun i x => nodeStep (id i) kind (label x) (data x)).filterMap
        BuildStep.skip? = [] :=
    skip?_of_notMem fun _ => skip_notMem_nodes
  have houtputs : ∀ names outputs, (p.outputSteps names outputs).filterMap BuildStep.skip? = [] :=
    fun names outputs => skip?_of_notMem fun _ => skip_notMem_outputSteps
  have hworkflows : (p.workflows.mapIdx fun i w =>
      p.workflowSteps (nodeId (p.workflowBase + i)) w).flatten.filterMap BuildStep.skip? =
      (p.workflows.flatMap fun w => startReferences w ++
        (w.elements.zip w.elements.tail).flatMap pairReferences).filter p.Dangles := by
    rw [List.filterMap_flatten, map_mapIdx_of_forall _ _ fun i w => skip?_workflowSteps _ w,
      ← List.flatMap_def, List.filter_flatMap]
  have hinputs : (p.inputSteps p.dataNames p.ownedActions).filterMap BuildStep.skip? =
      (p.actions.flatMap fun a => a.inputs.map fun name => .input name a.name).filter
        p.Dangles := by
    rw [inputSteps, ownedActions, List.flatMap_map, List.filterMap_flatMap, List.filter_flatMap]
    simp only [skip?_inputSteps]
  have hroles : (p.ownedActions.flatMap fun x => p.roleSteps x.1 x.2).filterMap
      BuildStep.skip? = (p.actions.flatMap roleReferences).filter p.Dangles := by
    rw [ownedActions, List.flatMap_map, List.filterMap_flatMap, List.filter_flatMap]
    simp only [skip?_roleSteps]
  rw [skips, steps, BuildStep.filterMap_dropRepeated fun _ => rfl, allSteps, references]
  simp only [List.filterMap_append, List.filter_append, hnodes, houtputs, hworkflows, hinputs,
    hroles, List.nil_append, List.append_nil]

/-- What is logged about nodes, edges or skips is logged by the steps. -/
theorem filter_records_build (p : Program) {about : Subject} (h : about ≠ .size) :
    (p.build true).records.filter (·.subject? = some about) =
      (p.steps.map BuildStep.record).filter (·.subject? = some about) := by
  have hsize : (Program.sizeRecord p.graph).subject? ≠ some about := by
    rw [subject?_sizeRecord]
    exact fun hsame => h (Option.some.inj hsame).symm
  rw [records_build, List.filter_append, List.filter_singleton, decide_eq_false hsize]
  exact List.append_nil _

end Program

/-- The log of graph construction accounts for the graph.

* The graph is the same with a log and without, and nothing is logged where no log is wanted.
* There is a record for every node and every edge of the graph, in their order.
* There is a record for every reference to a name that nobody defines, in the order of the passes.
* The last record, and no other, tells the size of the graph. There are no other records. -/
theorem build_accounts (p : Program) :
    (p.build true).value = (p.build false).value ∧ (p.build false).records = [] ∧
    (p.build true).records.filter (·.subject? = some .node) =
      (p.build true).value.nodes.map (fun n => ⟨.debug, .converter,
        "Added " ++ n.kind.name ++ " node " ++ n.id ++ " (" ++ n.label ++ ")"⟩) ∧
    (p.build true).records.filter (·.subject? = some .edge) =
      (p.build true).value.edges.map (fun e => ⟨.debug, .converter,
        "Added " ++ e.kind.name ++ " edge " ++ e.source ++ " -> " ++ e.target ++
          " (" ++ e.label ++ ")"⟩) ∧
    (p.build true).records.filter (·.subject? = some .skip) =
      (p.references.filter p.Dangles).map (fun s => ⟨.debug, .converter,
        "Skipped: " ++ s.message⟩) ∧
    (∃ log, (p.build true).records = log ++ [⟨.debug, .converter,
        "Built graph with " ++ digitsOf (p.build true).value.nodes.length ++ " nodes and " ++
          digitsOf (p.build true).value.edges.length ++ " edges"⟩] ∧
      ∀ r ∈ log, r.subject? = some .node ∨ r.subject? = some .edge ∨ r.subject? = some .skip) := by
  simp only [Program.value_build]
  refine ⟨trivial, p.records_build_false, ?nodes, ?edges, ?skips, p.steps.map BuildStep.record,
    p.records_build, ?subjects⟩
  case nodes =>
    rw [p.filter_records_build (by decide)]
    refine BuildStep.filter_records BuildStep.node? .node ?_ ?_ p.steps
    · rintro (_ | _ | _) <;> rfl
    · rintro (_ | _ | _) a ⟨⟩
      rfl
  case edges =>
    rw [p.filter_records_build (by decide)]
    refine BuildStep.filter_records BuildStep.edge? .edge ?_ ?_ p.steps
    · rintro (_ | _ | _) <;> rfl
    · rintro (_ | _ | _) a ⟨⟩
      rfl
  case skips =>
    rw [p.filter_records_build (by decide), ← Program.skips_eq]
    refine BuildStep.filter_records BuildStep.skip? .skip ?_ ?_ p.steps
    · rintro (_ | _ | _) <;> rfl
    · rintro (_ | _ | _) a ⟨⟩
      rfl
  case subjects =>
    intro r hr
    obtain ⟨step, -, rfl⟩ := List.mem_map.mp hr
    rw [BuildStep.subject?_record]
    cases step <;> simp [BuildStep.subject]

-- the step from `A` to `A` is told of once, and nobody defines `C`
example :
    let p : Program := ⟨[⟨"A", .ai, none, [], "", [], []⟩], [], [],
      [⟨"W", [.call "A" [], .call "A" [], .call "A" [], .call "C" []]⟩]⟩
    (p.build true).records.map (·.message) =
      ["Added action node node_0 (A)", "Added workflow node node_1 (W)",
        "Added workflowStart edge node_1 -> node_0 (starts with)",
        "Added sequence edge node_0 -> node_0 (next)",
        "Skipped: sequence A -> C references an unknown action",
        "Built graph with 2 nodes and 2 edges"] := by
  decide +kernel

end RoleFlow
