import Mathlib.Data.List.Nodup
import RoleFlow.Proofs.Building

/-!
# The links of a program in order

A step of laying out a graph that adds an edge tells a link: its kind and the numbers of two nodes.
The graph has an edge for every link, in the order in which the links are told first.

Results:
* `graph_edges`: the edges of the graph, in order.
* `nodup_edge_ids`: no two of them have one id.
-/

namespace RoleFlow

/-! ## First occurrences -/

section FirstOccurrences

variable {α β : Type} [BEq α]

/-- Induction on a list whose tail loses what equals the head. -/
theorem firstsInduction {motive : List α → Prop} (nil : motive [])
    (cons : ∀ x xs, motive (xs.filter fun y => !y == x) → motive (x :: xs)) :
    ∀ xs, motive xs
  | [] => nil
  | x :: xs => cons x xs (firstsInduction nil cons _)
termination_by xs => xs.length
decreasing_by exact Nat.lt_succ_of_le (List.length_filter_le _ _)

variable [LawfulBEq α] [BEq β] [LawfulBEq β]

theorem nodup_eraseDups (xs : List α) : xs.eraseDups.Nodup := by
  induction xs using firstsInduction with
  | nil => exact List.nodup_nil
  | cons x xs ih =>
    rw [List.eraseDups_cons]
    refine List.nodup_cons.mpr ⟨fun hmem => ?_, ih⟩
    simpa using (List.mem_filter.mp (List.mem_eraseDups.mp hmem)).2

theorem filter_eraseDups (p : α → Bool) (xs : List α) :
    xs.eraseDups.filter p = (xs.filter p).eraseDups := by
  induction xs using firstsInduction with
  | nil => rfl
  | cons x xs ih =>
    rw [List.eraseDups_cons]
    by_cases hx : p x = true
    · rw [List.filter_cons_of_pos hx, List.filter_cons_of_pos hx, ih, List.eraseDups_cons,
        List.filter_comm]
    · rw [List.filter_cons_of_neg hx, List.filter_cons_of_neg hx, ih, List.filter_filter]
      congr 1
      refine List.filter_congr fun y _ => ?_
      by_cases hy : y = x
      · rw [hy, Bool.eq_false_iff.mpr hx, Bool.false_and]
      · simp [hy]

theorem find?_eraseDups (p : α → Bool) (xs : List α) : xs.eraseDups.find? p = xs.find? p := by
  rw [← List.head?_filter, ← List.head?_filter, filter_eraseDups]
  cases xs.filter p with
  | nil => rfl
  | cons y ys => rw [List.eraseDups_cons, List.head?_cons, List.head?_cons]

theorem map_eraseDups {f : α → β} {xs : List α} (hf : ∀ x ∈ xs, ∀ y ∈ xs, f x = f y → x = y) :
    xs.eraseDups.map f = (xs.map f).eraseDups := by
  induction xs using firstsInduction with
  | nil => rfl
  | cons x xs ih =>
    have hrest : ((xs.map f).filter fun z => !z == f x) = (xs.filter fun y => !y == x).map f := by
      rw [List.filter_map]
      congr 1
      refine List.filter_congr fun y hy => ?_
      have : f y = f x ↔ y = x :=
        ⟨hf y (List.mem_cons_of_mem _ hy) x List.mem_cons_self, fun h => h ▸ rfl⟩
      simp [this]
    rw [List.eraseDups_cons, List.map_cons, List.map_cons, List.eraseDups_cons, hrest, ih]
    intro y hy z hz
    exact hf y (List.mem_cons_of_mem _ (List.mem_filter.mp hy).1) z
      (List.mem_cons_of_mem _ (List.mem_filter.mp hz).1)

end FirstOccurrences

/-- Adding names one by one keeps their first occurrences. -/
theorem foldl_addNew (names more : List String) :
    more.foldl addNew names = names ++ (more.filter fun x => !names.contains x).eraseDups := by
  induction more generalizing names with
  | nil => simp
  | cons name more ih =>
    rw [List.foldl_cons, ih]
    by_cases h : name ∈ names
    · rw [Program.addNew_of_mem h, List.filter_cons_of_neg (by simpa using h)]
    · rw [Program.addNew_of_notMem h, List.filter_cons_of_pos (by simpa using h),
        List.eraseDups_cons, List.filter_filter, List.append_assoc]
      have hfilter : (more.filter fun x => !(names ++ [name]).contains x) =
          more.filter fun x => !x == name && !names.contains x := by
        refine List.filter_congr fun x _ => ?_
        by_cases hx : x = name
        · simp [hx]
        · simp [hx]
      rw [hfilter, List.singleton_append]

theorem Program.dataNames_eq (p : Program) :
    p.dataNames = (p.actions.flatMap (·.outputs)).eraseDups := by
  rw [dataNames, foldl_addNew]
  simp

theorem Program.mem_dataNames_iff {p : Program} {name : String} :
    name ∈ p.dataNames ↔ ∃ a ∈ p.actions, name ∈ a.outputs := by
  rw [dataNames_eq, List.mem_eraseDups, List.mem_flatMap]

/-! ## Links -/

deriving instance DecidableEq for LinkKind

/-- A link from one numbered node to another. -/
structure Link where
  kind : LinkKind
  source : Nat
  target : Nat
  deriving DecidableEq

/-- The edge of a link. -/
def Link.edge (l : Link) : Edge := l.kind.edge l.source l.target

theorem Link.edge_id_inj {l l' : Link} : l.edge.id = l'.edge.id ↔ l = l' := by
  constructor
  · intro h
    obtain ⟨hkind, hsource, htarget⟩ := LinkKind.edge_inj h
    cases l
    cases l'
    cases hkind
    cases hsource
    cases htarget
    rfl
  · rintro rfl
    rfl

@[simp] theorem Link.edge_source_beq (l : Link) (i : Nat) :
    (l.edge.source == nodeId i) = (l.source == i) := by
  rw [Bool.eq_iff_iff, beq_iff_eq, beq_iff_eq]
  exact nodeId_inj

@[simp] theorem Link.edge_target_beq (l : Link) (i : Nat) :
    (l.edge.target == nodeId i) = (l.target == i) := by
  rw [Bool.eq_iff_iff, beq_iff_eq, beq_iff_eq]
  exact nodeId_inj

@[simp] theorem Link.edge_kind (l : Link) : l.edge.kind = l.kind.kind := rfl

/-- Of several edges of one id the first is kept. -/
theorem BuildStep.edges_dropRepeated {ids : List String} {steps : List BuildStep}
    {links : List Link} (h : steps.filterMap edge? = links.map Link.edge) :
    (dropRepeated ids steps).filterMap edge? =
      ((links.filter fun l => !ids.contains l.edge.id).eraseDups).map Link.edge := by
  fun_induction dropRepeated ids steps generalizing links with
  | case1 =>
    cases links with
    | nil => rfl
    | cons l links => cases h
  | case2 ids e steps hid ih =>
    cases links with
    | nil => cases h
    | cons l links =>
      obtain ⟨rfl, hrest⟩ := List.cons.inj h
      rw [List.filter_cons_of_neg (by simpa using hid), ih hrest]
  | case3 ids e steps hid ih =>
    cases links with
    | nil => cases h
    | cons l links =>
      obtain ⟨rfl, hrest⟩ := List.cons.inj h
      rw [List.filter_cons_of_pos (by simpa using hid), List.eraseDups_cons, List.map_cons,
        List.filterMap_cons_some (f := edge?) rfl, ih hrest, List.filter_filter]
      congr 3
      refine List.filter_congr fun l' _ => ?_
      by_cases hl : l' = l
      · simp [hl]
      · simp [hl, Link.edge_id_inj]
  | case4 ids step steps hedge ih =>
    have hnone : step.edge? = none := by
      cases step with
      | edge e => exact absurd rfl (hedge e)
      | _ => rfl
    rw [List.filterMap_cons_none hnone] at h ⊢
    exact ih h

namespace Program

variable {p : Program}

/-- The number of the node of data. -/
def dataNumber (p : Program) (name : String) : Nat := p.dataBase + p.dataNames.idxOf name

/-- The number of the action that an element calls. -/
def calledNumber? (p : Program) (element : Element) : Option Nat :=
  element.calledName?.bind p.actionNumber?

/-- The link to the action that a workflow begins with. -/
def startLinks (p : Program) (i : Nat) (w : WorkflowDef) : List Link :=
  (w.elements.head?.bind p.calledNumber?).toList.map (Link.mk .start (p.workflowBase + i))

/-- The link between two calls that follow each other. -/
def pairLinks (p : Program) (pair : Element × Element) : List Link :=
  match p.calledNumber? pair.1, p.calledNumber? pair.2 with
  | some a, some b => [⟨.sequence, a, b⟩]
  | _, _ => []

/-- The links of a workflow. -/
def workflowLinks (p : Program) (i : Nat) (w : WorkflowDef) : List Link :=
  p.startLinks i w ++ (w.elements.zip w.elements.tail).flatMap p.pairLinks

/-- The links from an action to what it puts out. -/
def outputLinks (p : Program) (a : ActionDef) : List Link :=
  (p.actionNumber? a.name).toList.flatMap fun n =>
    a.outputs.map fun name => ⟨.output, n, p.dataNumber name⟩

/-- The links to an action from those of its inputs that some action puts out. -/
def inputLinks (p : Program) (a : ActionDef) : List Link :=
  (p.actionNumber? a.name).toList.flatMap fun n =>
    (a.inputs.filter p.dataNames.contains).map fun name => ⟨.input, p.dataNumber name, n⟩

/-- The number of the role that performs an action. -/
def performer? (p : Program) (a : ActionDef) : Option Nat :=
  match a.actor, a.roleName with
  | .role, some role =>
    if role.isEmpty then none else lastIndex? role (p.roles.map (·.name))
  | _, _ => none

/-- The link to an action from the role that performs it. -/
def roleLinks (p : Program) (a : ActionDef) : List Link :=
  (p.actionNumber? a.name).toList.flatMap fun n =>
    (p.performer? a).toList.map fun r => ⟨.role, p.roleBase + r, n⟩

/-- The links of the program as they are told, some of them perhaps several times. -/
def linkList (p : Program) : List Link :=
  (p.workflows.mapIdx p.workflowLinks).flatten ++ p.actions.flatMap p.outputLinks ++
    p.actions.flatMap p.inputLinks ++ p.actions.flatMap p.roleLinks

theorem kind_of_mem_workflowLinks {l : Link}
    (h : l ∈ (p.workflows.mapIdx p.workflowLinks).flatten) :
    l.kind = .start ∨ l.kind = .sequence := by
  obtain ⟨links, hlinks, hl⟩ := List.mem_flatten.mp h
  obtain ⟨i, hi, rfl⟩ := List.mem_mapIdx.mp hlinks
  rcases List.mem_append.mp hl with hl | hl
  · obtain ⟨n, -, rfl⟩ := List.mem_map.mp hl
    exact .inl rfl
  · obtain ⟨pair, -, hl⟩ := List.mem_flatMap.mp hl
    unfold pairLinks at hl
    split at hl
    · cases List.mem_singleton.mp hl
      exact .inr rfl
    · cases hl

theorem exists_of_mem_outputLinks {l : Link} (h : l ∈ p.actions.flatMap p.outputLinks) :
    ∃ n name, l = ⟨.output, n, p.dataNumber name⟩ := by
  obtain ⟨a, -, hl⟩ := List.mem_flatMap.mp h
  obtain ⟨n, -, hl⟩ := List.mem_flatMap.mp hl
  obtain ⟨name, -, rfl⟩ := List.mem_map.mp hl
  exact ⟨n, name, rfl⟩

theorem exists_of_mem_inputLinks {l : Link} (h : l ∈ p.actions.flatMap p.inputLinks) :
    ∃ n name, l = ⟨.input, p.dataNumber name, n⟩ := by
  obtain ⟨a, -, hl⟩ := List.mem_flatMap.mp h
  obtain ⟨n, -, hl⟩ := List.mem_flatMap.mp hl
  obtain ⟨name, -, rfl⟩ := List.mem_map.mp hl
  exact ⟨n, name, rfl⟩

theorem exists_of_mem_roleLinks {l : Link} (h : l ∈ p.actions.flatMap p.roleLinks) :
    ∃ r n, l = ⟨.role, p.roleBase + r, n⟩ := by
  obtain ⟨a, -, hl⟩ := List.mem_flatMap.mp h
  obtain ⟨n, -, hl⟩ := List.mem_flatMap.mp hl
  obtain ⟨r, -, rfl⟩ := List.mem_map.mp hl
  exact ⟨r, n, rfl⟩

/-! ## The edges of the steps -/

theorem edges_nodes {α : Type} (step : Nat → α → Node) (xs : List α) :
    (xs.mapIdx fun i x => BuildStep.node (step i x)).filterMap BuildStep.edge? = [] := by
  refine List.filterMap_eq_nil_iff.mpr fun s hs => ?_
  obtain ⟨i, hi, rfl⟩ := List.mem_mapIdx.mp hs
  rfl

theorem edges_startSteps (i : Nat) (w : WorkflowDef) :
    (p.startSteps (nodeId (p.workflowBase + i)) w).filterMap BuildStep.edge? =
      (p.startLinks i w).map Link.edge := by
  unfold startSteps startLinks
  cases w.elements with
  | nil => rfl
  | cons element rest =>
    cases element with
    | decision => rfl
    | call name args =>
      have hid : p.actionId? name = (p.actionNumber? name).map nodeId := rfl
      simp only [hid, List.head?_cons, Option.bind_some, calledNumber?, Element.calledName?]
      cases p.actionNumber? name with
      | none => rfl
      | some b => rfl

theorem edges_pairSteps (pair : Element × Element) :
    (p.pairSteps pair).filterMap BuildStep.edge? = (p.pairLinks pair).map Link.edge := by
  obtain ⟨x, y⟩ := pair
  unfold pairSteps pairLinks calledNumber?
  cases x with
  | decision => rfl
  | call current args =>
    cases y with
    | decision => cases (Element.call current args).calledName?.bind p.actionNumber? <;> rfl
    | call following args' =>
      have hsource : p.actionId? current = (p.actionNumber? current).map nodeId := rfl
      have htarget : p.actionId? following = (p.actionNumber? following).map nodeId := rfl
      simp only [hsource, htarget, Element.calledName?, Option.bind_some]
      cases p.actionNumber? current with
      | none => rfl
      | some a =>
        cases p.actionNumber? following with
        | none => rfl
        | some b => rfl

theorem edges_workflowSteps (i : Nat) (w : WorkflowDef) :
    (p.workflowSteps (nodeId (p.workflowBase + i)) w).filterMap BuildStep.edge? =
      (p.workflowLinks i w).map Link.edge := by
  rw [workflowSteps, workflowLinks, List.cons_append, List.filterMap_cons_none rfl,
    List.filterMap_append, edges_startSteps, List.filterMap_flatMap, List.map_append,
    List.map_flatMap]
  simp only [edges_pairSteps]

theorem edges_outputSteps (names : List String) (outputs : List (Nat × String)) :
    (p.outputSteps names (outputs.map fun output => (nodeId output.1, output.2))).filterMap
        BuildStep.edge? =
      outputs.map fun output => LinkKind.output.edge output.1
        (p.dataBase + ((outputs.map Prod.snd).foldl addNew names).idxOf output.2) := by
  induction outputs generalizing names with
  | nil => rfl
  | cons output outputs ih =>
    obtain ⟨n, name⟩ := output
    have hidx : ((outputs.map Prod.snd).foldl addNew (addNew names name)).idxOf name =
        (addNew names name).idxOf name :=
      idxOf_of_begins (mem_addNew names name) (prefix_foldl_addNew _ _)
    have hnode : ∀ id : String, (if names.contains name then [] else
        [nodeStep id .data name []]).filterMap BuildStep.edge? = [] := by
      intro id
      split
      · rfl
      · rfl
    rw [List.map_cons, outputSteps, List.filterMap_append, hnode, List.nil_append,
      List.filterMap_cons_some (f := BuildStep.edge?) rfl, ih]
    simp only [List.map_cons, List.foldl_cons, hidx]
    rfl

theorem ownedActions_eq (p : Program) :
    p.ownedActions = p.actions.flatMap fun a =>
      (p.actionNumber? a.name).toList.map fun n => (nodeId n, a) := by
  rw [ownedActions, List.map_eq_flatMap, List.flatMap_def, List.flatMap_def]
  congr 1
  refine List.map_congr_left fun a ha => ?_
  obtain ⟨n, hn⟩ := exists_actionNumber? ha
  rw [show p.actionId? a.name = some (nodeId n) from congrArg (Option.map nodeId) hn, hn]
  rfl

theorem edges_allOutputs (p : Program) :
    (p.outputSteps [] (p.ownedActions.flatMap fun (id, a) => a.outputs.map (id, ·))).filterMap
      BuildStep.edge? = (p.actions.flatMap p.outputLinks).map Link.edge := by
  have houtputs : (p.ownedActions.flatMap fun (id, a) => a.outputs.map (id, ·)) =
      (p.actions.flatMap fun a => (p.actionNumber? a.name).toList.flatMap fun n =>
        a.outputs.map (n, ·)).map fun output => (nodeId output.1, output.2) := by
    rw [ownedActions_eq]
    simp [List.flatMap_assoc, List.map_flatMap, List.flatMap_map, Function.comp_def]
  have hnames := p.ownedOutputs_names
  rw [houtputs, List.map_map] at hnames
  change (List.map Prod.snd _).foldl addNew [] = p.dataNames at hnames
  rw [houtputs, edges_outputSteps, hnames]
  simp [outputLinks, List.map_flatMap, Function.comp_def, Link.edge, dataNumber]

theorem edges_allInputs (p : Program) :
    (p.inputSteps p.dataNames p.ownedActions).filterMap BuildStep.edge? =
      (p.actions.flatMap p.inputLinks).map Link.edge := by
  have hinputs : ∀ (a : ActionDef) (n : Nat),
      (a.inputs.map (p.inputStep p.dataNames (nodeId n) a.name)).filterMap BuildStep.edge? =
        (a.inputs.filter p.dataNames.contains).map fun name =>
          LinkKind.input.edge (p.dataNumber name) n := by
    intro a n
    induction a.inputs with
    | nil => rfl
    | cons name inputs ih =>
      by_cases h : p.dataNames.contains name = true
      · rw [List.map_cons, inputStep, if_pos h,
          List.filterMap_cons_some (f := BuildStep.edge?) rfl, ih, List.filter_cons_of_pos h]
        rfl
      · rw [List.map_cons, inputStep, if_neg h, List.filterMap_cons_none rfl, ih,
          List.filter_cons_of_neg h]
  rw [inputSteps, ownedActions_eq]
  simp only [List.flatMap_assoc, List.flatMap_map, List.filterMap_flatMap, hinputs,
    List.map_flatMap, inputLinks, List.map_map]
  rfl

theorem edges_roleSteps (n : Nat) (a : ActionDef) :
    (p.roleSteps (nodeId n) a).filterMap BuildStep.edge? =
      (p.performer? a).toList.map fun r => LinkKind.role.edge (p.roleBase + r) n := by
  unfold roleSteps performer? roleId?
  cases a.actor with
  | ai => rfl
  | human => rfl
  | role =>
    cases a.roleName with
    | none => rfl
    | some role =>
      by_cases hempty : role.isEmpty = true
      · simp only [hempty, if_true]
        rfl
      · simp only [hempty]
        cases lastIndex? role (p.roles.map RoleDef.name) with
        | none => rfl
        | some r => rfl

/-- The edges that the steps tell, repeated ones included. -/
theorem edges_allSteps (p : Program) :
    p.allSteps.filterMap BuildStep.edge? = p.linkList.map Link.edge := by
  have hworkflows : (p.workflows.mapIdx fun i w =>
      p.workflowSteps (nodeId (p.workflowBase + i)) w).flatten.filterMap BuildStep.edge? =
        (p.workflows.mapIdx p.workflowLinks).flatten.map Link.edge := by
    simp only [List.filterMap_flatten, List.map_flatten, List.mapIdx_eq_zipIdx_map, List.map_map,
      Function.comp_def, edges_workflowSteps]
  have hroles : (p.ownedActions.flatMap fun (id, a) => p.roleSteps id a).filterMap
      BuildStep.edge? = (p.actions.flatMap p.roleLinks).map Link.edge := by
    rw [ownedActions_eq]
    simp only [List.flatMap_assoc, List.flatMap_map, List.filterMap_flatMap, edges_roleSteps,
      List.map_flatMap, roleLinks, List.map_map]
    rfl
  unfold allSteps nodeStep
  simp only [List.filterMap_append, edges_nodes, List.nil_append]
  rw [hworkflows, edges_allOutputs, edges_allInputs, hroles, linkList]
  simp only [List.map_append]

/-- The edges of the graph are the links of the program, each where it is told first. -/
theorem graph_edges (p : Program) : p.graph.edges = p.linkList.eraseDups.map Link.edge := by
  show (BuildStep.dropRepeated [] p.allSteps).filterMap BuildStep.edge? = _
  rw [BuildStep.edges_dropRepeated p.edges_allSteps]
  simp

/-- No two edges of the graph have one id. -/
theorem nodup_edge_ids (p : Program) : (p.graph.edges.map (·.id)).Nodup := by
  rw [graph_edges, List.map_map]
  exact List.Nodup.map (fun l l' h => Link.edge_id_inj.mp h) (nodup_eraseDups _)

end Program

end RoleFlow
