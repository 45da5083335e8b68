import RoleFlow.Graph.Build
import Mathlib.Data.List.Basic

/-!
# What the graph of a program contains

Nodes are numbered in the order in which they are added, and the id of an edge tells its tag and
the numbers of its ends. So ids can be told apart by numbers, and dropping repeated edges drops
no link.

Results:
* `graph_nodes`: the nodes of the graph, with their numbers.
* `mem_graph_edges_iff`: the edges of the graph are the links of the program.
-/

namespace RoleFlow

/-! ## Ids -/

theorem digitsOf_inj {a b : Nat} : digitsOf a = digitsOf b ↔ a = b := by
  constructor
  · intro h
    have hdigits : Nat.toDigits 10 a = Nat.toDigits 10 b := by
      simpa [digitsOf] using congrArg String.toList h
    rw [← @Nat.ofDigitChars_ten_toDigits a, hdigits, Nat.ofDigitChars_ten_toDigits]
  · rintro rfl
    rfl

theorem nodeId_inj {a b : Nat} : nodeId a = nodeId b ↔ a = b := by
  rw [← digitsOf_inj]
  simp [nodeId]

/-- What an edge between numbered nodes says. -/
inductive LinkKind where
  | start
  | sequence
  | output
  | input
  | role

namespace LinkKind

/-- The tag in the ids of edges. -/
def tag : LinkKind → String
  | .start => "workflow_start"
  | .sequence => "workflow"
  | .output => "data_output"
  | .input => "data_input"
  | .role => "role"

/-- The kind of the edges. -/
def kind : LinkKind → EdgeKind
  | .start => .workflowStart
  | .sequence => .sequence
  | .output => .dataFlow
  | .input => .dataFlow
  | .role => .rolePerformance

/-- The label of the edges. -/
def label : LinkKind → String
  | .start => "starts with"
  | .sequence => "next"
  | .output => "produces"
  | .input => "used by"
  | .role => "performs"

/-- The edge from one node to another. -/
def edge (link : LinkKind) (source target : Nat) : Edge :=
  ⟨"edge_" ++ link.tag ++ "_" ++ nodeId source ++ "_" ++ nodeId target, nodeId source,
    nodeId target, link.kind, link.label, none, none, link.kind.style⟩

theorem tag_inj {link link' : LinkKind} (h : link.tag = link'.tag) : link = link' := by
  cases link <;> cases link' <;> first | rfl | exact absurd h (by decide)

/-- The list up to the first `c` and the list after it are determined. -/
theorem append_cons_inj {α : Type} {c : α} {xs ys zs ws : List α} (hx : c ∉ xs) (hy : c ∉ ys)
    (h : xs ++ c :: zs = ys ++ c :: ws) : xs = ys ∧ zs = ws := by
  rcases List.append_eq_append_iff.mp h with ⟨more, rfl, hmore⟩ | ⟨more, rfl, hmore⟩
  · cases more with
    | nil => exact ⟨(List.append_nil xs).symm, (List.cons.inj hmore).2⟩
    | cons d more => exact absurd (by simp [(List.cons.inj hmore).1]) hy
  · cases more with
    | nil => exact ⟨List.append_nil ys, (List.cons.inj hmore).2.symm⟩
    | cons d more => exact absurd (by simp [(List.cons.inj hmore).1]) hx

/-- A number after an underscore is determined, and so is what stands before it. -/
theorem append_digits_inj {front front' : List Char} {a a' : Nat}
    (h : front ++ '_' :: Nat.toDigits 10 a = front' ++ '_' :: Nat.toDigits 10 a') :
    front = front' ∧ a = a' := by
  have hnot : ∀ n : Nat, '_' ∉ (Nat.toDigits 10 n).reverse := fun n hmem =>
    Nat.underscore_not_in_toDigits (List.mem_reverse.mp hmem)
  have hreverse := congrArg List.reverse h
  simp only [List.reverse_append, List.reverse_cons, List.append_assoc, List.singleton_append]
    at hreverse
  obtain ⟨hdigits, hfront⟩ := append_cons_inj (hnot a) (hnot a') hreverse
  refine ⟨List.reverse_injective hfront, ?_⟩
  rw [← @Nat.ofDigitChars_ten_toDigits a, List.reverse_injective hdigits,
    Nat.ofDigitChars_ten_toDigits]

theorem edge_id_toList (link : LinkKind) (a b : Nat) :
    (link.edge a b).id.toList =
      ("edge_".toList ++ link.tag.toList ++ "_node".toList ++ '_' :: Nat.toDigits 10 a ++
        "_node".toList) ++ '_' :: Nat.toDigits 10 b := by
  simp [edge, nodeId, digitsOf]

theorem edge_inj {link link' : LinkKind} {a b a' b' : Nat}
    (h : (link.edge a b).id = (link'.edge a' b').id) : link = link' ∧ a = a' ∧ b = b' := by
  have hlist := congrArg String.toList h
  rw [edge_id_toList, edge_id_toList] at hlist
  obtain ⟨hfront, rfl⟩ := append_digits_inj hlist
  obtain ⟨hstart, rfl⟩ := append_digits_inj (List.append_cancel_right hfront)
  have htag := List.append_cancel_left (List.append_cancel_right hstart)
  exact ⟨tag_inj (String.toList_inj.mp htag), rfl, rfl⟩

end LinkKind

/-! ## Steps -/

namespace BuildStep

@[simp] theorem edge?_eq_some_iff {step : BuildStep} {e : Edge} :
    step.edge? = some e ↔ step = .edge e := by
  cases step <;> simp [edge?]

/-- What is told by steps that add no edge is kept. -/
theorem filterMap_dropRepeated {α : Type} {f : BuildStep → Option α} (hf : ∀ e, f (.edge e) = none)
    (ids : List String) (steps : List BuildStep) :
    (dropRepeated ids steps).filterMap f = steps.filterMap f := by
  fun_induction dropRepeated ids steps with
  | case1 => rfl
  | case2 ids e steps h ih => rw [ih, List.filterMap_cons_none (hf e)]
  | case3 ids e steps h ih =>
    rw [List.filterMap_cons_none (hf e), List.filterMap_cons_none (hf e), ih]
  | case4 ids step steps h ih => rw [List.filterMap_cons, List.filterMap_cons, ih]

theorem node?_dropRepeated (ids : List String) (steps : List BuildStep) :
    (dropRepeated ids steps).filterMap node? = steps.filterMap node? :=
  filterMap_dropRepeated (fun _ => rfl) ids steps

theorem dropRepeated_sublist (ids : List String) (steps : List BuildStep) :
    (dropRepeated ids steps).Sublist steps := by
  fun_induction dropRepeated ids steps with
  | case1 => exact .refl _
  | case2 ids e steps h ih => exact ih.cons _
  | case3 ids e steps h ih => exact ih.cons_cons _
  | case4 ids step steps h ih => exact ih.cons_cons _

/-- Of the edges of one id one is kept. -/
theorem exists_kept {ids : List String} {steps : List BuildStep} {e : Edge}
    (he : .edge e ∈ steps) (hid : e.id ∉ ids) :
    ∃ kept, .edge kept ∈ dropRepeated ids steps ∧ kept.id = e.id := by
  fun_induction dropRepeated ids steps with
  | case1 => cases he
  | case2 ids e' steps h ih =>
    rcases List.mem_cons.mp he with heq | he
    · cases heq
      exact absurd (List.contains_iff_mem.mp h) hid
    · exact ih he hid
  | case3 ids e' steps h ih =>
    by_cases hsame : e.id = e'.id
    · exact ⟨e', by simp, hsame.symm⟩
    · rcases List.mem_cons.mp he with heq | he
      · cases heq
        exact absurd rfl hsame
      · obtain ⟨kept, hkept, hid⟩ := ih he (by simp [hsame, hid])
        exact ⟨kept, List.mem_cons_of_mem _ hkept, hid⟩
  | case4 ids step steps h ih =>
    rcases List.mem_cons.mp he with heq | he
    · cases heq
      exact absurd rfl (h e)
    · obtain ⟨kept, hkept, hid⟩ := ih he hid
      exact ⟨kept, List.mem_cons_of_mem _ hkept, hid⟩

end BuildStep

/-! ## Names -/

theorem getElem?_of_lastIndex? {name : String} {names : List String} {i : Nat}
    (h : lastIndex? name names = some i) : names[i]? = some name := by
  fun_induction lastIndex? name names generalizing i with
  | case1 => cases h
  | case2 other names j hj ih =>
    cases h
    exact ih hj
  | case3 names hnone ih =>
    cases h
    rfl
  | case4 => cases h

theorem exists_lastIndex? {name : String} {names : List String} (h : name ∈ names) :
    ∃ i, lastIndex? name names = some i := by
  fun_induction lastIndex? name names with
  | case1 => cases h
  | case2 other names j hj ih => exact ⟨j + 1, rfl⟩
  | case3 names hnone ih => exact ⟨0, rfl⟩
  | case4 other names hnone hne ih =>
    rcases List.mem_cons.mp h with rfl | h
    · exact absurd rfl hne
    · obtain ⟨i, hi⟩ := ih h
      rw [hnone] at hi
      cases hi

/-- The name of the action that a step calls. -/
def Element.calledName? : Element → Option String
  | .call name _ => some name
  | .decision .. => none

/-- A call of `y` comes right after a call of `x` at the top level of the workflow. -/
def WorkflowDef.Follows (w : WorkflowDef) (x y : String) : Prop :=
  [some x, some y] <:+: w.elements.map Element.calledName?

theorem infix_cons_cons_iff {α : Type} {a b x y : α} {xs : List α} :
    [a, b] <:+: x :: y :: xs ↔ (a = x ∧ b = y) ∨ [a, b] <:+: y :: xs := by
  rw [List.infix_cons_iff]
  refine or_congr_left ?_
  rw [List.cons_prefix_cons, List.cons_prefix_cons]
  simp

theorem mem_zip_tail_iff {α : Type} {a b : α} {xs : List α} :
    (a, b) ∈ xs.zip xs.tail ↔ [a, b] <:+: xs := by
  induction xs with
  | nil => simp
  | cons x xs ih =>
    cases xs with
    | nil => simp [List.infix_cons_iff]
    | cons y xs =>
      rw [List.tail_cons, List.zip_cons_cons, List.mem_cons, infix_cons_cons_iff, ← ih]
      simp

theorem WorkflowDef.follows_iff {w : WorkflowDef} {x y : String} :
    w.Follows x y ↔ ∃ pair ∈ w.elements.zip w.elements.tail,
      pair.1.calledName? = some x ∧ pair.2.calledName? = some y := by
  rw [Follows, ← mem_zip_tail_iff, ← List.map_tail, List.zip_map, List.mem_map]
  simp only [Prod.map_apply, Prod.mk.injEq, Prod.exists]

namespace Program

/-- The number of the node that the name of an action stands for. -/
def actionNumber? (p : Program) (name : String) : Option Nat :=
  lastIndex? name (p.actions.map (·.name))

/-- What the program says of two numbered nodes. -/
inductive Links (p : Program) : LinkKind → Nat → Nat → Prop
  | start {i b : Nat} {w : WorkflowDef} {name : String} {args : List Argument}
    {rest : List Element} (hw : p.workflows[i]? = some w)
    (hfirst : w.elements = .call name args :: rest)
    (hb : p.actionNumber? name = some b) : Links p .start (p.workflowBase + i) b
  | sequence {a b : Nat} {w : WorkflowDef} {x y : String} (hw : w ∈ p.workflows)
    (hfollows : w.Follows x y) (ha : p.actionNumber? x = some a)
    (hb : p.actionNumber? y = some b) : Links p .sequence a b
  | output {a : Nat} {action : ActionDef} {name : String} (haction : action ∈ p.actions)
    (ha : p.actionNumber? action.name = some a) (hname : name ∈ action.outputs) :
    Links p .output a (p.dataBase + p.dataNames.idxOf name)
  | input {b : Nat} {action : ActionDef} {name : String} (haction : action ∈ p.actions)
    (hb : p.actionNumber? action.name = some b) (hname : name ∈ action.inputs)
    (hdata : name ∈ p.dataNames) :
    Links p .input (p.dataBase + p.dataNames.idxOf name) b
  | role {a b : Nat} {action : ActionDef} {name : String} (haction : action ∈ p.actions)
    (hactor : action.actor = .role) (hname : action.roleName = some name) (hempty : name ≠ "")
    (ha : lastIndex? name (p.roles.map (·.name)) = some a)
    (hb : p.actionNumber? action.name = some b) : Links p .role (p.roleBase + a) b

variable {p : Program}

theorem edge_mem_startSteps_iff {a : Nat} {w : WorkflowDef} {e : Edge} :
    .edge e ∈ p.startSteps (nodeId a) w ↔
      ∃ name args rest b, w.elements = .call name args :: rest ∧
        p.actionNumber? name = some b ∧ e = LinkKind.start.edge a b := by
  unfold startSteps
  constructor
  · intro h
    split at h
    · next name args rest hfirst =>
      split at h
      · next id hid =>
        obtain ⟨b, hb, rfl⟩ := Option.map_eq_some_iff.mp hid
        exact ⟨name, args, rest, b, hfirst, hb, BuildStep.edge.inj (List.mem_singleton.mp h)⟩
      · simp at h
    · cases h
  · rintro ⟨name, args, rest, b, hfirst, hb, rfl⟩
    have hid : p.actionId? name = some (nodeId b) := congrArg (Option.map nodeId) hb
    simp only [hfirst, hid]
    exact List.mem_singleton.mpr rfl

theorem edge_mem_pairSteps_iff {x y : Element} {e : Edge} :
    .edge e ∈ p.pairSteps (x, y) ↔
      ∃ current following a b, x.calledName? = some current ∧ y.calledName? = some following ∧
        p.actionNumber? current = some a ∧ p.actionNumber? following = some b ∧
        e = LinkKind.sequence.edge a b := by
  cases x with
  | decision => simp [pairSteps, Element.calledName?]
  | call current args =>
    cases y with
    | decision => simp [pairSteps, Element.calledName?]
    | call following args' =>
      simp only [pairSteps, Element.calledName?, Option.some.injEq]
      constructor
      · intro h
        split at h
        · next source target hsource htarget =>
          obtain ⟨a, ha, rfl⟩ := Option.map_eq_some_iff.mp hsource
          obtain ⟨b, hb, rfl⟩ := Option.map_eq_some_iff.mp htarget
          exact ⟨current, following, a, b, rfl, rfl, ha, hb,
            BuildStep.edge.inj (List.mem_singleton.mp h)⟩
        · simp at h
      · rintro ⟨_, _, a, b, rfl, rfl, ha, hb, rfl⟩
        have hsource : p.actionId? current = some (nodeId a) := congrArg (Option.map nodeId) ha
        have htarget : p.actionId? following = some (nodeId b) := congrArg (Option.map nodeId) hb
        simp only [hsource, htarget]
        exact List.mem_singleton.mpr rfl

theorem edge_mem_workflowSteps_iff {a : Nat} {w : WorkflowDef} {e : Edge} :
    .edge e ∈ p.workflowSteps (nodeId a) w ↔
      .edge e ∈ p.startSteps (nodeId a) w ∨
        ∃ x y b c, w.Follows x y ∧ p.actionNumber? x = some b ∧ p.actionNumber? y = some c ∧
          e = LinkKind.sequence.edge b c := by
  rw [workflowSteps, List.cons_append, List.mem_cons, List.mem_append, List.mem_flatMap]
  constructor
  · rintro (h | h | ⟨⟨x, y⟩, hpair, h⟩)
    · cases h
    · exact .inl h
    · obtain ⟨current, following, b, c, hx, hy, hb, hc, rfl⟩ := edge_mem_pairSteps_iff.mp h
      exact .inr ⟨current, following, b, c, WorkflowDef.follows_iff.mpr ⟨_, hpair, hx, hy⟩, hb, hc,
        rfl⟩
  · rintro (h | ⟨current, following, b, c, hfollows, hb, hc, rfl⟩)
    · exact .inr (.inl h)
    · obtain ⟨⟨x, y⟩, hpair, hx, hy⟩ := WorkflowDef.follows_iff.mp hfollows
      exact .inr (.inr ⟨_, hpair,
        edge_mem_pairSteps_iff.mpr ⟨current, following, b, c, hx, hy, hb, hc, rfl⟩⟩)

/-! ## Data -/

theorem exists_actionNumber? {action : ActionDef} (h : action ∈ p.actions) :
    ∃ a, p.actionNumber? action.name = some a :=
  exists_lastIndex? (List.mem_map_of_mem h)

theorem mem_ownedActions_iff {id : String} {action : ActionDef} :
    (id, action) ∈ p.ownedActions ↔
      action ∈ p.actions ∧ ∃ a, p.actionNumber? action.name = some a ∧ id = nodeId a := by
  simp only [ownedActions, List.mem_map, Prod.mk.injEq]
  constructor
  · rintro ⟨action, haction, rfl, rfl⟩
    obtain ⟨a, ha⟩ := exists_actionNumber? haction
    refine ⟨haction, a, ha, ?_⟩
    show ((p.actionNumber? action.name).map nodeId).getD "" = _
    rw [ha]
    rfl
  · rintro ⟨haction, a, ha, rfl⟩
    refine ⟨action, haction, ?_, rfl⟩
    show ((p.actionNumber? action.name).map nodeId).getD "" = _
    rw [ha]
    rfl

theorem addNew_of_mem {names : List String} {name : String} (h : name ∈ names) :
    addNew names name = names :=
  if_pos (List.contains_iff_mem.mpr h)

theorem addNew_of_notMem {names : List String} {name : String} (h : name ∉ names) :
    addNew names name = names ++ [name] :=
  if_neg fun hmem => h (List.contains_iff_mem.mp hmem)

theorem prefix_addNew (names : List String) (name : String) : names <+: addNew names name := by
  by_cases h : name ∈ names
  · exact (addNew_of_mem h).symm ▸ List.prefix_refl names
  · rw [addNew_of_notMem h]
    exact List.prefix_append _ _

theorem mem_addNew (names : List String) (name : String) : name ∈ addNew names name := by
  by_cases h : name ∈ names
  · rwa [addNew_of_mem h]
  · rw [addNew_of_notMem h]
    exact List.mem_append_right _ (List.mem_singleton.mpr rfl)

theorem prefix_foldl_addNew (names more : List String) : names <+: more.foldl addNew names := by
  induction more generalizing names with
  | nil => exact List.prefix_refl _
  | cons name more ih => exact (prefix_addNew names name).trans (ih _)

theorem idxOf_of_begins {names more : List String} {name : String} (h : name ∈ names)
    (hbegins : names <+: more) : more.idxOf name = names.idxOf name := by
  obtain ⟨rest, rfl⟩ := hbegins
  exact List.idxOf_append_of_mem h

/-- The data node with a number among the data. -/
def dataNode (p : Program) (number : Nat) (name : String) : Node :=
  ⟨nodeId (p.dataBase + number), .data, name, [], none⟩

theorem nodes_outputSteps (names : List String) (outputs : List (String × String)) :
    names.mapIdx p.dataNode ++ (p.outputSteps names outputs).filterMap BuildStep.node? =
      ((outputs.map Prod.snd).foldl addNew names).mapIdx p.dataNode := by
  induction outputs generalizing names with
  | nil => simp [outputSteps]
  | cons output outputs ih =>
    obtain ⟨actionId, name⟩ := output
    rw [List.map_cons, List.foldl_cons, ← ih, outputSteps]
    by_cases h : name ∈ names
    · rw [addNew_of_mem h, if_pos (List.contains_iff_mem.mpr h), List.nil_append,
        List.filterMap_cons_none rfl]
    · have hidx : (names ++ [name]).idxOf name = names.length := by
        rw [List.idxOf_append_of_notMem h]
        simp
      rw [addNew_of_notMem h, if_neg fun hmem => h (List.contains_iff_mem.mp hmem), dataIdAmong,
        hidx, List.mapIdx_append]
      simp [List.filterMap_cons, nodeStep, edgeStep, BuildStep.node?, dataNode]

theorem edge_mem_outputSteps_iff {names : List String} {outputs : List (String × String)}
    {e : Edge} :
    .edge e ∈ p.outputSteps names outputs ↔
      ∃ output ∈ outputs, .edge e = edgeStep "data_output" output.1
        (p.dataIdAmong ((outputs.map Prod.snd).foldl addNew names) output.2) .dataFlow
        "produces" := by
  induction outputs generalizing names with
  | nil => simp [outputSteps]
  | cons output outputs ih =>
    obtain ⟨actionId, name⟩ := output
    have hid : p.dataIdAmong (addNew names name) name =
        p.dataIdAmong ((outputs.map Prod.snd).foldl addNew (addNew names name)) name := by
      rw [dataIdAmong, dataIdAmong,
        idxOf_of_begins (mem_addNew names name) (prefix_foldl_addNew _ _)]
    have hnode : ∀ id : String, BuildStep.edge e ∉
        if names.contains name then [] else [nodeStep id .data name []] := by
      intro id h
      split at h
      · cases h
      · simp [nodeStep] at h
    rw [outputSteps, List.mem_append, or_iff_right (hnode _), List.mem_cons, ih, hid,
      List.exists_mem_cons_iff]
    rfl

/-! ## Nodes and edges -/

theorem edge_notMem_nodes {α : Type} {id : Nat → String} {kind : NodeKind} {label : α → String}
    {data : α → Fields} {xs : List α} {e : Edge} :
    .edge e ∉ xs.mapIdx fun i x => nodeStep (id i) kind (label x) (data x) := by
  intro hmem
  obtain ⟨i, hi, heq⟩ := List.mem_mapIdx.mp hmem
  cases heq

theorem edge_mem_allWorkflows_iff {e : Edge} :
    .edge e ∈ (p.workflows.mapIdx fun i w =>
        p.workflowSteps (nodeId (p.workflowBase + i)) w).flatten ↔
      ∃ link a b, (link = .start ∨ link = .sequence) ∧ p.Links link a b ∧ e = link.edge a b := by
  rw [List.mem_flatten]
  constructor
  · rintro ⟨steps, hsteps, h⟩
    obtain ⟨i, hi, rfl⟩ := List.mem_mapIdx.mp hsteps
    rcases edge_mem_workflowSteps_iff.mp h with h | ⟨x, y, b, c, hfollows, hb, hc, rfl⟩
    · obtain ⟨name, args, rest, b, hfirst, hb, rfl⟩ := edge_mem_startSteps_iff.mp h
      exact ⟨.start, _, b, .inl rfl, .start (List.getElem?_eq_getElem hi) hfirst hb, rfl⟩
    · exact ⟨.sequence, b, c, .inr rfl, .sequence (List.getElem_mem hi) hfollows hb hc, rfl⟩
  · rintro ⟨link, a, b, hlink, h, rfl⟩
    cases h with
    | start hw hfirst hb =>
      obtain ⟨hi, rfl⟩ := List.getElem?_eq_some_iff.mp hw
      refine ⟨_, List.mem_mapIdx.mpr ⟨_, hi, rfl⟩, edge_mem_workflowSteps_iff.mpr (.inl ?_)⟩
      exact edge_mem_startSteps_iff.mpr ⟨_, _, _, b, hfirst, hb, rfl⟩
    | sequence hw hfollows ha hb =>
      obtain ⟨i, hi, rfl⟩ := List.getElem_of_mem hw
      refine ⟨_, List.mem_mapIdx.mpr ⟨i, hi, rfl⟩, edge_mem_workflowSteps_iff.mpr (.inr ?_)⟩
      exact ⟨_, _, a, b, hfollows, ha, hb, rfl⟩
    | _ => simp at hlink

theorem ownedOutputs_names (p : Program) :
    ((p.ownedActions.flatMap fun (id, a) => a.outputs.map (id, ·)).map
      Prod.snd).foldl addNew [] = p.dataNames := by
  rw [dataNames, ownedActions, List.map_flatMap, List.flatMap_map]
  simp [Function.comp_def]

theorem edge_mem_allOutputs_iff {e : Edge} :
    .edge e ∈ p.outputSteps [] (p.ownedActions.flatMap fun (id, a) => a.outputs.map (id, ·)) ↔
      ∃ a b, p.Links .output a b ∧ e = LinkKind.output.edge a b := by
  rw [edge_mem_outputSteps_iff, ownedOutputs_names]
  constructor
  · rintro ⟨⟨id, name⟩, houtput, he⟩
    obtain ⟨⟨id', action⟩, howned, hname⟩ := List.mem_flatMap.mp houtput
    obtain ⟨haction, a, ha, rfl⟩ := mem_ownedActions_iff.mp howned
    obtain ⟨name, hname, heq⟩ := List.mem_map.mp hname
    cases heq
    exact ⟨a, _, .output haction ha hname, BuildStep.edge.inj he⟩
  · rintro ⟨a, b, h, rfl⟩
    cases h with
    | @output _ action name haction ha hname =>
      refine ⟨(nodeId a, name), List.mem_flatMap.mpr ⟨(nodeId a, action), ?_, ?_⟩, rfl⟩
      · exact mem_ownedActions_iff.mpr ⟨haction, a, ha, rfl⟩
      · exact List.mem_map.mpr ⟨name, hname, rfl⟩

theorem edge_mem_allInputs_iff {e : Edge} :
    .edge e ∈ p.inputSteps p.dataNames p.ownedActions ↔
      ∃ a b, p.Links .input a b ∧ e = LinkKind.input.edge a b := by
  rw [inputSteps, List.mem_flatMap]
  constructor
  · rintro ⟨⟨id, action⟩, howned, h⟩
    obtain ⟨haction, b, hb, rfl⟩ := mem_ownedActions_iff.mp howned
    obtain ⟨name, hname, h⟩ := List.mem_map.mp h
    unfold inputStep at h
    split at h
    · next hdata =>
      exact ⟨_, b, .input haction hb hname (List.contains_iff_mem.mp hdata),
        (BuildStep.edge.inj h).symm⟩
    · cases h
  · rintro ⟨a, b, h, rfl⟩
    cases h with
    | @input _ action name haction hb hname hdata =>
      refine ⟨(nodeId b, action), mem_ownedActions_iff.mpr ⟨haction, b, hb, rfl⟩, ?_⟩
      exact List.mem_map.mpr ⟨name, hname, if_pos (List.contains_iff_mem.mpr hdata)⟩

theorem edge_mem_allRoles_iff {e : Edge} :
    .edge e ∈ (p.ownedActions.flatMap fun (id, a) => p.roleSteps id a) ↔
      ∃ a b, p.Links .role a b ∧ e = LinkKind.role.edge a b := by
  rw [List.mem_flatMap]
  constructor
  · rintro ⟨⟨id, action⟩, howned, h⟩
    obtain ⟨haction, b, hb, rfl⟩ := mem_ownedActions_iff.mp howned
    simp only [roleSteps] at h
    split at h
    · next role hactor hrole =>
      split at h
      · cases h
      · next hempty =>
        split at h
        · next roleId hid =>
          obtain ⟨a, ha, rfl⟩ := Option.map_eq_some_iff.mp hid
          refine ⟨_, b, .role haction hactor hrole ?_ ha hb,
            BuildStep.edge.inj (List.mem_singleton.mp h)⟩
          simpa using hempty
        · simp at h
    · cases h
  · rintro ⟨_, b, h, rfl⟩
    cases h with
    | @role a _ action name haction hactor hname hempty ha hb =>
      refine ⟨(nodeId b, action), mem_ownedActions_iff.mpr ⟨haction, b, hb, rfl⟩, ?_⟩
      have hid : p.roleId? name = some (nodeId (p.roleBase + a)) := by
        rw [roleId?, ha]
        rfl
      simp only [roleSteps, hactor, hname, hid]
      rw [if_neg (by simpa using hempty)]
      exact List.mem_singleton.mpr rfl

theorem edge_mem_allSteps_iff {e : Edge} :
    .edge e ∈ p.allSteps ↔ ∃ link a b, p.Links link a b ∧ e = link.edge a b := by
  unfold allSteps
  simp only [List.mem_append, edge_notMem_nodes, false_or, edge_mem_allWorkflows_iff,
    edge_mem_allOutputs_iff, edge_mem_allInputs_iff, edge_mem_allRoles_iff]
  constructor
  · rintro (((⟨link, a, b, -, h⟩ | ⟨a, b, h⟩) | ⟨a, b, h⟩) | ⟨a, b, h⟩)
    · exact ⟨link, a, b, h⟩
    · exact ⟨_, a, b, h⟩
    · exact ⟨_, a, b, h⟩
    · exact ⟨_, a, b, h⟩
  · rintro ⟨link, a, b, h⟩
    cases link with
    | start => exact .inl (.inl (.inl ⟨_, a, b, .inl rfl, h⟩))
    | sequence => exact .inl (.inl (.inl ⟨_, a, b, .inr rfl, h⟩))
    | output => exact .inl (.inl (.inr ⟨a, b, h⟩))
    | input => exact .inl (.inr ⟨a, b, h⟩)
    | role => exact .inr ⟨a, b, h⟩

/-- The edges of the graph are the links of the program. -/
theorem mem_graph_edges_iff {e : Edge} :
    e ∈ p.graph.edges ↔ ∃ link a b, p.Links link a b ∧ e = link.edge a b := by
  rw [graph, List.mem_filterMap]
  simp only [BuildStep.edge?_eq_some_iff, exists_eq_right, steps]
  constructor
  · intro h
    exact edge_mem_allSteps_iff.mp ((BuildStep.dropRepeated_sublist _ _).mem h)
  · rintro ⟨link, a, b, hlink, rfl⟩
    obtain ⟨kept, hkept, hid⟩ : ∃ kept, .edge kept ∈ BuildStep.dropRepeated [] p.allSteps ∧
        kept.id = (link.edge a b).id :=
      BuildStep.exists_kept (edge_mem_allSteps_iff.mpr ⟨link, a, b, hlink, rfl⟩) List.not_mem_nil
    obtain ⟨link', a', b', -, rfl⟩ :=
      edge_mem_allSteps_iff.mp ((BuildStep.dropRepeated_sublist _ _).mem hkept)
    obtain ⟨rfl, rfl, rfl⟩ := LinkKind.edge_inj hid
    exact hkept

/-- The node of an action with a number. -/
def actionNode (number : Nat) (a : ActionDef) : Node :=
  ⟨nodeId number, .action, a.name, a.nodeData, none⟩

/-- The node of the entity with a number among the entities. -/
def entityNode (p : Program) (number : Nat) (e : EntityDef) : Node :=
  ⟨nodeId (p.entityBase + number), .entity, e.name, e.nodeData, none⟩

/-- The node of the role with a number among the roles. -/
def roleNode (p : Program) (number : Nat) (r : RoleDef) : Node :=
  ⟨nodeId (p.roleBase + number), .role, r.name, r.nodeData, none⟩

/-- The node of the workflow with a number among the workflows. -/
def workflowNode (p : Program) (number : Nat) (w : WorkflowDef) : Node :=
  ⟨nodeId (p.workflowBase + number), .workflow, w.name, w.nodeData, none⟩

theorem filterMap_node?_mapIdx {α : Type} (node : Nat → α → Node) (xs : List α) :
    (xs.mapIdx fun i x => BuildStep.node (node i x)).filterMap BuildStep.node? =
      xs.mapIdx node := by
  rw [List.mapIdx_eq_zipIdx_map, List.mapIdx_eq_zipIdx_map, List.filterMap_map]
  simp [Function.comp_def, BuildStep.node?]

theorem filterMap_node?_flatten {α : Type} {steps : Nat → α → List BuildStep}
    {node : Nat → α → Node} (h : ∀ i x, (steps i x).filterMap BuildStep.node? = [node i x])
    (xs : List α) :
    (xs.mapIdx steps).flatten.filterMap BuildStep.node? = xs.mapIdx node := by
  rw [List.filterMap_flatten, List.mapIdx_eq_zipIdx_map, List.mapIdx_eq_zipIdx_map, List.map_map]
  simp only [Function.comp_def, h]
  rw [← List.flatMap_def, List.map_eq_flatMap]

theorem node?_startSteps (id : String) (w : WorkflowDef) :
    (p.startSteps id w).filterMap BuildStep.node? = [] := by
  unfold startSteps
  split
  · split
    · rfl
    · rfl
  · rfl

theorem node?_pairSteps (pair : Element × Element) :
    (p.pairSteps pair).filterMap BuildStep.node? = [] := by
  unfold pairSteps
  split
  · split
    · rfl
    · rfl
  · rfl

theorem node?_workflowSteps (i : Nat) (w : WorkflowDef) :
    (p.workflowSteps (nodeId (p.workflowBase + i)) w).filterMap BuildStep.node? =
      [p.workflowNode i w] := by
  rw [workflowSteps, List.cons_append, List.filterMap_cons, List.filterMap_append,
    node?_startSteps, List.filterMap_flatMap]
  simp [node?_pairSteps, nodeStep, BuildStep.node?, workflowNode]

theorem node?_inputStep (names : List String) (id action input : String) :
    (p.inputStep names id action input).node? = none := by
  unfold inputStep
  split
  · rfl
  · rfl

theorem node?_roleSteps (id : String) (a : ActionDef) :
    (p.roleSteps id a).filterMap BuildStep.node? = [] := by
  unfold roleSteps
  split
  · split
    · rfl
    · split
      · rfl
      · rfl
  · rfl

/-- The nodes of the graph, with their numbers. -/
theorem graph_nodes :
    p.graph.nodes = p.actions.mapIdx actionNode ++ p.entities.mapIdx p.entityNode ++
      p.roles.mapIdx p.roleNode ++ p.workflows.mapIdx p.workflowNode ++
      p.dataNames.mapIdx p.dataNode := by
  have houtputs : (p.outputSteps [] (p.ownedActions.flatMap fun (id, a) =>
      a.outputs.map (id, ·))).filterMap BuildStep.node? = p.dataNames.mapIdx p.dataNode := by
    rw [← ownedOutputs_names, ← nodes_outputSteps, List.mapIdx_nil, List.nil_append]
  have hinputs : (p.inputSteps p.dataNames p.ownedActions).filterMap BuildStep.node? = [] := by
    rw [inputSteps, List.filterMap_flatMap]
    simp [node?_inputStep]
  have hroles : (p.ownedActions.flatMap fun (id, a) => p.roleSteps id a).filterMap
      BuildStep.node? = [] := by
    rw [List.filterMap_flatMap]
    simp [node?_roleSteps]
  show (BuildStep.dropRepeated [] p.allSteps).filterMap BuildStep.node? = _
  rw [BuildStep.node?_dropRepeated, allSteps]
  simp only [List.filterMap_append]
  rw [houtputs, hinputs, hroles, List.append_nil, List.append_nil,
    filterMap_node?_flatten p.node?_workflowSteps]
  simp only [nodeStep, filterMap_node?_mapIdx]
  rfl

end Program

end RoleFlow
