import RoleFlow.Proofs.NodeData

/-!
# The course of a walk, told by names

From an action a walk goes on to the first one that some workflow calls next, in the order of the
workflows, and that it has not met. If the workflows do nothing but call actions, and none of them
calls an action twice, each of them knows one way on at most.

Results:
* `nextStep?_graph`: a step of a walk.
* `sequenceIds_eq_iff`: a whole walk.
* `nextName?_eq_some_iff`: a step of a walk where every workflow knows one way on at most.
-/

namespace RoleFlow

/-- What a workflow calls right after its calls of an action, in order. -/
def WorkflowDef.nextNames (w : WorkflowDef) (name : String) : List String :=
  (w.elements.zip w.elements.tail).filterMap fun pair =>
    if pair.1.calledName? = some name then pair.2.calledName? else none

theorem WorkflowDef.mem_nextNames_iff {w : WorkflowDef} {x y : String} :
    y ∈ w.nextNames x ↔ w.Follows x y := by
  rw [nextNames, List.mem_filterMap, follows_iff]
  refine exists_congr fun pair => and_congr_right fun _ => ?_
  split
  · next hx => exact (and_iff_right hx).symm
  · next hx => exact iff_of_false (by simp) fun h => hx h.1

/-- The workflow does nothing but call actions, none of them twice. -/
structure WorkflowDef.IsPlain (w : WorkflowDef) : Prop where
  calls : w.elements.map Element.calledName? = w.callNames.map some
  once : w.callNames.Nodup

namespace WorkflowDef.IsPlain

variable {w : WorkflowDef} {x y z : String}

theorem follows_iff (h : w.IsPlain) : w.Follows x y ↔ [x, y] <:+: w.callNames := by
  unfold Follows
  rw [h.calls]
  constructor
  · intro hfollows
    have hmap : [x, y].map some <:+: w.callNames.map some := hfollows
    simpa using hmap.filterMap id
  · exact fun hpair => hpair.map some

theorem head?_eq_of_follows (h : w.IsPlain) {front back : List String}
    (hnames : w.callNames = front ++ x :: back) (hfollows : w.Follows x y) :
    back.head? = some y := by
  have honce := h.once
  rw [h.follows_iff, hnames] at hfollows
  rw [hnames] at honce
  exact Graph.head?_eq_of_infix honce hfollows

theorem follows_unique (h : w.IsPlain) (hy : w.Follows x y) (hz : w.Follows x z) : y = z := by
  obtain ⟨front, back, hnames⟩ := h.follows_iff.mp hy
  have hsplit : w.callNames = front ++ x :: y :: back := by
    rw [← hnames]
    simp
  exact Option.some.inj (h.head?_eq_of_follows hsplit hz)

theorem ne_of_follows (h : w.IsPlain) (hfollows : w.Follows x y) : x ≠ y := by
  have hpair : [x, y].Nodup := h.once.sublist (h.follows_iff.mp hfollows).sublist
  simpa using hpair

end WorkflowDef.IsPlain

namespace Program

/-- The workflows do nothing but call defined actions, none of them an action twice. -/
def IsPlain (p : Program) : Prop :=
  ∀ w ∈ p.workflows, w.IsPlain ∧ ∀ x ∈ w.callNames, p.Defines x

/-- Where a walk that has met some actions goes on from the last of them. -/
def nextName? (p : Program) (met : List String) (name : String) : Option String :=
  (p.workflows.flatMap fun w => w.nextNames name).find? fun other =>
    !met.contains other && decide (p.Defines other)

/-- A walk that has come to one of the names goes on to the next one, and ends after the last. -/
def IsCourse (p : Program) (names : List String) : Prop :=
  ∀ front x back, names = front ++ x :: back → p.nextName? (front ++ [x]) x = back.head?

variable {p : Program} {name : String} {i : Nat}

/-! ## Links of calls that follow each other -/

theorem filter_pairLinks (hi : p.actionNumber? name = some i) (pair : Element × Element) :
    ((p.pairLinks pair).filter fun l => l.source == i && l.kind.kind == .sequence) =
      ((if pair.1.calledName? = some name then pair.2.calledName? else none).bind fun other =>
        (p.actionNumber? other).map (Link.mk .sequence i)).toList := by
  obtain ⟨first, second⟩ := pair
  by_cases hfirst : first.calledName? = some name
  · have hnumber : p.calledNumber? first = some i := by
      rw [calledNumber?, hfirst, Option.bind_some, hi]
    rw [if_pos hfirst, pairLinks, hnumber, calledNumber?]
    cases second.calledName? with
    | none => rfl
    | some other =>
      rw [Option.bind_some, Option.bind_some]
      cases p.actionNumber? other with
      | none => rfl
      | some j => simp [LinkKind.kind]
  · rw [if_neg hfirst]
    refine List.filter_eq_nil_iff.mpr fun l hl hends => ?_
    unfold pairLinks at hl
    split at hl
    · next a b ha hb =>
      -- The number of the action that the link leaves is that of `name` only.
      cases List.mem_singleton.mp hl
      obtain ⟨x, hx, hxa⟩ := Option.bind_eq_some_iff.mp ha
      obtain rfl : a = i := beq_iff_eq.mp (Bool.and_eq_true_iff.mp hends).1
      have hsame := (getElem?_of_lastIndex? hxa).symm.trans (getElem?_of_lastIndex? hi)
      exact hfirst (hx.trans hsame)
    · cases hl

theorem filter_workflowLinks (hi : p.actionNumber? name = some i) (j : Nat) (w : WorkflowDef) :
    ((p.workflowLinks j w).filter fun l => l.source == i && l.kind.kind == .sequence) =
      (w.nextNames name).filterMap fun other =>
        (p.actionNumber? other).map (Link.mk .sequence i) := by
  have hstart : ∀ l ∈ p.startLinks j w, ¬ (l.source == i && l.kind.kind == .sequence) = true := by
    intro l hl
    obtain ⟨n, -, rfl⟩ := List.mem_map.mp hl
    simp [LinkKind.kind]
  rw [workflowLinks, List.filter_append, List.filter_eq_nil_iff.mpr hstart, List.nil_append,
    List.filter_flatMap, WorkflowDef.nextNames, List.filterMap_filterMap,
    List.filterMap_eq_flatMap_toList]
  simp only [filter_pairLinks hi]

/-- The sequence links that leave an action are told by what workflows call after it. -/
theorem filter_sequence (hi : p.actionNumber? name = some i) :
    (p.linkList.filter fun l => l.source == i && l.kind.kind == .sequence) =
      (p.workflows.flatMap fun w => w.nextNames name).filterMap fun other =>
        (p.actionNumber? other).map (Link.mk .sequence i) := by
  have houtputs : ∀ l ∈ p.actions.flatMap p.outputLinks,
      ¬ (l.source == i && l.kind.kind == .sequence) = true := by
    intro l hl
    obtain ⟨n, x, rfl⟩ := exists_of_mem_outputLinks hl
    simp [LinkKind.kind]
  have hinputs : ∀ l ∈ p.actions.flatMap p.inputLinks,
      ¬ (l.source == i && l.kind.kind == .sequence) = true := by
    intro l hl
    obtain ⟨n, x, rfl⟩ := exists_of_mem_inputLinks hl
    simp [LinkKind.kind]
  have hroles : ∀ l ∈ p.actions.flatMap p.roleLinks,
      ¬ (l.source == i && l.kind.kind == .sequence) = true := by
    intro l hl
    obtain ⟨r, n, rfl⟩ := exists_of_mem_roleLinks hl
    simp [LinkKind.kind]
  rw [linkList, List.filter_append, List.filter_append, List.filter_append, List.filter_flatten,
    map_mapIdx_of_forall p.workflowLinks _ (filter_workflowLinks hi),
    List.filter_eq_nil_iff.mpr houtputs, List.filter_eq_nil_iff.mpr hinputs,
    List.filter_eq_nil_iff.mpr hroles, List.append_nil, List.append_nil, List.append_nil,
    List.filterMap_flatMap, List.flatMap_def]

/-! ## Steps of walks -/

theorem contains_ownerId (met : List String) {other : String} (h : p.Defines other) :
    (met.map p.ownerId).contains (p.ownerId other) = met.contains other := by
  rw [Bool.eq_iff_iff, List.contains_iff_mem, List.contains_iff_mem]
  constructor
  · intro hmem
    obtain ⟨x, hx, hid⟩ := List.mem_map.mp hmem
    exact ownerId_inj h hid ▸ hx
  · exact List.mem_map_of_mem

/-- A sequence link to a name leads a walk on if an action of that name is defined and not met. -/
theorem any_sequence (met : List String) (i : Nat) (other : String) :
    ((p.actionNumber? other).map (Link.mk .sequence i)).any (fun l =>
      !(met.map p.ownerId).contains l.edge.target && p.graph.isAction l.edge.target) =
        (!met.contains other && decide (p.Defines other)) := by
  cases hother : p.actionNumber? other with
  | none =>
    have hundefined : ¬ p.Defines other := fun hdefines => by
      obtain ⟨j, hj⟩ : ∃ j, p.actionNumber? other = some j := exists_lastIndex? hdefines
      rw [hj] at hother
      cases hother
    simp [hundefined]
  | some j =>
    have hdefines := defines_of_actionNumber? hother
    have haction : p.graph.isAction (nodeId j) = true :=
      isAction_graph_iff.mpr ⟨j, lt_of_actionNumber? hother, rfl⟩
    show (!(met.map p.ownerId).contains (nodeId j) && p.graph.isAction (nodeId j)) = _
    rw [haction, ← ownerId_eq hother, contains_ownerId met hdefines, decide_eq_true hdefines]

/-- A walk goes on from an action to the first name that is called next, defined and not met. -/
theorem nextStep?_graph (met : List String) (h : p.Defines name) :
    p.graph.nextStep? (met.map p.ownerId) (p.ownerId name) =
      (p.nextName? met name).map p.ownerId := by
  obtain ⟨i, hi⟩ : ∃ i, p.actionNumber? name = some i := exists_lastIndex? h
  have hends : ∀ l : Link, (l.edge.kind == .sequence && l.edge.source == nodeId i) =
      (l.source == i && l.kind.kind == .sequence) := fun l => by
    rw [Link.edge_source_beq, Link.edge_kind, Bool.and_comm]
  unfold Graph.nextStep? Graph.outgoing nextName?
  rw [ownerId_eq hi, graph_edges, List.filter_filter, List.filter_map, List.map_map,
    List.find?_map]
  simp only [Function.comp_def, hends]
  rw [filter_eraseDups, find?_eraseDups, filter_sequence hi, List.find?_filterMap]
  simp only [any_sequence]
  cases hnext : (p.workflows.flatMap fun w => w.nextNames name).find? fun other =>
      !met.contains other && decide (p.Defines other) with
  | none => rfl
  | some other =>
    have hfound := List.find?_some hnext
    obtain ⟨j, hj⟩ : ∃ j, p.actionNumber? other = some j :=
      exists_lastIndex? (of_decide_eq_true (Bool.and_eq_true_iff.mp hfound).2)
    rw [Option.map_some, Option.bind_some, ownerId_eq hj, hj]
    rfl

theorem nextName?_eq_none_iff {met : List String} :
    p.nextName? met name = none ↔
      ∀ w ∈ p.workflows, ∀ x, w.Follows name x → p.Defines x → x ∈ met := by
  rw [nextName?, List.find?_eq_none]
  simp only [List.mem_flatMap, WorkflowDef.mem_nextNames_iff, Bool.and_eq_true, Bool.not_eq_true',
    decide_eq_true_eq, not_and]
  constructor
  · intro h w hw x hfollows hx
    by_contra hmet
    exact h x ⟨w, hw, hfollows⟩ (by simpa using hmet) hx
  · rintro h x ⟨w, hw, hfollows⟩ hmet hx
    simp [h w hw x hfollows hx] at hmet

theorem nextName?_congr {met met' : List String} (h : ∀ x, x ∈ met ↔ x ∈ met') :
    p.nextName? met name = p.nextName? met' name := by
  have hcontains : ∀ x, met.contains x = met'.contains x := by
    intro x
    rw [Bool.eq_iff_iff, List.contains_iff_mem, List.contains_iff_mem, h]
  simp only [nextName?, hcontains]

/-! ## Whole walks -/

/-- What holds at every place of a list holds at its head and at every place of its tail. -/
theorem forall_places_cons {α : Type} {motive : List α → α → List α → Prop} {y : α} {ys : List α} :
    (∀ front x back, y :: ys = front ++ x :: back → motive front x back) ↔
      motive [] y ys ∧ ∀ front x back, ys = front ++ x :: back → motive (y :: front) x back := by
  constructor
  · intro h
    exact ⟨h [] y ys rfl, fun front x back heq => h (y :: front) x back (congrArg (y :: ·) heq)⟩
  · rintro ⟨hhead, htail⟩ front x back heq
    cases front with
    | nil =>
      obtain ⟨rfl, rfl⟩ := List.cons.inj heq
      exact hhead
    | cons z front =>
      obtain ⟨rfl, hrest⟩ := List.cons.inj heq
      exact htail front x back hrest

/-- A walk that has met `before` and has come to `name` is the rest of the names if it goes on from
each of them to the next. -/
theorem walkFrom_eq_iff {before rest met : List String} (h : p.Defines name)
    (hrest : ∀ x ∈ rest, p.Defines x) (hmet : ∀ x, x ∈ met ↔ x ∈ before ++ [name]) :
    p.graph.walkFrom (met.map p.ownerId) (p.ownerId name) = rest.map p.ownerId ↔
      ∀ front x back, name :: rest = front ++ x :: back →
        p.nextName? (before ++ front ++ [x]) x = back.head? := by
  have hstep := nextStep?_graph met h
  rw [forall_places_cons, List.append_nil, ← nextName?_congr hmet]
  induction rest generalizing before met name with
  | nil =>
    rw [and_iff_left (by simp)]
    cases hnext : p.nextName? met name with
    | none =>
      rw [hnext] at hstep
      simp [Graph.walkFrom_none hstep]
    | some other =>
      rw [hnext] at hstep
      simp [Graph.walkFrom_some hstep]
  | cons y rest ih =>
    obtain ⟨hy, hmore⟩ := List.forall_mem_cons.mp hrest
    cases hnext : p.nextName? met name with
    | none =>
      rw [hnext] at hstep
      simp [Graph.walkFrom_none hstep]
    | some other =>
      rw [hnext] at hstep
      rw [Graph.walkFrom_some hstep, List.map_cons, List.cons.injEq, List.head?_cons,
        Option.some.injEq]
      by_cases hother : other = y
      · subst hother
        have hmet' : ∀ x, x ∈ other :: met ↔ x ∈ (before ++ [name]) ++ [other] := by
          intro x
          rw [List.mem_cons, List.mem_append, List.mem_singleton, hmet, or_comm]
        refine (and_iff_right rfl).trans ((ih hy hmore hmet' (nextStep?_graph _ hy)).trans ?_)
        rw [and_iff_right rfl, forall_places_cons, nextName?_congr hmet']
        simp
      · refine iff_of_false (fun heq => hother (ownerId_inj hy heq.1)) fun heq => hother heq.1

/-- A walk goes along the names if it starts at the first and keeps to them. -/
theorem sequenceIds_eq_iff {w : WorkflowDef} {names : List String}
    (hw : p.workflows[i]? = some w) (hhead : names.head? = (p.leadingCalls w.elements).head?)
    (hnames : ∀ x ∈ names, p.Defines x) :
    p.graph.sequenceIds (nodeId (p.workflowBase + i)) = names.map p.ownerId ↔
      p.IsCourse names := by
  unfold Graph.sequenceIds
  rw [startOf?_graph hw, ← hhead]
  cases names with
  | nil => simp [IsCourse]
  | cons x names =>
    obtain ⟨hx, hmore⟩ := List.forall_mem_cons.mp hnames
    show p.ownerId x :: p.graph.walkFrom [p.ownerId x] (p.ownerId x) = _ ↔ _
    rw [List.map_cons, List.cons.injEq, and_iff_right rfl]
    exact walkFrom_eq_iff hx hmore (show ∀ y, y ∈ [x] ↔ y ∈ [] ++ [x] from fun y => Iff.rfl)

/-! ## Plain workflows -/

theorem leadingCalls_of_plain {w : WorkflowDef} (h : w.IsPlain)
    (hdefined : ∀ x ∈ w.callNames, p.Defines x) : p.leadingCalls w.elements = w.callNames := by
  have hcalls := h.calls
  generalize w.callNames = names at *
  generalize w.elements = elements at hcalls
  induction elements generalizing names with
  | nil => exact (List.map_eq_nil_iff.mp hcalls.symm).symm
  | cons element elements ih =>
    cases names with
    | nil => cases hcalls
    | cons x names =>
      obtain ⟨helement, hrest⟩ := List.cons.inj hcalls
      obtain ⟨hx, hmore⟩ := List.forall_mem_cons.mp hdefined
      cases element with
      | decision => cases helement
      | call other args =>
        cases helement
        rw [leadingCalls, if_pos hx, ih names hmore hrest]

theorem find?_nextNames_eq_none {w : WorkflowDef} {met : List String} (h : w.IsPlain)
    (hdefined : ∀ x ∈ w.callNames, p.Defines x) :
    (w.nextNames name).find? (fun x => !met.contains x && decide (p.Defines x)) = none ↔
      ∀ x, w.Follows name x → x ∈ met := by
  rw [List.find?_eq_none]
  refine forall_congr' fun x => ?_
  rw [WorkflowDef.mem_nextNames_iff]
  refine imp_congr_right fun hfollows => ?_
  have hx : p.Defines x := hdefined x ((h.follows_iff.mp hfollows).subset (by simp))
  simp [hx]

theorem find?_nextNames_eq_some {w : WorkflowDef} {met : List String} {other : String}
    (h : w.IsPlain) (hdefined : ∀ x ∈ w.callNames, p.Defines x) :
    (w.nextNames name).find? (fun x => !met.contains x && decide (p.Defines x)) = some other ↔
      w.Follows name other ∧ other ∉ met := by
  constructor
  · intro hfind
    have hunmet := List.find?_some hfind
    rw [Bool.and_eq_true, Bool.not_eq_true'] at hunmet
    exact ⟨WorkflowDef.mem_nextNames_iff.mp (List.mem_of_find?_eq_some hfind),
      by simpa using hunmet.1⟩
  · rintro ⟨hfollows, hunmet⟩
    cases hfind : (w.nextNames name).find? fun x => !met.contains x && decide (p.Defines x) with
    | none => exact absurd ((find?_nextNames_eq_none h hdefined).mp hfind other hfollows) hunmet
    | some x =>
      have hx := WorkflowDef.mem_nextNames_iff.mp (List.mem_of_find?_eq_some hfind)
      rw [h.follows_unique hx hfollows]

/-- The walk goes on along the first workflow that leads to an action not met. -/
theorem nextName?_eq_some_iff {met : List String} {other : String} (hplain : p.IsPlain) :
    p.nextName? met name = some other ↔ ∃ early w late, p.workflows = early ++ w :: late ∧
      (w.Follows name other ∧ other ∉ met) ∧ ∀ v ∈ early, ∀ x, v.Follows name x → x ∈ met := by
  rw [nextName?, List.find?_flatMap, List.findSome?_eq_some_iff]
  refine exists_congr fun early => exists_congr fun w => exists_congr fun late =>
    and_congr_right fun hsplit => ?_
  have hw := hplain w (by simp [hsplit])
  refine and_congr (find?_nextNames_eq_some hw.1 hw.2) (forall₂_congr fun v hmem => ?_)
  have hv := hplain v (by simp [hsplit, hmem])
  exact find?_nextNames_eq_none hv.1 hv.2

end Program

end RoleFlow
