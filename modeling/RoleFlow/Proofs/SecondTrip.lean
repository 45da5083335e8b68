import RoleFlow.Proofs.Bindings
import RoleFlow.Proofs.Courses

/-!
# A second trip through the graph

After a trip the workflows do nothing but call actions, and each of them is a walk. Their graph has
those sequence edges only that walks have used, and has them in the order in which the walks come.
So on a second trip a walk may take another way than on the first: the way of an earlier workflow
that calls the same action.

Results:
* `isCourse_iff_keepsCourse`: where a workflow goes the same way again.
* `program_graph_twice`: what a second trip leaves as it is.
-/

namespace RoleFlow

/-- Wherever an earlier workflow goes on from one of its calls to another action than this workflow
does, and to one that this workflow has not called yet, a still earlier one goes on as this does. -/
def WorkflowDef.KeepsCourse (before : List WorkflowDef) (w : WorkflowDef) : Prop :=
  ∀ front x y back, w.callNames = front ++ x :: y :: back →
    ∀ early v late, before = early ++ v :: late →
      ∀ z, v.Follows x z → z ∉ front → z ≠ y → ∃ u ∈ early, u.Follows x y

namespace Program

variable {p : Program}

/-! ## Courses of plain workflows -/

/-- Of two places in one list either is before the other, or they are the same. -/
theorem place_cases {α : Type} {front front' back back' : List α} {x x' : α}
    (h : front ++ x :: back = front' ++ x' :: back') :
    (∃ between, front' = front ++ x :: between) ∨ (front = front' ∧ x = x') ∨
      ∃ between, front = front' ++ x' :: between := by
  rcases List.append_eq_append_iff.mp h with ⟨more, rfl, hmore⟩ | ⟨more, rfl, hmore⟩
  · cases more with
    | nil => exact .inr (.inl ⟨(List.append_nil front).symm, (List.cons.inj hmore).1⟩)
    | cons y more =>
      obtain ⟨rfl, -⟩ := List.cons.inj hmore
      exact .inl ⟨more, rfl⟩
  · cases more with
    | nil => exact .inr (.inl ⟨List.append_nil front', (List.cons.inj hmore).1.symm⟩)
    | cons y more =>
      obtain ⟨rfl, -⟩ := List.cons.inj hmore
      exact .inr (.inr ⟨more, rfl⟩)

theorem exists_place_of_getElem? {α : Type} {xs : List α} {i : Nat} {x : α}
    (h : xs[i]? = some x) : ∃ front back, xs = front ++ x :: back ∧ front.length = i := by
  obtain ⟨hi, rfl⟩ := List.getElem?_eq_some_iff.mp h
  refine ⟨xs.take i, xs.drop (i + 1), ?_, List.length_take_of_le hi.le⟩
  rw [List.cons_getElem_drop_succ, List.take_append_drop]

/-- A walk along the calls of a workflow keeps to them if the workflow keeps its course, and the
walk cannot go on after the last one. -/
theorem isCourse_iff_keepsCourse (hplain : p.IsPlain) {before after : List WorkflowDef}
    {w : WorkflowDef} (hsplit : p.workflows = before ++ w :: after)
    (hend : ∀ front x, w.callNames = front ++ [x] → p.nextName? (front ++ [x]) x = none) :
    p.IsCourse w.callNames ↔ w.KeepsCourse before := by
  have hw := hplain w (by simp [hsplit])
  constructor
  · -- The walk goes on to `y` along a workflow `u`. It cannot be that `v` comes before `u`, as the
    -- walk would have gone on to `z`, and `v` is not `u`, since it knows one way on only.
    intro hcourse front x y back hnames early v late hbefore z hz hfront hne
    have hv : v.IsPlain := (hplain v (by simp [hsplit, hbefore])).1
    obtain ⟨early', u, late', hsplit', ⟨hy, -⟩, hearly⟩ :=
      (nextName?_eq_some_iff hplain).mp (hcourse front x (y :: back) hnames)
    have hplaces : early' ++ u :: late' = early ++ v :: (late ++ w :: after) := by
      rw [← hsplit', hsplit, hbefore]
      simp
    rcases place_cases hplaces with ⟨between, rfl⟩ | ⟨-, rfl⟩ | ⟨between, rfl⟩
    · exact ⟨u, by simp, hy⟩
    · exact absurd (hv.follows_unique hz hy) hne
    · rcases List.mem_append.mp (hearly v (by simp) z hz) with hmem | hmem
      · exact absurd hmem hfront
      · exact absurd (List.mem_singleton.mp hmem).symm (hv.ne_of_follows hz)
  · -- The walk goes on to some `z`, since `w` itself leads to `y`. If `z` is not `y`, the workflow
    -- along which it goes on comes before `w`, and one before that one leads to `y`.
    intro hkeeps front x back hnames
    cases back with
    | nil => exact hend front x hnames
    | cons y back =>
      have hy : w.Follows x y := hw.1.follows_iff.mpr ⟨front, back, by simp [hnames]⟩
      have hunmet : y ∉ front ++ [x] := by
        have honce := hw.1.once
        rw [hnames, List.append_cons] at honce
        exact fun hmem => (List.nodup_append.mp honce).2.2 y hmem y (by simp) rfl
      cases hnext : p.nextName? (front ++ [x]) x with
      | none =>
        have hdefined : p.Defines y := hw.2 y (by simp [hnames])
        exact absurd (nextName?_eq_none_iff.mp hnext w (by simp [hsplit]) y hy hdefined) hunmet
      | some z =>
        obtain ⟨early, v, late, hsplit', ⟨hz, hzunmet⟩, hearly⟩ :=
          (nextName?_eq_some_iff hplain).mp hnext
        rw [List.head?_cons, Option.some.injEq]
        by_contra hne
        rcases place_cases (hsplit'.symm.trans hsplit) with ⟨between, hbefore⟩ | ⟨-, rfl⟩ |
          ⟨between, rfl⟩
        · obtain ⟨u, hu, huy⟩ := hkeeps front x y back hnames early v between hbefore z hz
            (fun hmem => hzunmet (List.mem_append_left _ hmem)) hne
          exact hunmet (hearly u hu y huy)
        · exact hne (hw.1.follows_unique hz hy)
        · exact hunmet (hearly w (by simp) y hy)

/-! ## After a trip -/

/-- What a workflow calls that goes along the names. -/
def callsAlong (p : Program) (names : List String) : List Element :=
  names.map fun x => .call x (p.argumentsFor x)

theorem callNames_callsAlong (name : String) (names : List String) :
    (WorkflowDef.mk name (p.callsAlong names)).callNames = names := by
  show (names.map _).filterMap Element.calledName? = names
  rw [List.filterMap_map]
  exact List.filterMap_some

theorem isPlain_callsAlong (name : String) {names : List String} (h : names.Nodup) :
    (WorkflowDef.mk name (p.callsAlong names)).IsPlain := by
  refine ⟨?_, ?_⟩
  · rw [callNames_callsAlong]
    exact List.map_map
  · rwa [callNames_callsAlong]

theorem exists_course {i : Nat} {w : WorkflowDef} (hw : p.workflows[i]? = some w) :
    ∃ names, p.Tells w names ∧
      p.graph.sequenceIds (nodeId (p.workflowBase + i)) = names.map p.ownerId ∧
      p.graph.program.workflows[i]? = some ⟨w.name, p.callsAlong names⟩ := by
  obtain ⟨names, hids, htells⟩ := sequenceIds_graph hw
  refine ⟨names, htells, hids, ?_⟩
  rw [workflows_program_graph_eq, List.getElem?_mapIdx, hw]
  have helements : (p.graph.workflowOf (p.workflowNode i w)).elements = p.callsAlong names :=
    elements_workflowOf hids htells.defined
  exact congrArg (fun elements => some (WorkflowDef.mk w.name elements)) helements

theorem exists_course_of_program_graph {i : Nat} {v : WorkflowDef}
    (hv : p.graph.program.workflows[i]? = some v) :
    ∃ w, p.workflows[i]? = some w ∧ p.Tells w v.callNames ∧ p.IsCourse v.callNames ∧
      v = ⟨w.name, p.callsAlong v.callNames⟩ := by
  have hlength : i < p.workflows.length := by
    have := (List.getElem?_eq_some_iff.mp hv).1
    rwa [workflows_program_graph_eq, List.length_mapIdx] at this
  have hw := List.getElem?_eq_getElem hlength
  obtain ⟨names, htells, hids, hback⟩ := exists_course hw
  obtain rfl := Option.some.inj (hback.symm.trans hv)
  rw [callNames_callsAlong]
  exact ⟨_, hw, htells, (sequenceIds_eq_iff hw htells.head htells.defined).mp hids, rfl⟩

/-! ## The program after a trip -/

theorem defines_program_graph {name : String} : p.graph.program.Defines name ↔ p.Defines name := by
  unfold Defines
  rw [actions_program_graph, List.map_map]
  rfl

theorem dataNames_program_graph (p : Program) : p.graph.program.dataNames = p.dataNames := by
  unfold dataNames
  rw [actions_program_graph, List.flatMap_map]
  rfl

theorem actionNumber?_program_graph (p : Program) (name : String) :
    p.graph.program.actionNumber? name = p.actionNumber? name := by
  unfold actionNumber?
  rw [actions_program_graph, List.map_map]
  rfl

theorem argumentsFor_program_graph (p : Program) (name : String) :
    p.graph.program.argumentsFor name = p.argumentsFor name := by
  have hdeclared : p.graph.program.declaredInputsFor name = p.declaredInputsFor name := by
    unfold declaredInputsFor
    rw [actionNumber?_program_graph, actions_program_graph]
    cases p.actionNumber? name with
    | none => rfl
    | some i =>
      rw [Option.bind_some, Option.bind_some, List.getElem?_map]
      cases p.actions[i]? with
      | none => rfl
      | some a => rfl
  have hsupplied : p.graph.program.suppliedInputs name = p.suppliedInputs name := by
    unfold suppliedInputs
    rw [dataNames_program_graph, actions_program_graph, List.filter_map, List.flatMap_map]
    rfl
  rw [argumentsFor, argumentsFor, hdeclared, hsupplied]

theorem isPlain_program_graph (p : Program) : p.graph.program.IsPlain := by
  intro v hv
  obtain ⟨i, hi⟩ := List.mem_iff_getElem?.mp hv
  obtain ⟨w, hw, htells, -, heq⟩ := exists_course_of_program_graph hi
  refine ⟨heq ▸ isPlain_callsAlong w.name htells.nodup, fun x hx => ?_⟩
  exact defines_program_graph.mpr (htells.defined x hx)

/-- What follows a call after the trip did so before. -/
theorem follows_of_program_graph {v : WorkflowDef} {x y : String}
    (hv : v ∈ p.graph.program.workflows) (hfollows : v.Follows x y) :
    p.Defines y ∧ ∃ u ∈ p.workflows, u.Follows x y := by
  obtain ⟨i, hi⟩ := List.mem_iff_getElem?.mp hv
  obtain ⟨w, hw, htells, -, -⟩ := exists_course_of_program_graph hi
  have hpair := (p.isPlain_program_graph v hv).1.follows_iff.mp hfollows
  have hnext := List.IsChain.infix htells.follows hpair
  exact ⟨htells.defined y (hpair.subset (by simp)), List.isChain_pair.mp hnext⟩

/-- After the last call of a workflow a walk of the second trip ends, as that of the first did:
every way on after the first trip is one before it. -/
theorem nextName?_program_graph_end {i : Nat} {v : WorkflowDef}
    (hv : p.graph.program.workflows[i]? = some v) {front : List String} {x : String}
    (hnames : v.callNames = front ++ [x]) :
    p.graph.program.nextName? (front ++ [x]) x = none := by
  obtain ⟨-, -, -, hcourse, -⟩ := exists_course_of_program_graph hv
  have hend := nextName?_eq_none_iff.mp (hcourse front x [] hnames)
  refine nextName?_eq_none_iff.mpr fun u hu y hfollows _ => ?_
  obtain ⟨hdefined, u', hu', hfollows'⟩ := follows_of_program_graph hu hfollows
  exact hend u' hu' y hfollows' hdefined

theorem map_ownerId_inj {names names' : List String} (h : ∀ x ∈ names', p.Defines x)
    (hids : names.map p.ownerId = names'.map p.ownerId) : names = names' := by
  induction names' generalizing names with
  | nil => exact List.map_eq_nil_iff.mp hids
  | cons y names' ih =>
    obtain ⟨hy, hmore⟩ := List.forall_mem_cons.mp h
    cases names with
    | nil => cases hids
    | cons x names =>
      obtain ⟨hid, hrest⟩ := List.cons.inj hids
      rw [ownerId_inj hy hid, ih hmore hrest]

/-- A second trip leaves a workflow as it is if it goes the same way again. -/
theorem workflows_program_graph_twice {before after : List WorkflowDef} {v : WorkflowDef}
    (hsplit : p.graph.program.workflows = before ++ v :: after) :
    p.graph.program.graph.program.workflows[before.length]? = some v ↔ v.KeepsCourse before := by
  have hv : p.graph.program.workflows[before.length]? = some v := by simp [hsplit]
  have hplain := p.isPlain_program_graph
  obtain ⟨hwplain, hdefined⟩ := hplain v (List.mem_of_getElem? hv)
  have hleading := leadingCalls_of_plain hwplain hdefined
  rw [← isCourse_iff_keepsCourse hplain hsplit fun front x => nextName?_program_graph_end hv,
    ← sequenceIds_eq_iff hv (congrArg List.head? hleading.symm) hdefined]
  obtain ⟨names, htells, hids, hback⟩ := exists_course hv
  obtain ⟨w, -, -, -, heq⟩ := exists_course_of_program_graph hv
  rw [hback, hids]
  constructor
  · intro hsame
    have hnames := congrArg WorkflowDef.callNames (Option.some.inj hsame)
    rw [callNames_callsAlong] at hnames
    rw [hnames]
  · intro hsame
    have hcalls : p.graph.program.callsAlong names = p.callsAlong v.callNames := by
      rw [map_ownerId_inj hdefined hsame]
      exact List.map_congr_left fun x _ => by rw [argumentsFor_program_graph]
    rw [hcalls, heq]
    rw [callNames_callsAlong]

theorem names_program_graph (p : Program) :
    p.graph.program.workflows.map (·.name) = p.workflows.map (·.name) := by
  rw [workflows_program_graph_eq]
  exact map_mapIdx_of_forall (fun i w => p.graph.workflowOf (p.workflowNode i w)) _
    (fun _ _ => rfl) p.workflows

/-- A second trip changes nothing but the calls of workflows that do not keep their course. -/
theorem program_graph_twice (p : Program) :
    let q := p.graph.program
    let r := q.graph.program
    r.actions = q.actions ∧ r.entities = q.entities ∧ r.roles = q.roles ∧
      r.workflows.map (·.name) = q.workflows.map (·.name) ∧
      (∀ before v after, q.workflows = before ++ v :: after →
        (r.workflows[before.length]? = some v ↔ v.KeepsCourse before)) ∧
      (r = q ↔ ∀ before v after, q.workflows = before ++ v :: after → v.KeepsCourse before) := by
  intro q r
  have hactions : r.actions = q.actions := by
    show q.graph.program.actions = q.actions
    rw [actions_program_graph]
    refine map_eq_self fun a ha => ?_
    rw [actions_program_graph] at ha
    obtain ⟨b, -, rfl⟩ := List.mem_map.mp ha
    exact b.told_told
  have hroles : r.roles = q.roles := by
    show q.graph.program.roles = q.roles
    rw [roles_program_graph]
    refine map_eq_self fun x hx => ?_
    rw [roles_program_graph] at hx
    obtain ⟨y, -, rfl⟩ := List.mem_map.mp hx
    exact y.told_told
  have hkeeps : ∀ before v after, q.workflows = before ++ v :: after →
      (r.workflows[before.length]? = some v ↔ v.KeepsCourse before) :=
    fun _ _ _ => workflows_program_graph_twice
  refine ⟨hactions, q.entities_program_graph, hroles, q.names_program_graph, hkeeps, ?_⟩
  constructor
  · intro hsame before v after hsplit
    rw [← hkeeps before v after hsplit, hsame, hsplit]
    simp
  · intro hall
    refine eq_of_parts hactions q.entities_program_graph hroles (List.ext_getElem? fun i => ?_)
    cases hv : q.workflows[i]? with
    | none =>
      have hlength : r.workflows.length = q.workflows.length := by
        simpa using congrArg List.length q.names_program_graph
      exact List.getElem?_eq_none_iff.mpr (hlength.trans_le (List.getElem?_eq_none_iff.mp hv))
    | some v =>
      obtain ⟨before, after, hsplit, rfl⟩ := exists_place_of_getElem? hv
      exact (hkeeps before v after hsplit).mpr (hall before v after hsplit)

/-- On the first trip `V`, which has met `A`, goes on from `X` to `B`, and `U` goes from `X` to `A`.
So what `V` calls after `X` now comes first, and on the second trip `U` goes to `B`, too. -/
theorem trip_changes_again :
    let document := "action A by AI \x7b\x7d action X by AI \x7b\x7d " ++
      "action B by AI \x7b\x7d workflow V \x7b A; X; A; \x7d workflow U \x7b X; B; \x7d"
    ∃ p, (parse document).value = .ok p ∧
      p.graph.program.workflows.map WorkflowDef.callNames = [["A", "X", "B"], ["X", "A"]] ∧
      p.graph.program.graph.program.workflows.map WorkflowDef.callNames =
        [["A", "X", "B"], ["X", "B"]] ∧
      p.graph.program.graph.program ≠ p.graph.program := by
  intro document
  let p : Program :=
    ⟨[⟨"A", .ai, none, [], "", [], []⟩, ⟨"X", .ai, none, [], "", [], []⟩,
        ⟨"B", .ai, none, [], "", [], []⟩], [], [],
      [⟨"V", [.call "A" [], .call "X" [], .call "A" []]⟩, ⟨"U", [.call "X" [], .call "B" []]⟩]⟩
  exact ⟨p, parse_of_toOption (by decide +kernel), by decide +kernel, by decide +kernel,
    by decide +kernel⟩

end Program

end RoleFlow
