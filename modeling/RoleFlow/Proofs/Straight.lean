import RoleFlow.Proofs.Bindings
import RoleFlow.Proofs.Courses

/-!
# Straight programs

A program is straight if its workflows do nothing but call its actions, no action more than once in
the whole program, and pass on by name the inputs that some action puts out. Every walk then has one
way on only, and the graph of the program tells all of it.

Results:
* `program_graph_of_straight`: straight programs are what they were after a trip through the graph.
-/

namespace RoleFlow

namespace Program

/-- The inputs of an action that some action puts out, each once, passed on by name. -/
def passedOn (p : Program) (a : ActionDef) : List Argument :=
  (a.inputs.eraseDups.filter fun x => p.actions.any fun b => b.outputs.contains x).map fun x =>
    ⟨some x, .identifier x⟩

/-- The workflows call defined actions in order, none of them twice, and nothing else happens. -/
structure IsStraight (p : Program) : Prop where
  roleName : ∀ a ∈ p.actions, a.roleName.isSome ↔ a.actor = .role
  kind : ∀ r ∈ p.roles, r.kind ≠ some .role
  distinct : (p.actions.map (·.name)).Nodup
  calls : ∀ w ∈ p.workflows, ∀ element ∈ w.elements,
    ∃ a ∈ p.actions, element = .call a.name (p.passedOn a)
  once : (p.workflows.flatMap WorkflowDef.callNames).Nodup

theorem isStraight_iff {p : Program} :
    p.IsStraight ↔ (∀ a ∈ p.actions, a.roleName.isSome ↔ a.actor = .role) ∧
      (∀ r ∈ p.roles, r.kind ≠ some .role) ∧ (p.actions.map (·.name)).Nodup ∧
      (∀ w ∈ p.workflows, ∀ element ∈ w.elements,
        ∃ a ∈ p.actions, element = .call a.name (p.passedOn a)) ∧
      (p.workflows.flatMap WorkflowDef.callNames).Nodup :=
  ⟨fun ⟨h₁, h₂, h₃, h₄, h₅⟩ => ⟨h₁, h₂, h₃, h₄, h₅⟩, fun ⟨h₁, h₂, h₃, h₄, h₅⟩ =>
    ⟨h₁, h₂, h₃, h₄, h₅⟩⟩

instance (p : Program) : Decidable p.IsStraight := decidable_of_iff _ isStraight_iff.symm

end Program

namespace Program

variable {p : Program}

/-! ## Arguments -/

theorem filter_name_of_nodup {actions : List ActionDef} {a : ActionDef}
    (hnodup : (actions.map (·.name)).Nodup) (ha : a ∈ actions) :
    actions.filter (·.name == a.name) = [a] := by
  obtain ⟨front, back, rfl⟩ := List.append_of_mem ha
  have hinj := List.inj_on_of_nodup_map hnodup
  have hother : ∀ b ∈ front ++ back, ¬ (b.name == a.name) = true := by
    intro b hb hname
    have hmem : b ∈ front ++ a :: back := by
      rcases List.mem_append.mp hb with hb | hb
      · exact List.mem_append_left _ hb
      · exact List.mem_append_right _ (List.mem_cons_of_mem _ hb)
    obtain rfl := hinj hmem ha (beq_iff_eq.mp hname)
    have hnot := (List.nodup_middle.mp hnodup.of_map).notMem
    exact hnot hb
  rw [List.filter_append, List.filter_cons_of_pos (p := fun b : ActionDef => b.name == a.name)
      (beq_self_eq_true a.name),
    List.filter_eq_nil_iff.mpr fun b hb => hother b (List.mem_append_left _ hb),
    List.filter_eq_nil_iff.mpr fun b hb => hother b (List.mem_append_right _ hb),
    List.nil_append]

theorem contains_dataNames (p : Program) (name : String) :
    p.dataNames.contains name = p.actions.any fun a => a.outputs.contains name := by
  rw [Bool.eq_iff_iff, List.contains_iff_mem, mem_dataNames_iff]
  simp

/-- Where no name is shared, a call passes on what the inputs of its action bring. -/
theorem argumentsFor_of_distinct (hdistinct : (p.actions.map (·.name)).Nodup) {a : ActionDef}
    (ha : a ∈ p.actions) : p.argumentsFor a.name = p.passedOn a := by
  obtain ⟨i, hi⟩ := exists_actionNumber? ha
  have hdeclared : p.declaredInputsFor a.name = a.inputs := by
    have hget := getElem?_of_lastIndex? hi
    rw [List.getElem?_map] at hget
    obtain ⟨b, hb, hname⟩ := Option.map_eq_some_iff.mp hget
    obtain rfl := List.inj_on_of_nodup_map hdistinct (List.mem_of_getElem? hb) ha hname
    rw [declaredInputsFor, hi, Option.bind_some, hb]
    rfl
  have hsupplied : p.suppliedInputs a.name = a.inputs.filter p.dataNames.contains := by
    rw [suppliedInputs, filter_name_of_nodup hdistinct ha, List.flatMap_singleton]
  have hall : ∀ x ∈ (a.inputs.filter p.dataNames.contains).eraseDups,
      a.inputs.contains x = true := fun x hx =>
    List.contains_iff_mem.mpr (List.mem_filter.mp (List.mem_eraseDups.mp hx)).1
  have hcontains : ∀ x ∈ a.inputs.eraseDups, p.dataNames.contains x =
      p.actions.any fun b => b.outputs.contains x := fun x _ => p.contains_dataNames x
  rw [argumentsFor, hdeclared, hsupplied, List.filter_eq_self.mpr hall, ← filter_eraseDups,
    List.filter_congr hcontains]
  rfl

/-! ## Workflows -/

theorem eq_of_shared {α β : Type} {f : α → List β} {xs : List α} {x y : α} {z : β}
    (hnodup : (xs.flatMap f).Nodup) (hx : x ∈ xs) (hy : y ∈ xs) (hzx : z ∈ f x) (hzy : z ∈ f y) :
    x = y := by
  have : Std.Symm (Function.onFun List.Disjoint f) := ⟨fun _ _ h => List.disjoint_symm h⟩
  by_contra hne
  exact (List.nodup_flatMap.mp hnodup).2.forall hx hy hne hzx hzy

namespace IsStraight

variable {w : WorkflowDef}

theorem isPlain (h : p.IsStraight) (hw : w ∈ p.workflows) : w.IsPlain := by
  refine ⟨?_, (List.nodup_flatMap.mp h.once).1 w hw⟩
  have hcalls := h.calls w hw
  unfold WorkflowDef.callNames
  generalize w.elements = elements at hcalls
  induction elements with
  | nil => rfl
  | cons element elements ih =>
    obtain ⟨⟨a, -, rfl⟩, hrest⟩ := List.forall_mem_cons.mp hcalls
    rw [List.map_cons, ih hrest]
    rfl

theorem defined (h : p.IsStraight) (hw : w ∈ p.workflows) : ∀ x ∈ w.callNames, p.Defines x := by
  intro x hx
  obtain ⟨element, helement, hname⟩ := List.mem_filterMap.mp hx
  obtain ⟨a, ha, rfl⟩ := h.calls w hw element helement
  obtain rfl := Option.some.inj hname
  exact List.mem_map_of_mem ha

theorem leadingCalls_eq (h : p.IsStraight) (hw : w ∈ p.workflows) :
    p.leadingCalls w.elements = w.callNames :=
  leadingCalls_of_plain (h.isPlain hw) (h.defined hw)

theorem elements_eq (h : p.IsStraight) (hw : w ∈ p.workflows) :
    w.elements = w.callNames.map fun x => .call x (p.argumentsFor x) := by
  have hcalls := h.calls w hw
  unfold WorkflowDef.callNames
  generalize w.elements = elements at hcalls
  induction elements with
  | nil => rfl
  | cons element elements ih =>
    obtain ⟨⟨a, ha, rfl⟩, hrest⟩ := List.forall_mem_cons.mp hcalls
    rw [List.filterMap_cons_some (f := Element.calledName?) rfl, List.map_cons, ← ih hrest,
      argumentsFor_of_distinct h.distinct ha]

/-- A call that is made once is followed by one call at most. -/
theorem unmixed (h : p.IsStraight) (hw : w ∈ p.workflows) : p.Unmixed w := by
  unfold Unmixed
  rw [h.leadingCalls_eq hw]
  refine ⟨(List.nodup_flatMap.mp h.once).1 w hw, fun v hv x hx y hfollows _ => ?_⟩
  have hnext : [x, y] <:+: v.callNames := (h.isPlain hv).follows_iff.mp hfollows
  rwa [eq_of_shared h.once hw hv hx (hnext.subset List.mem_cons_self)]

theorem workflowOf_eq (h : p.IsStraight) {i : Nat} (hw : p.workflows[i]? = some w) :
    p.graph.workflowOf (p.workflowNode i w) = w := by
  have hmem := List.mem_of_getElem? hw
  have hids : p.graph.sequenceIds (p.workflowNode i w).id = w.callNames.map p.ownerId :=
    h.leadingCalls_eq hmem ▸ sequenceIds_of_unmixed hw (h.unmixed hmem)
  have helements : (p.graph.workflowOf (p.workflowNode i w)).elements = w.elements :=
    (elements_workflowOf hids (h.defined hmem)).trans (h.elements_eq hmem).symm
  exact congrArg (WorkflowDef.mk w.name) helements

end IsStraight

/-- Straight programs are what they were after a trip through the graph. -/
theorem program_graph_of_straight (h : p.IsStraight) : p.graph.program = p := by
  have hactions : p.graph.program.actions = p.actions :=
    p.actions_program_graph.trans (map_eq_self fun a ha => ActionDef.told_eq (h.roleName a ha))
  have hroles : p.graph.program.roles = p.roles :=
    p.roles_program_graph.trans (map_eq_self fun r hr => RoleDef.told_eq (h.kind r hr))
  have hworkflows : p.graph.program.workflows = p.workflows := by
    rw [workflows_program_graph_eq]
    refine List.ext_getElem? fun i => ?_
    rw [List.getElem?_mapIdx]
    cases hw : p.workflows[i]? with
    | none => rfl
    | some w => exact congrArg some (h.workflowOf_eq hw)
  exact eq_of_parts hactions p.entities_program_graph hroles hworkflows

theorem program_graph_of_straight_two :
    let p : Program :=
      ⟨[⟨"Draft", .ai, none, [⟨"topic", "Text"⟩], "Writes it", ["facts", "notes"],
            ["draft", "facts"]⟩,
          ⟨"Check", .role, some "Editor", [], "", ["draft", "facts", "draft"], ["verdict"]⟩,
          ⟨"Ask", .human, none, [], "Asks around", ["verdict"], []⟩],
        [⟨"Text", [⟨"length", "Number"⟩]⟩], [⟨"Editor", "", some .human⟩, ⟨"Clerk", "Files", none⟩],
        [⟨"Main", [.call "Draft" [⟨some "facts", .identifier "facts"⟩],
            .call "Check"
              [⟨some "draft", .identifier "draft"⟩, ⟨some "facts", .identifier "facts"⟩]]⟩,
          ⟨"Empty", []⟩, ⟨"Other", [.call "Ask" [⟨some "verdict", .identifier "verdict"⟩]]⟩]⟩
    p.IsStraight ∧ p.graph.program = p := by
  intro p
  have hstraight : p.IsStraight := by decide +kernel
  exact ⟨hstraight, program_graph_of_straight hstraight⟩

end Program

end RoleFlow
