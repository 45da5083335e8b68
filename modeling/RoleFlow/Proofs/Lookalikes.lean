import RoleFlow.Proofs.CleanGraphs
import RoleFlow.Proofs.Numbers

/-!
# Programs that are written alike

A trip through the graph leaves workflows of calls that pass on data by name. Such a workflow is
told by its text: read from the left, the text of another one goes on differently as soon as there
is a decision, or an argument that is no such binding. But a truth value and an infinite number are
written as words, so that an argument with this word as its name looks like a binding.

Main definitions:
* `Program.withBindings`: the program with a binding for every argument that looks like one.

Results:
* `Argument.withBinding_of_append`, `withBindings_of_body`: what is written like a binding, and like
  a body of bindings.
* `render_program_graph_iff`: when a program is written after a trip as it was before.
* `withBindings_eq_self_iff`: the arguments that look like bindings.
-/

namespace RoleFlow

/-! ## Bindings in place of what looks like them -/

/-- The argument, or the binding that it looks like. -/
def Argument.withBinding (a : Argument) : Argument :=
  match a.name with
  | some x => if a.value.render = x then bindingOf x else a
  | none => a

/-- The element with bindings for the arguments of a call that look like them. -/
def Element.withBindings : Element → Element
  | .call name args => .call name (args.map Argument.withBinding)
  | element => element

/-- The workflow with bindings for the arguments of its own calls that look like them. -/
def WorkflowDef.withBindings (w : WorkflowDef) : WorkflowDef :=
  { w with elements := w.elements.map Element.withBindings }

/-- The program with bindings for the arguments of calls outside decisions that look like them. -/
def Program.withBindings (p : Program) : Program :=
  { p with workflows := p.workflows.map WorkflowDef.withBindings }

theorem Argument.withBinding_named (x : String) (value : Expression) :
    (Argument.mk (some x) value).withBinding =
      if value.render = x then bindingOf x else ⟨some x, value⟩ := rfl

theorem Argument.render_withBinding (a : Argument) : a.withBinding.render = a.render := by
  obtain ⟨_ | x, value⟩ := a
  · rfl
  · rw [withBinding_named]
    split
    · next h =>
      subst h
      rfl
    · rfl

theorem Element.lines_withBindings (depth : Nat) (element : Element) :
    element.withBindings.lines depth = element.lines depth := by
  cases element with
  | call name args =>
    have hrender : Argument.render ∘ Argument.withBinding = Argument.render :=
      funext Argument.render_withBinding
    rw [withBindings, lines, lines, renderCall, renderCall, List.isEmpty_map, List.map_map, hrender]
  | decision => rfl

theorem Element.linesList_withBindings (depth : Nat) (elements : List Element) :
    linesList depth (elements.map withBindings) = linesList depth elements := by
  induction elements with
  | nil => rfl
  | cons element elements ih => rw [List.map_cons, linesList, linesList, lines_withBindings, ih]

theorem WorkflowDef.render_withBindings (w : WorkflowDef) : w.withBindings.render = w.render := by
  rw [render, render, withBindings, Element.linesList_withBindings]

/-- Bindings are written like what looks like them. -/
theorem Program.render_withBindings (p : Program) : p.withBindings.render = p.render := by
  have hrender : WorkflowDef.render ∘ WorkflowDef.withBindings = WorkflowDef.render :=
    funext WorkflowDef.render_withBindings
  rw [render, render, blocks, blocks, withBindings, List.map_map, hrender]

/-! ## Words in front -/

theorem head_cons {q : Char → Prop} {c : Char} {cs : List Char} (h : q c) :
    ∀ d ∈ (c :: cs).head?, q d := by
  intro d hd
  cases hd
  exact h

/-- Words in front of other characters are told by what is written. -/
theorem word_append_inj {xs ys rest rest' : List Char} (hxs : ∀ c ∈ xs, isWordChar c = true)
    (hys : ∀ c ∈ ys, isWordChar c = true) (hrest : ∀ c ∈ rest.head?, isWordChar c = false)
    (hrest' : ∀ c ∈ rest'.head?, isWordChar c = false) (h : xs ++ rest = ys ++ rest') :
    xs = ys ∧ rest = rest' := by
  obtain ⟨htake, hdrop⟩ := takeWhile_append_of_head hxs hrest
  obtain ⟨htake', hdrop'⟩ := takeWhile_append_of_head hys hrest'
  rw [h] at htake hdrop
  exact ⟨htake.symm.trans htake', hdrop.symm.trans hdrop'⟩

namespace IsWord

variable {x y : String} {rest rest' : List Char}

theorem append_inj (hx : IsWord x) (hy : IsWord y) (hrest : ∀ c ∈ rest.head?, isWordChar c = false)
    (hrest' : ∀ c ∈ rest'.head?, isWordChar c = false)
    (h : x.toList ++ rest = y.toList ++ rest') : x = y ∧ rest = rest' := by
  obtain ⟨hlist, hrest⟩ := word_append_inj hx.wordChars hy.wordChars hrest hrest' h
  exact ⟨String.toList_inj.mp hlist, hrest⟩

end IsWord

/-! ## Arguments -/

/-- A finite number begins with a digit. -/
theorem exists_literal_cons (m : Finite64) :
    ∃ c cs, (⟨false, .finite m⟩ : Double).literal.toList = c :: cs ∧ isLetter c = false := by
  obtain ⟨whole, fraction, ⟨hne, hwhole, -, hchars⟩, -⟩ := literal_reads_back m
  obtain ⟨c, cs, rfl⟩ := List.exists_cons_of_ne_nil hne
  exact ⟨c, _, hchars, not_isLetter_of_isDigit (hwhole c List.mem_cons_self)⟩

/-- An expression is written as a word, or begins otherwise than a word, or begins with a word and
a point. -/
theorem Expression.render_cases {e : Expression} (h : e.WellFormed) :
    IsWord e.render ∨ (∃ c cs, e.render.toList = c :: cs ∧ isLetter c = false) ∨
      ∃ owner rest, IsWord owner ∧ e.render.toList = owner.toList ++ '.' :: rest := by
  cases e with
  | text value =>
    exact .inr (.inl ⟨_, _, toList_quoteText value, by decide⟩)
  | number value =>
    obtain ⟨negative, magnitude⟩ := value
    obtain rfl : negative = false := h
    cases magnitude with
    | infinite => exact .inl (show IsWord "Infinity" by decide)
    | finite m => exact .inr (.inl (exists_literal_cons m))
  | boolean value =>
    refine .inl ?_
    cases value with
    | true => exact (show IsWord "true" by decide)
    | false => exact (show IsWord "false" by decide)
  | identifier name => exact .inl h.1
  | property owner part =>
    refine .inr (.inr ⟨owner, part.toList, h.1, ?_⟩)
    simp [render]

/-- What is written as a word is that word, if no word goes on after it, and no point follows. -/
theorem Expression.render_eq_of_append {e : Expression} (h : e.WellFormed) {x : String}
    (hx : IsWord x) {rest rest' : List Char} (hrest : ∀ c ∈ rest.head?, isWordChar c = false)
    (hrest' : ∀ c ∈ rest'.head?, isWordChar c = false ∧ c ≠ '.')
    (heq : e.render.toList ++ rest = x.toList ++ rest') : e.render = x ∧ rest = rest' := by
  have hend : ∀ c ∈ rest'.head?, isWordChar c = false := fun c hc => (hrest' c hc).1
  rcases e.render_cases h with hword | ⟨c, cs, hlist, hc⟩ | ⟨owner, more, howner, hlist⟩
  · exact hword.append_inj hx hrest hend heq
  · obtain ⟨d, ds, hlist', hd⟩ := hx.exists_cons
    rw [hlist, hlist'] at heq
    rw [(List.cons.inj heq).1, hd] at hc
    cases hc
  · rw [hlist, List.append_assoc] at heq
    obtain ⟨-, hsame⟩ := howner.append_inj hx (head_cons (by decide)) hend heq
    subst hsame
    exact absurd rfl (hrest' _ rfl).2

/-- An argument ends before it. -/
def EndsArgument (rest : List Char) : Prop := ∃ c cs, rest = c :: cs ∧ (c = ',' ∨ c = ')')

theorem EndsArgument.head {rest : List Char} (h : EndsArgument rest) :
    ∀ c ∈ rest.head?, (isWordChar c = false ∧ c ≠ '.') ∧ c ≠ ':' := by
  obtain ⟨d, ds, rfl, rfl | rfl⟩ := h
  · exact head_cons (by decide)
  · exact head_cons (by decide)

theorem Argument.toList_render_named {name : String} (hname : IsWord name) (value : Expression) :
    (Argument.mk (some name) value).render.toList =
      name.toList ++ ':' :: ' ' :: value.render.toList := by
  show (if name.isEmpty then value.render else name ++ ": " ++ value.render).toList = _
  rw [hname.isEmpty_eq_false]
  simp

/-- What is written like a binding looks like it. -/
theorem Argument.withBinding_of_append {a : Argument} (h : a.WellFormed) {x : String}
    (hx : IsWord x) {rest rest' : List Char} (hrest : EndsArgument rest)
    (hrest' : EndsArgument rest')
    (heq : a.render.toList ++ rest = (bindingOf x).render.toList ++ rest') :
    a.withBinding = bindingOf x ∧ rest = rest' := by
  have hend : ∀ c ∈ rest.head?, isWordChar c = false := fun c hc => (hrest.head c hc).1.1
  rw [bindingOf, Argument.toList_render_named hx, List.append_assoc] at heq
  obtain ⟨name, value⟩ := a
  cases name with
  | none =>
    obtain ⟨-, hsame⟩ := Expression.render_eq_of_append h.value hx hend
      (head_cons (by decide)) heq
    subst hsame
    exact absurd rfl (hrest.head _ rfl).2
  | some name =>
    have hname := h.name name rfl
    rw [toList_render_named hname, List.append_assoc] at heq
    obtain ⟨rfl, hsame⟩ := hname.append_inj hx (head_cons (by decide)) (head_cons (by decide)) heq
    obtain ⟨hvalue, hsame⟩ := Expression.render_eq_of_append h.value hx hend
      (fun c hc => (hrest'.head c hc).1) (List.cons.inj (List.cons.inj hsame).2).2
    exact ⟨if_pos hvalue, hsame⟩

/-! ## Calls -/

/-- Arguments, each with a comma and a space in front. -/
def argumentsAfter (args : List Argument) : List Char :=
  args.flatMap fun a => ',' :: ' ' :: a.render.toList

theorem toList_commaSeparated (item : String) (items : List String) :
    (commaSeparated (item :: items)).toList =
      item.toList ++ items.flatMap fun item => ',' :: ' ' :: item.toList := by
  induction items generalizing item with
  | nil => simp [commaSeparated]
  | cons next items ih =>
    rw [commaSeparated, String.intercalate_cons_cons, String.toList_append, String.toList_append,
      ← commaSeparated, ih, List.flatMap_cons]
    simp

/-- What follows the name in the text of a call. -/
def callTail : List Argument → List Char
  | [] => [';']
  | a :: args => '(' :: a.render.toList ++ argumentsAfter args ++ [')', ';']

theorem toList_renderCall (name : String) (args : List Argument) :
    (renderCall name args).toList = name.toList ++ callTail args := by
  cases args with
  | nil => simp [renderCall, callTail]
  | cons a args =>
    simp [renderCall, toList_commaSeparated, argumentsAfter, List.flatMap_map, callTail]

theorem callTail_head (args : List Argument) (rest : List Char) :
    ∀ c ∈ (callTail args ++ rest).head?, isWordChar c = false ∧ c ≠ ' ' := by
  cases args with
  | nil => exact head_cons (by decide)
  | cons a args => exact head_cons (by decide)

theorem endsArgument_argumentsAfter (args : List Argument) (rest : List Char) :
    EndsArgument (argumentsAfter args ++ ')' :: rest) := by
  cases args with
  | nil => exact ⟨')', rest, rfl, .inr rfl⟩
  | cons a args => exact ⟨',', _, rfl, .inl rfl⟩

/-- An argument that passes on data under its own name. -/
def Argument.IsBinding (a : Argument) : Prop := ∃ x, IsWord x ∧ a = bindingOf x

/-- What is written like bindings looks like them. -/
theorem withBindings_of_arguments {args bindings : List Argument} (h : ∀ a ∈ args, a.WellFormed)
    (hbindings : ∀ b ∈ bindings, b.IsBinding) {rest rest' : List Char}
    (heq : argumentsAfter args ++ ')' :: rest = argumentsAfter bindings ++ ')' :: rest') :
    args.map Argument.withBinding = bindings ∧ rest = rest' := by
  induction args generalizing bindings with
  | nil =>
    cases bindings with
    | nil => exact ⟨rfl, (List.cons.inj heq).2⟩
    | cons b bindings => exact absurd (List.cons.inj heq).1 (by decide)
  | cons a args ih =>
    cases bindings with
    | nil => exact absurd (List.cons.inj heq).1 (by decide)
    | cons b bindings =>
      obtain ⟨ha, hargs⟩ := List.forall_mem_cons.mp h
      obtain ⟨⟨x, hx, rfl⟩, hmore⟩ := List.forall_mem_cons.mp hbindings
      rw [argumentsAfter, argumentsAfter, List.flatMap_cons, List.flatMap_cons,
        ← argumentsAfter, ← argumentsAfter, List.append_assoc, List.append_assoc] at heq
      obtain ⟨hbinding, hsame⟩ := Argument.withBinding_of_append ha hx
        (endsArgument_argumentsAfter _ _) (endsArgument_argumentsAfter _ _)
        (List.cons.inj (List.cons.inj heq).2).2
      obtain ⟨hall, hsame⟩ := ih hargs hmore hsame
      exact ⟨by rw [List.map_cons, hbinding, hall], hsame⟩

theorem withBindings_of_callTail {args bindings : List Argument} (h : ∀ a ∈ args, a.WellFormed)
    (hbindings : ∀ b ∈ bindings, b.IsBinding) {rest rest' : List Char}
    (heq : callTail args ++ rest = callTail bindings ++ rest') :
    args.map Argument.withBinding = bindings ∧ rest = rest' := by
  cases args with
  | nil =>
    cases bindings with
    | nil => exact ⟨rfl, (List.cons.inj heq).2⟩
    | cons b bindings => exact absurd (List.cons.inj heq).1 (by decide)
  | cons a args =>
    cases bindings with
    | nil => exact absurd (List.cons.inj heq).1 (by decide)
    | cons b bindings =>
      simp only [callTail, List.append_assoc, List.cons_append, List.nil_append] at heq
      -- With a comma and a space in front of its first argument, the rest is a list of arguments.
      have hall : argumentsAfter (a :: args) ++ ')' :: ';' :: rest =
          argumentsAfter (b :: bindings) ++ ')' :: ';' :: rest' := by
        simp only [argumentsAfter, List.flatMap_cons, List.append_assoc, List.cons_append]
        rw [← argumentsAfter, ← argumentsAfter, (List.cons.inj heq).2]
      obtain ⟨hargs, hrest⟩ := withBindings_of_arguments h hbindings hall
      exact ⟨hargs, (List.cons.inj hrest).2⟩

/-- What is written like a call with bindings looks like one. -/
theorem withBindings_of_call {name name' : String} {args bindings : List Argument}
    (hname : IsWord name) (hname' : IsWord name') (h : ∀ a ∈ args, a.WellFormed)
    (hbindings : ∀ b ∈ bindings, b.IsBinding) {rest rest' : List Char}
    (heq : (renderCall name args).toList ++ rest = (renderCall name' bindings).toList ++ rest') :
    name = name' ∧ args.map Argument.withBinding = bindings ∧ rest = rest' := by
  rw [toList_renderCall, toList_renderCall, List.append_assoc, List.append_assoc] at heq
  obtain ⟨hsame, htail⟩ := hname.append_inj hname' (fun c hc => (callTail_head _ _ c hc).1)
    (fun c hc => (callTail_head _ _ c hc).1) heq
  exact ⟨hsame, withBindings_of_callTail h hbindings htail⟩

/-! ## Bodies -/

/-- A call that only passes on data under their own names. -/
def Element.IsBindingCall (element : Element) : Prop :=
  ∃ name args, element = .call name args ∧ IsWord name ∧ ∀ a ∈ args, a.IsBinding

theorem linesAfter_call (name : String) (args : List Argument) (elements : List Element) :
    linesAfter (Element.linesList 1 (.call name args :: elements)) =
      '\n' :: ' ' :: ' ' :: ((renderCall name args).toList ++
        linesAfter (Element.linesList 1 elements)) := by
  rw [Element.linesList, linesAfter_append, Element.lines, linesAfter_cons]
  simp [indentation]

theorem exists_linesAfter_decision (condition : Expression)
    (thenBody elseBody elements : List Element) :
    ∃ rest, linesAfter (Element.linesList 1 (.decision condition thenBody elseBody :: elements)) =
      '\n' :: ' ' :: ' ' :: ("if".toList ++ ' ' :: rest) := by
  have hfirst : (indentation 1 ++ "if (" ++ condition.render ++ ")" ++ opening).toList =
      ' ' :: ' ' :: ("if".toList ++ ' ' :: '(' :: (condition.render ++ ")" ++ opening).toList) := by
    simp [indentation]
  rw [Element.linesList, linesAfter_append, Element.lines, List.cons_append, List.cons_append,
    linesAfter_cons, hfirst]
  simp only [List.cons_append, List.append_assoc]
  exact ⟨_, rfl⟩

/-- No call is written like a decision. -/
theorem renderCall_ne_decision {name : String} (hname : IsWord name) {args : List Argument}
    {rest rest' : List Char} :
    "if".toList ++ ' ' :: rest ≠ (renderCall name args).toList ++ rest' := by
  have hif : IsWord "if" := by decide
  intro heq
  rw [toList_renderCall, List.append_assoc] at heq
  obtain ⟨-, htail⟩ := hif.append_inj hname (head_cons (by decide))
    (fun c hc => (callTail_head _ _ c hc).1) heq
  exact (callTail_head args rest' _ (htail ▸ rfl)).2 rfl

/-- What is written like a body of binding calls looks like one. -/
theorem withBindings_of_body {elements calls : List Element}
    (h : Element.WellFormedList elements) (hcalls : ∀ c ∈ calls, c.IsBindingCall)
    {rest rest' : List Char}
    (heq : linesAfter (Element.linesList 1 elements) ++ '\n' :: '\x7d' :: rest =
      linesAfter (Element.linesList 1 calls) ++ '\n' :: '\x7d' :: rest') :
    elements.map Element.withBindings = calls ∧ rest = rest' := by
  induction elements generalizing calls with
  | nil =>
    cases calls with
    | nil => exact ⟨rfl, (List.cons.inj (List.cons.inj heq).2).2⟩
    | cons c calls =>
      obtain ⟨⟨name, args, rfl, -, -⟩, -⟩ := List.forall_mem_cons.mp hcalls
      rw [linesAfter_call] at heq
      exact absurd (List.cons.inj (List.cons.inj heq).2).1 (by decide)
  | cons element elements ih =>
    obtain ⟨helement, helements⟩ := h
    cases element with
    | call name args =>
      obtain ⟨hname, -, hargs⟩ := helement
      rw [linesAfter_call] at heq
      cases calls with
      | nil => exact absurd (List.cons.inj (List.cons.inj heq).2).1 (by decide)
      | cons c calls =>
        obtain ⟨⟨name', bindings, rfl, hname', hbindings⟩, hmore⟩ := List.forall_mem_cons.mp hcalls
        rw [linesAfter_call] at heq
        simp only [List.cons_append, List.append_assoc, List.cons.injEq, true_and] at heq
        obtain ⟨rfl, hall, hsame⟩ := withBindings_of_call hname hname' hargs hbindings heq
        obtain ⟨hrest, hsame⟩ := ih helements hmore hsame
        exact ⟨by rw [List.map_cons, Element.withBindings, hall, hrest], hsame⟩
    | decision condition thenBody elseBody =>
      obtain ⟨more, hlines⟩ :=
        exists_linesAfter_decision condition thenBody elseBody elements
      rw [hlines] at heq
      cases calls with
      | nil => exact absurd (List.cons.inj (List.cons.inj heq).2).1 (by decide)
      | cons c calls =>
        obtain ⟨⟨name', bindings, rfl, hname', -⟩, -⟩ := List.forall_mem_cons.mp hcalls
        rw [linesAfter_call] at heq
        simp only [List.cons_append, List.append_assoc, List.cons.injEq, true_and] at heq
        exact absurd heq (renderCall_ne_decision hname')

/-! ## Programs -/

theorem WorkflowDef.toList_render (w : WorkflowDef) :
    w.render.toList = ("workflow " ++ w.name ++ opening).toList ++
      (linesAfter (Element.linesList 1 w.elements) ++ ['\n', '\x7d']) := by
  rw [render, List.append_assoc, List.singleton_append, toList_joinLines, linesAfter_append]
  simp [closing]

/-- Definitions, each with an empty line after it. -/
def blocksText (blocks : List String) : List Char :=
  blocks.flatMap fun block => block.toList ++ ['\n', '\n']

theorem Program.toList_render (p : Program) :
    p.render.toList = blocksText (p.roles.map RoleDef.render ++ p.actions.map ActionDef.render ++
      p.entities.map EntityDef.render) ++ blocksText (p.workflows.map WorkflowDef.render) := by
  rw [blocksText, blocksText, ← List.flatMap_append, render, ← blocks]
  induction p.blocks with
  | nil => rfl
  | cons block blocks ih =>
    rw [List.map_cons, List.flatMap_cons, ← ih]
    simp

/-- Workflows that are written like others of the same names, with binding calls in them, look like
them. -/
theorem withBindings_of_workflows {ws vs : List WorkflowDef}
    (hnames : ws.map (·.name) = vs.map (·.name)) (h : ∀ w ∈ ws, w.WellFormed)
    (hcalls : ∀ v ∈ vs, ∀ c ∈ v.elements, c.IsBindingCall)
    (heq : blocksText (ws.map WorkflowDef.render) = blocksText (vs.map WorkflowDef.render)) :
    ws.map WorkflowDef.withBindings = vs := by
  induction ws generalizing vs with
  | nil => exact (List.map_eq_nil_iff.mp hnames.symm).symm
  | cons w ws ih =>
    cases vs with
    | nil => cases hnames
    | cons v vs =>
      obtain ⟨hname, hmore⟩ : w.name = v.name ∧ ws.map (·.name) = vs.map (·.name) :=
        List.cons.inj hnames
      obtain ⟨hw, hws⟩ := List.forall_mem_cons.mp h
      obtain ⟨hv, hvs⟩ := List.forall_mem_cons.mp hcalls
      rw [List.map_cons, List.map_cons, blocksText, blocksText, List.flatMap_cons,
        List.flatMap_cons, ← blocksText, ← blocksText, WorkflowDef.toList_render,
        WorkflowDef.toList_render, hname] at heq
      simp only [List.append_assoc, List.cons_append, List.nil_append] at heq
      obtain ⟨helements, hrest⟩ :=
        withBindings_of_body hw.elements hv (List.append_cancel_left heq)
      have hfirst : w.withBindings = v := by
        rw [WorkflowDef.withBindings, helements, hname]
      rw [List.map_cons, hfirst, ih hmore hws hvs (List.cons.inj (List.cons.inj hrest).2).2]

namespace Program

variable {p : Program}

/-- A trip leaves calls that only pass on data under their own names. -/
theorem isBindingCall_of_trip (h : p.WellFormed) {w : WorkflowDef}
    (hw : w ∈ p.graph.program.workflows) {c : Element} (hc : c ∈ w.elements) :
    c.IsBindingCall := by
  rw [Graph.workflows_program] at hw
  obtain ⟨node, -, rfl⟩ := List.mem_map.mp hw
  obtain ⟨n, hn, hkind, rfl⟩ := Graph.exists_of_mem_workflowOf hc
  rcases node_cases hn with ⟨i, a, ha, rfl⟩ | ⟨k, -, -, hne⟩
  · have haction := h.actions a (List.mem_of_getElem? ha)
    refine ⟨a.name, _, rfl, haction.name, fun b hb => ?_⟩
    obtain ⟨x, hx, rfl, -⟩ := Graph.exists_of_mem_argumentsOf hb
    rw [declaredInputs_actionNode] at hx
    exact ⟨x, haction.inputs x hx, rfl⟩
  · exact absurd hkind hne

/-- A program is written after a trip as it was before exactly if the trip gives it with bindings
for all arguments that look like them. -/
theorem render_program_graph_iff (h : p.WellFormed) :
    p.graph.program.render = p.render ↔ p.graph.program = p.withBindings := by
  obtain ⟨hactions, hentities, hroles, hnames⟩ := definitions_program_graph
    (fun a ha => (h.actions a ha).role.symm) fun r hr => (h.roles r hr).kind
  constructor
  · intro hrender
    have htext := congrArg String.toList hrender
    rw [toList_render, toList_render, hactions, hentities, hroles] at htext
    have hworkflows := withBindings_of_workflows hnames.symm h.workflows
      (fun v hv c hc => isBindingCall_of_trip h hv hc) (List.append_cancel_left htext).symm
    exact eq_of_parts hactions hentities hroles hworkflows.symm
  · intro heq
    rw [heq, render_withBindings]

end Program

/-! ## What looks like a binding -/

/-- The literals that are written as the names of their arguments are. -/
def lookalikes : List Argument :=
  [⟨some "true", .boolean true⟩, ⟨some "false", .boolean false⟩,
    ⟨some "Infinity", .number ⟨false, .infinite⟩⟩]

/-- A literal that is written as a word is a truth value or an infinite number. -/
theorem Expression.cases_of_isWord {e : Expression} (h : e.WellFormed) (hword : IsWord e.render) :
    (∃ value, e = .boolean value) ∨ e = .number ⟨false, .infinite⟩ ∨ e = .identifier e.render := by
  obtain ⟨c, cs, hlist, hc⟩ := hword.exists_cons
  cases e with
  | text value =>
    rw [render, toList_quoteText] at hlist
    rw [← (List.cons.inj hlist).1] at hc
    exact absurd hc (by decide)
  | number value =>
    obtain ⟨negative, magnitude⟩ := value
    obtain rfl : negative = false := h
    cases magnitude with
    | infinite => exact .inr (.inl rfl)
    | finite m =>
      obtain ⟨d, ds, hchars, hd⟩ := exists_literal_cons m
      rw [render, hchars] at hlist
      rw [← (List.cons.inj hlist).1, hd] at hc
      cases hc
  | boolean value => exact .inl ⟨value, rfl⟩
  | identifier name => exact .inr (.inr rfl)
  | property owner part =>
    have hpoint := hword.wordChars '.' (by simp [render])
    exact absurd hpoint (by decide)

/-- No other arguments than these look like bindings without being bindings. -/
theorem Argument.withBinding_eq_self_iff {a : Argument} (h : a.WellFormed) :
    a.withBinding = a ↔ a ∉ lookalikes := by
  obtain ⟨name, value⟩ := a
  cases name with
  | none => exact iff_of_true rfl (by simp [lookalikes])
  | some x =>
    rw [withBinding_named]
    by_cases hvalue : value.render = x
    · rw [if_pos hvalue]
      subst hvalue
      rcases Expression.cases_of_isWord h.value (h.name _ rfl) with ⟨truth, rfl⟩ | rfl | hname
      · refine iff_of_false (by simp [bindingOf]) ?_
        cases truth <;> simp [lookalikes, Expression.render]
      · exact iff_of_false (by simp [bindingOf]) (by simp [lookalikes, Expression.render,
          Double.literal])
      · obtain ⟨name, rfl⟩ : ∃ name, value = .identifier name := ⟨_, hname⟩
        exact iff_of_true rfl (by simp [lookalikes])
    · rw [if_neg hvalue]
      refine iff_of_true rfl fun hmem => hvalue ?_
      simp only [lookalikes, List.mem_cons, List.not_mem_nil, or_false, Argument.mk.injEq,
        Option.some.injEq] at hmem
      rcases hmem with ⟨rfl, rfl⟩ | ⟨rfl, rfl⟩ | ⟨rfl, rfl⟩
      · rfl
      · rfl
      · rfl

theorem map_eq_self_iff {α : Type} {f : α → α} {xs : List α} :
    xs.map f = xs ↔ ∀ x ∈ xs, f x = x := by
  refine ⟨fun h x hx => ?_, map_eq_self⟩
  exact List.map_inj_left.mp (h.trans (List.map_id xs).symm) x hx

theorem Element.wellFormed_of_mem {elements : List Element} (h : WellFormedList elements)
    {c : Element} (hc : c ∈ elements) : c.WellFormed := by
  induction elements with
  | nil => cases hc
  | cons element elements ih =>
    rcases List.mem_cons.mp hc with rfl | hc
    · exact h.1
    · exact ih h.2 hc

theorem Element.withBindings_eq_self_iff {element : Element} (h : element.WellFormed) :
    element.withBindings = element ↔
      ∀ name args, element = .call name args → ∀ a ∈ args, a ∉ lookalikes := by
  cases element with
  | call name args =>
    obtain ⟨-, -, hargs⟩ := h
    rw [withBindings, Element.call.injEq, and_iff_right rfl, map_eq_self_iff]
    constructor
    · rintro hall _ _ heq a ha
      obtain ⟨rfl, rfl⟩ := Element.call.inj heq
      exact (Argument.withBinding_eq_self_iff (hargs a ha)).mp (hall a ha)
    · intro hall a ha
      exact (Argument.withBinding_eq_self_iff (hargs a ha)).mpr (hall name args rfl a ha)
  | decision condition thenBody elseBody =>
    exact iff_of_true rfl fun _ _ heq => by cases heq

namespace Program

variable {p : Program}

theorem withBindings_eq_self_iff (h : p.WellFormed) :
    p.withBindings = p ↔ ∀ w ∈ p.workflows, ∀ name args, .call name args ∈ w.elements →
      ∀ a ∈ args, a ∉ lookalikes := by
  have hworkflow : ∀ w ∈ p.workflows, w.withBindings = w ↔
      ∀ name args, .call name args ∈ w.elements → ∀ a ∈ args, a ∉ lookalikes := by
    intro w hw
    have helements : w.withBindings = w ↔ ∀ c ∈ w.elements, c.withBindings = c := by
      rw [← map_eq_self_iff]
      exact ⟨fun h => congrArg WorkflowDef.elements h, fun h => by rw [WorkflowDef.withBindings, h]⟩
    have hwf : ∀ c ∈ w.elements, c.WellFormed := fun c =>
      Element.wellFormed_of_mem (h.workflows w hw).elements
    rw [helements]
    constructor
    · intro hall name args hc
      exact (Element.withBindings_eq_self_iff (hwf _ hc)).mp (hall _ hc) name args rfl
    · intro hall c hc
      exact (Element.withBindings_eq_self_iff (hwf c hc)).mpr fun name args heq =>
        hall name args (heq ▸ hc)
  have hprogram : p.withBindings = p ↔ ∀ w ∈ p.workflows, w.withBindings = w := by
    rw [← map_eq_self_iff]
    exact ⟨fun h => congrArg Program.workflows h, fun h => by rw [withBindings, h]⟩
  rw [hprogram]
  exact forall₂_congr hworkflow

end Program

end RoleFlow
