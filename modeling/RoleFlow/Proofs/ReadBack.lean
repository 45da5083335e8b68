import RoleFlow.Proofs.Parsing
import RoleFlow.Proofs.Phrases

/-!
# Written programs read back

A written program is read as the same program, except that every run of blanks in a text is one
space and a number that is not finite is an identifier. This takes that no call of the name `else`
comes right after a decision without a second branch.

Results:
* `parse_render`: what a written program is read as.
* `parse_render_of_settled`: when it is read as it was.
-/

namespace RoleFlow

open Piece Grammar

/-! ## Documents of programs -/

theorem head?_render (p : Program) : p.render.toList.head? ≠ some Source.byteOrderMark := by
  rw [← raw_program, Program.layout]
  cases p.definitions with
  | nil => simp
  | cons d ds =>
    intro h
    cases d <;> exact absurd (Option.some.inj h) (by decide)

/-- The tokens of a written program are those of its layout. -/
theorem scan_render {p : Program} (h : p.WellFormed)
    (hdescriptions : ∀ d ∈ p.descriptions, IsQuotable d)
    (hargs : ∀ e ∈ p.arguments, e.OnText IsCommentFree)
    (hconditions : ∀ e ∈ p.conditions, e.OnText IsCommentFree) :
    (scan (Source.buffer p.render.toList)).tokens = place false 0 p.layout ∧
      (scan (Source.buffer p.render.toList)).error = none := by
  have hmark := head?_render p
  rw [← raw_program] at hmark ⊢
  exact scan_raw (spaced_program h hdescriptions hargs hconditions) hmark

/-- What a written program is read as. -/
theorem parse_render {p : Program} (h : p.WellFormed) (helse : p.NoDanglingElse)
    (hdescriptions : ∀ d ∈ p.descriptions, IsQuotable d)
    (hargs : ∀ e ∈ p.arguments, e.OnText IsCommentFree)
    (hconditions : ∀ e ∈ p.conditions, e.OnText IsCommentFree) :
    (parse p.render).value = .ok p.reread := by
  obtain ⟨htokens, herror⟩ := scan_render h hdescriptions hargs hconditions
  refine parse_of_many herror ?_
  rw [htokens]
  refine derives_definitions (fun d hd => derives_definition h hdescriptions hd ?_) _ _
  exact Program.noDanglingElse_iff.mp helse d hd

/-! ## Programs that are read as they were -/

/-- No two spaces stand together in the text. -/
def IsSingleSpaced (s : String) : Prop := s.toList.IsChain fun a b => ¬ (a = ' ' ∧ b = ' ')

instance (s : String) : Decidable (IsSingleSpaced s) :=
  inferInstanceAs (Decidable (List.IsChain (fun a b => ¬ (a = ' ' ∧ b = ' ')) s.toList))

/-- No two slashes and no two spaces stand together in a text, and a number is finite. -/
def Expression.Settled : Expression → Prop
  | .text value => IsCommentFree value ∧ IsSingleSpaced value
  | .number value => value.magnitude ≠ .infinite
  | _ => True

theorem collapseBlanks_of_single {cs : List Char} (hspaces : ∀ c ∈ cs, isBlank c = true → c = ' ')
    (hsingle : cs.IsChain fun a b => ¬ (a = ' ' ∧ b = ' ')) {afterBlank : Bool}
    (hfirst : afterBlank = true → cs.head? ≠ some ' ') : collapseBlanks afterBlank cs = cs := by
  induction cs generalizing afterBlank with
  | nil => rfl
  | cons c cs ih =>
    obtain ⟨hc, hcs⟩ := List.forall_mem_cons.mp hspaces
    have hchain := hsingle.tail
    by_cases hblank : isBlank c = true
    · obtain rfl := hc hblank
      have hbefore : afterBlank = false := by
        cases afterBlank with
        | true => exact absurd rfl (hfirst rfl)
        | false => rfl
      have hnext : cs.head? ≠ some ' ' := by
        intro hhead
        obtain ⟨ds, rfl⟩ := List.head?_eq_some_iff.mp hhead
        exact (List.isChain_cons_cons.mp hsingle).1 ⟨rfl, rfl⟩
      rw [Source.collapseBlanks_blank hblank, hbefore, ih hcs hchain fun _ => hnext]
      rfl
    · rw [Source.collapseBlanks_of_head (Bool.eq_false_iff.mpr hblank),
        ih hcs hchain fun h => absurd h (by decide)]

theorem collapseText_of_single {s : String} (h : IsTidy s) (hsingle : IsSingleSpaced s) :
    collapseText s = s := by
  rw [collapseText, collapseBlanks_of_single (fun c hc => (h c hc).2) hsingle fun h =>
    absurd h (by decide), String.ofList_toList]

theorem reread_expression {e : Expression} (h : e.WellFormed) (hsettled : e.Settled) :
    e.reread = e := by
  cases e with
  | text value => rw [Expression.reread, collapseText_of_single h hsettled.2]
  | number value => exact if_neg hsettled
  | boolean value => rfl
  | identifier name => rfl
  | property owner part => rfl

theorem reread_body {elements : List Element} (h : Element.WellFormedList elements)
    (hargs : ∀ e ∈ Element.argumentsList elements, e.Settled)
    (hconditions : ∀ e ∈ Element.conditionsList elements, e.Settled) :
    Element.rereadList elements = elements := by
  induction elements using Element.bodyInduction with
  | nil => rfl
  | call name args rest ih =>
    obtain ⟨⟨-, -, hwf⟩, hrest⟩ := h
    obtain ⟨hvalues, hargs⟩ := List.forall_mem_append.mp hargs
    obtain ⟨-, hconditions⟩ := List.forall_mem_append.mp hconditions
    have hread : args.map Argument.reread = args := by
      refine (List.map_congr_left fun a ha => ?_).trans (List.map_id args)
      show (⟨a.name, a.value.reread⟩ : Argument) = a
      rw [reread_expression (hwf a ha).value (hvalues _ (List.mem_map_of_mem ha))]
    rw [Element.rereadList, Element.reread, hread, ih hrest hargs hconditions]
  | decision condition thenBody elseBody rest ihThen ihElse ih =>
    obtain ⟨⟨hcondition, hthen, helse⟩, hrest⟩ := h
    obtain ⟨hbranches, hargs⟩ := List.forall_mem_append.mp hargs
    obtain ⟨hthenArgs, helseArgs⟩ := List.forall_mem_append.mp hbranches
    obtain ⟨hdecision, hconditions⟩ := List.forall_mem_append.mp hconditions
    obtain ⟨hvalue, hbranches⟩ := List.forall_mem_cons.mp hdecision
    obtain ⟨hthenConditions, helseConditions⟩ := List.forall_mem_append.mp hbranches
    rw [Element.rereadList, Element.reread, reread_expression hcondition hvalue,
      ihThen hthen hthenArgs hthenConditions, ihElse helse helseArgs helseConditions,
      ih hrest hargs hconditions]

theorem ofDefinitions_definitions (p : Program) : Program.ofDefinitions p.definitions = p := by
  have hsome : ∀ {α : Type} (xs : List α), xs.filterMap some = xs := fun xs => List.filterMap_some
  have hnone : ∀ {α β : Type} (xs : List α), (xs.filterMap fun _ => (none : Option β)) = [] :=
    fun xs => by simp
  simp only [Program.ofDefinitions, Program.definitions, List.filterMap_append,
    List.filterMap_map, Function.comp_def, hsome, hnone, List.nil_append, List.append_nil]

theorem reread_program {p : Program} (h : p.WellFormed)
    (hdescriptions : ∀ d ∈ p.descriptions, IsSingleSpaced d)
    (hargs : ∀ e ∈ p.arguments, e.Settled) (hconditions : ∀ e ∈ p.conditions, e.Settled) :
    p.reread = p := by
  obtain ⟨hroles, hactions⟩ := List.forall_mem_append.mp hdescriptions
  have hall : ∀ d ∈ p.definitions, d.reread = d := by
    intro d hd
    simp only [Program.definitions, List.mem_append, List.mem_map] at hd
    rcases hd with ((⟨r, hr, rfl⟩ | ⟨a, ha, rfl⟩) | ⟨e, he, rfl⟩) | ⟨w, hw, rfl⟩
    · rw [Definition.reread, collapseText_of_single (h.roles r hr).description
        (hroles _ (List.mem_map_of_mem hr))]
    · rw [Definition.reread, collapseText_of_single (h.actions a ha).description
        (hactions _ (List.mem_map_of_mem ha))]
    · rfl
    · rw [Definition.reread, reread_body (h.workflows w hw).elements
        (fun e he => hargs e (List.mem_flatMap.mpr ⟨w, hw, he⟩))
        fun e he => hconditions e (List.mem_flatMap.mpr ⟨w, hw, he⟩)]
  rw [Program.reread, List.map_congr_left hall]
  exact (congrArg _ (List.map_id _)).trans (ofDefinitions_definitions p)

theorem commentFree_of_settled {e : Expression} (h : e.Settled) : e.OnText IsCommentFree := by
  cases e with
  | text value => exact h.1
  | _ => trivial

/-- A well-formed program is read back as it was if its descriptions need no escapes, no two slashes
and no two spaces stand together in its texts, its numbers are finite, and no call of the name
`else` comes right after a decision without a second branch. -/
theorem parse_render_of_settled {p : Program} (h : p.WellFormed) (helse : p.NoDanglingElse)
    (hdescriptions : ∀ d ∈ p.descriptions, IsQuotable d ∧ IsSingleSpaced d)
    (hargs : ∀ e ∈ p.arguments, e.Settled) (hconditions : ∀ e ∈ p.conditions, e.Settled) :
    (parse p.render).value = .ok p := by
  have hread := parse_render h helse (fun d hd => (hdescriptions d hd).1)
    (fun e he => commentFree_of_settled (hargs e he))
    fun e he => commentFree_of_settled (hconditions e he)
  rwa [reread_program h (fun d hd => (hdescriptions d hd).2) hargs hconditions] at hread

theorem parse_render_of_settled_nested :
    let p : Program :=
      ⟨[⟨"Check", .role, some "Clerk", [⟨"order", "Order"⟩], "Reads it", ["a"], []⟩],
      [⟨"Order", [⟨"total", "Money"⟩]⟩], [⟨"Clerk", "", some .human⟩],
      [⟨"Main", [.decision (.property "order" "paid")
        [.call "Check" [⟨some "note", .text "say \"no\""⟩], .decision (.boolean true) [] []]
        [.call "else" []], .call "else" [⟨none, .number ⟨false, .zero⟩⟩]]⟩]⟩
    p.WellFormed ∧ p.NoDanglingElse ∧ (∀ d ∈ p.descriptions, IsQuotable d ∧ IsSingleSpaced d) ∧
      (∀ e ∈ p.arguments, e.Settled) ∧ (∀ e ∈ p.conditions, e.Settled) ∧
      (parse p.render).value = .ok p := by
  intro p
  have htype : ∀ s : String, s.toList ≠ [] ∧ s.toList.all isLetter = true → IsTypeText s.toList :=
    fun s h => .plain h.1 (List.all_eq_true.mp h.2)
  have haction : ∀ a ∈ p.actions, a.WellFormed := by
    intro a ha
    obtain rfl := List.mem_singleton.mp ha
    refine ⟨by decide, by decide, by decide, fun t ht => ?_, by decide, by decide, by decide⟩
    obtain rfl := List.mem_singleton.mp ht
    exact ⟨by decide, htype "Order" (by decide)⟩
  have hentity : ∀ e ∈ p.entities, e.WellFormed := by
    intro e he
    obtain rfl := List.mem_singleton.mp he
    refine ⟨by decide, fun t ht => ?_⟩
    obtain rfl := List.mem_singleton.mp ht
    exact ⟨by decide, htype "Money" (by decide)⟩
  have hrole : ∀ r ∈ p.roles, r.WellFormed := by
    intro r hr
    obtain rfl := List.mem_singleton.mp hr
    exact ⟨by decide, by decide, by decide⟩
  have hworkflow : ∀ w ∈ p.workflows, w.WellFormed := by
    intro w hw
    obtain rfl := List.mem_singleton.mp hw
    refine ⟨by decide, ?_⟩
    have htidy : IsTidy "say \"no\"" := by decide
    have hargument : Argument.WellFormed ⟨some "note", .text "say \"no\""⟩ := ⟨by decide, htidy⟩
    have hnumber : Argument.WellFormed ⟨none, .number ⟨false, .zero⟩⟩ := ⟨by decide, rfl⟩
    have hwords : IsWord "order" ∧ IsWord "paid" ∧ IsWord "Check" ∧ IsWord "else" := by decide
    simp [Element.WellFormedList, Element.WellFormed, Expression.WellFormed, hargument, hnumber,
      hwords]
  have helse : p.NoDanglingElse := by
    intro w hw
    obtain rfl := List.mem_singleton.mp hw
    simp [Element.NoDanglingElseList, Element.NoDanglingElse, BeginsWithElseCall]
  have hdescriptions : ∀ d ∈ p.descriptions, IsQuotable d ∧ IsSingleSpaced d := by decide
  have hargs : ∀ e ∈ p.arguments, e.Settled := by
    show ∀ e ∈ [Expression.text "say \"no\"", .number ⟨false, .zero⟩], e.Settled
    have htext : IsCommentFree "say \"no\"" ∧ IsSingleSpaced "say \"no\"" := by decide
    simpa [Expression.Settled, htext] using (by decide : Magnitude.zero ≠ .infinite)
  have hconditions : ∀ e ∈ p.conditions, e.Settled := by
    show ∀ e ∈ [Expression.property "order" "paid", .boolean true], e.Settled
    simp [Expression.Settled]
  exact ⟨⟨haction, hentity, hrole, hworkflow⟩, helse, hdescriptions, hargs, hconditions,
    parse_render_of_settled ⟨haction, hentity, hrole, hworkflow⟩ helse hdescriptions hargs
      hconditions⟩

/-- A condition is not always read as it was: blanks collapse in its texts, too. -/
theorem parse_render_ne_of_condition :
    let p : Program := ⟨[], [], [], [⟨"W", [.decision (.text "a  b") [] []]⟩]⟩
    p.WellFormed ∧ p.NoDanglingElse ∧ (∀ d ∈ p.descriptions, IsQuotable d ∧ IsSingleSpaced d) ∧
      (∀ e ∈ p.arguments, e.Settled) ∧ (parse p.render).value ≠ .ok p := by
  intro p
  have htidy : IsTidy "a  b" := by decide
  have hworkflow : ∀ w ∈ p.workflows, w.WellFormed := by
    intro w hw
    obtain rfl := List.mem_singleton.mp hw
    refine ⟨by decide, ?_⟩
    simp [Element.WellFormedList, Element.WellFormed, Expression.WellFormed, htidy]
  have helse : p.NoDanglingElse := by
    intro w hw
    obtain rfl := List.mem_singleton.mp hw
    simp [Element.NoDanglingElseList, Element.NoDanglingElse, BeginsWithElseCall]
  have hargs : ∀ e ∈ p.arguments, e.Settled := by
    show ∀ e ∈ ([] : List Expression), e.Settled
    simp
  have hwf : p.WellFormed := ⟨by simp [p], by simp [p], by simp [p], hworkflow⟩
  refine ⟨hwf, helse, by decide, hargs, ?_⟩
  intro h
  have hread : (parse p.render).value =
      .ok ⟨[], [], [], [⟨"W", [.decision (.text "a b") [] []]⟩]⟩ :=
    parse_of_toOption (by decide +kernel)
  rw [h] at hread
  exact absurd (Except.ok.inj hread) (by decide)

end RoleFlow
