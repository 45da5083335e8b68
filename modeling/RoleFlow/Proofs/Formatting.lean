import Mathlib.Data.List.Flatten
import RoleFlow.Proofs.Dangling
import RoleFlow.Proofs.Slashes

/-!
# When formatting is stable

A document is formatted by reading it and writing the program that it is read as. What is written
the second time differs from what is written the first time only in texts, which get shorter if two
spaces stand together in them.

Results:
* `layout_reread`: the layout of a program after it is written and read.
* `forall_layout_iff`: the lexemes of a program are words, numbers, marks and its texts.
* `format_stable_iff`: when a formatted document is read, and formatted as it is.
-/

namespace RoleFlow

open Piece

/-! ## Texts whose blanks have collapsed -/

theorem chain_collapseBlanks (afterBlank : Bool) (cs : List Char) :
    (collapseBlanks afterBlank cs).IsChain (fun a b => ¬ (a = ' ' ∧ b = ' ')) ∧
      (afterBlank = true → (collapseBlanks afterBlank cs).head? ≠ some ' ') := by
  induction cs generalizing afterBlank with
  | nil => exact ⟨.nil, fun _ h => by cases h⟩
  | cons c cs ih =>
    obtain ⟨hchain, hhead⟩ := ih true
    by_cases hblank : isBlank c = true
    · rw [Source.collapseBlanks_blank hblank]
      cases afterBlank with
      | true => exact ⟨hchain, fun _ => hhead rfl⟩
      | false =>
        refine ⟨List.isChain_cons.mpr ⟨?_, hchain⟩, by simp⟩
        rintro d hd ⟨-, rfl⟩
        exact hhead rfl hd
    · have hc : c ≠ ' ' := by
        rintro rfl
        exact hblank (by decide)
      rw [Source.collapseBlanks_of_head (Bool.eq_false_iff.mpr hblank)]
      refine ⟨List.isChain_cons.mpr ⟨fun d _ hpair => hc hpair.1, (ih false).1⟩, fun _ h => ?_⟩
      exact hc (Option.some.inj h)

theorem isSingleSpaced_collapseText (s : String) : IsSingleSpaced (collapseText s) := by
  rw [IsSingleSpaced, collapseText, String.toList_ofList]
  exact (chain_collapseBlanks false s.toList).1

theorem collapseText_collapseText (s : String) :
    collapseText (collapseText s) = collapseText s := by
  have hsingle := isSingleSpaced_collapseText s
  have hspaces : ∀ c ∈ (collapseText s).toList, isBlank c = true → c = ' ' := by
    intro c hc hblank
    rw [collapseText, String.toList_ofList] at hc
    rcases mem_collapseBlanks hc with ⟨-, hnot⟩ | rfl
    · rw [hblank] at hnot
      cases hnot
    · rfl
  rw [collapseText, collapseBlanks_of_single hspaces hsingle fun h => absurd h (by decide),
    String.ofList_toList]

theorem collapseText_eq_iff {s : String} (h : IsTidy s) : collapseText s = s ↔ IsSingleSpaced s :=
  ⟨fun heq => heq ▸ isSingleSpaced_collapseText s, collapseText_of_single h⟩

theorem isEmpty_collapseText (s : String) : (collapseText s).isEmpty = s.isEmpty := by
  have hempty : collapseText s = "" ↔ s = "" := by
    rw [← String.toList_inj, ← String.toList_inj, collapseText, String.toList_ofList]
    cases s.toList with
    | nil => exact Iff.rfl
    | cons c cs =>
      by_cases hblank : isBlank c = true
      · simp [Source.collapseBlanks_blank hblank]
      · simp [Source.collapseBlanks_of_head (Bool.eq_false_iff.mpr hblank)]
  rw [Bool.eq_iff_iff, String.isEmpty_iff, String.isEmpty_iff, hempty]

theorem collapseBlanks_sublist {cs : List Char} (h : ∀ c ∈ cs, isBlank c = true → c = ' ')
    (afterBlank : Bool) : (collapseBlanks afterBlank cs).Sublist cs := by
  induction cs generalizing afterBlank with
  | nil => exact .slnil
  | cons c cs ih =>
    obtain ⟨hc, hcs⟩ := List.forall_mem_cons.mp h
    by_cases hblank : isBlank c = true
    · obtain rfl := hc hblank
      rw [Source.collapseBlanks_blank hblank]
      cases afterBlank with
      | true => exact (ih hcs true).cons _
      | false => exact (ih hcs true).cons_cons _
    · rw [Source.collapseBlanks_of_head (Bool.eq_false_iff.mpr hblank)]
      exact (ih hcs false).cons_cons _

theorem collapseText_sublist {s : String} (h : IsTidy s) :
    (collapseText s).toList.Sublist s.toList := by
  rw [collapseText, String.toList_ofList]
  exact collapseBlanks_sublist (fun c hc => (h c hc).2) false

/-! ## Layouts of programs that are read back -/

namespace Piece

/-- A part of a document as it is written after it is read. -/
def settle : Piece → Piece
  | .gap written => .gap written
  | .lexeme kind chars _ => .lexeme kind chars chars

@[simp] theorem settle_gap (written : List Char) : settle (.gap written) = .gap written := rfl

@[simp] theorem settle_lexeme (kind : TokenKind) (chars written : List Char) :
    settle (.lexeme kind chars written) = .lexeme kind chars chars := rfl

@[simp] theorem settle_text (value : String) :
    (Piece.text value).settle = Piece.text (collapseText value) := by
  rw [Piece.text, Piece.text, collapseText_collapseText]
  rfl

@[simp] theorem settle_description (value : String) :
    (Piece.description value).settle = Piece.description (collapseText value) := by
  rw [Piece.description, Piece.description, collapseText_collapseText]
  rfl

theorem map_settle_commas (xs : List (List Piece)) :
    (commas xs).map settle = commas (xs.map (List.map settle)) := by
  induction xs with
  | nil => rfl
  | cons x xs ih =>
    cases xs with
    | nil => rfl
    | cons y ys =>
      show (x ++ mark ',' :: space :: commas (y :: ys)).map settle = _
      rw [List.map_append, List.map_cons, List.map_cons, ih]
      rfl

end Piece

theorem layout_reread_expression {e : Expression} (h : e.WellFormed) :
    e.reread.layout = e.layout.map settle := by
  cases e with
  | text value => simp [Expression.reread, Expression.layout]
  | number value =>
    obtain ⟨negative, magnitude⟩ := value
    obtain rfl : negative = false := h
    cases magnitude with
    | infinite => simp [Expression.reread, Expression.layout, Double.literal]
    | finite m => simp [Expression.reread, Expression.layout]
  | boolean value => rfl
  | identifier name => rfl
  | property owner part => rfl

theorem layout_reread_argument {a : Argument} (h : a.WellFormed) :
    a.reread.layout = a.layout.map settle := by
  obtain ⟨name, value⟩ := a
  have hvalue := layout_reread_expression h.value
  cases name with
  | none => exact hvalue
  | some name =>
    by_cases hname : name.isEmpty = true
    · simp [Argument.reread, Argument.layout, hname, hvalue]
    · simp [Argument.reread, Argument.layout, hname, hvalue]

theorem layout_reread_arguments {args : List Argument} (h : ∀ a ∈ args, a.WellFormed) :
    argumentsLayout (args.map Argument.reread) = (argumentsLayout args).map settle := by
  have hargs : (args.map Argument.reread).map Argument.layout =
      (args.map Argument.layout).map (List.map settle) := by
    rw [List.map_map, List.map_map]
    exact List.map_congr_left fun a ha => layout_reread_argument (h a ha)
  unfold argumentsLayout
  rw [List.isEmpty_map, hargs]
  split
  · rfl
  · simp [map_settle_commas]

theorem isEmpty_rereadList (elements : List Element) :
    (Element.rereadList elements).isEmpty = elements.isEmpty := by
  cases elements <;> rfl

theorem layout_reread_body {elements : List Element} (h : Element.WellFormedList elements)
    (depth : Nat) :
    Element.layoutList depth (Element.rereadList elements) =
      (Element.layoutList depth elements).map settle := by
  induction elements using Element.bodyInduction generalizing depth with
  | nil => rfl
  | call name args rest ih =>
    obtain ⟨⟨-, -, hargs⟩, hrest⟩ := h
    simp [Element.rereadList, Element.reread, Element.layoutList, Element.layout,
      layout_reread_arguments hargs, ih hrest]
  | decision condition thenBody elseBody rest ihThen ihElse ih =>
    obtain ⟨⟨hcondition, hthen, helse⟩, hrest⟩ := h
    simp only [Element.rereadList, Element.reread, Element.layoutList, Element.layout,
      isEmpty_rereadList, layout_reread_expression hcondition, ihThen hthen, ihElse helse, ih hrest]
    split <;> simp

theorem map_settle_type (cs : List Char) : (typeLayout cs).map settle = typeLayout cs := by
  induction cs with
  | nil => rfl
  | cons c cs ih =>
    have hcons : ∀ pieces, (consLetter c pieces).map settle = consLetter c (pieces.map settle) := by
      intro pieces
      cases pieces with
      | nil => rfl
      | cons piece pieces =>
        cases piece with
        | gap written => rfl
        | lexeme kind chars written =>
          cases kind <;> rfl
    rw [typeLayout]
    split
    · rw [hcons, ih]
    · simp [ih]

theorem map_settle_typedName (t : TypedName) : t.layout.map settle = t.layout := by
  simp [TypedName.layout, map_settle_type]

theorem map_settle_attribute (name : String) (value : Option (List Piece)) :
    (attributeLayout name value).map settle =
      attributeLayout name (value.map (List.map settle)) := by
  cases value with
  | none => rfl
  | some pieces => simp [attributeLayout]

theorem map_settle_description (d : String) :
    (descriptionLayout d).map settle = descriptionLayout (collapseText d) := by
  rw [descriptionLayout, descriptionLayout, map_settle_attribute, isEmpty_collapseText]
  split <;> simp

theorem map_settle_names (name : String) (names : List String) :
    (namesLayout name names).map settle = namesLayout name names := by
  rw [namesLayout, map_settle_attribute]
  split
  · rfl
  · simp [map_settle_commas, Function.comp_def]

theorem layout_reread_definition {d : Definition} (h : d.WellFormed) :
    d.reread.layout = d.layout.map settle := by
  cases d with
  | action a =>
    have hperformer : a.performerLayout.map settle = a.performerLayout := by
      unfold ActionDef.performerLayout
      split <;> simp
    have hparameters : a.parametersLayout.map settle = a.parametersLayout := by
      unfold ActionDef.parametersLayout
      split
      · rfl
      · simp [map_settle_commas, Function.comp_def, map_settle_typedName]
    obtain ⟨hsamePerformer, hsameParameters⟩ :
        ActionDef.performerLayout { a with description := collapseText a.description } =
          a.performerLayout ∧
        ActionDef.parametersLayout { a with description := collapseText a.description } =
          a.parametersLayout := ⟨rfl, rfl⟩
    simp [Definition.reread, Definition.layout, ActionDef.layout, ActionDef.attributesLayout,
      map_settle_description, map_settle_names, hsamePerformer, hsameParameters, hperformer,
      hparameters]
  | entity e =>
    have hattributes : (e.attributes.flatMap TypedName.attributeLayout).map settle =
        e.attributes.flatMap TypedName.attributeLayout := by
      rw [List.map_flatMap]
      refine List.flatMap_congr fun t ht => ?_
      simp [TypedName.attributeLayout, map_settle_typedName]
    simp [Definition.reread, Definition.layout, EntityDef.layout, hattributes]
  | role r =>
    have hkind : (attributeLayout "type" (r.kind.map fun kind => [word kind.name])).map settle =
        attributeLayout "type" (r.kind.map fun kind => [word kind.name]) := by
      rw [map_settle_attribute]
      cases r.kind <;> rfl
    simp [Definition.reread, Definition.layout, RoleDef.layout, RoleDef.attributesLayout,
      map_settle_description, hkind]
  | workflow w =>
    simp [Definition.reread, Definition.layout, WorkflowDef.layout, layout_reread_body h.elements]

theorem definitions_reread (p : Program) :
    p.reread.definitions = p.definitions.map Definition.reread := by
  have hsome : ∀ {α β : Type} (f : α → β) (xs : List α),
      xs.filterMap (fun x => some (f x)) = xs.map f :=
    fun f xs => congrFun List.filterMap_eq_map' xs
  have hnone : ∀ {α β : Type} (xs : List α), (xs.filterMap fun _ => (none : Option β)) = [] :=
    fun xs => by simp
  simp only [Program.reread, Program.ofDefinitions, Program.definitions, List.map_append,
    List.map_map, List.filterMap_append, List.filterMap_map, Function.comp_def, Definition.reread,
    hsome, hnone, List.nil_append, List.append_nil]

/-- The layout of a program after it is written and read. -/
theorem layout_reread {p : Program} (h : p.WellFormed) :
    p.reread.layout = p.layout.map settle := by
  rw [Program.layout, Program.layout, definitions_reread, List.flatMap_map, List.map_flatMap]
  refine List.flatMap_congr fun d hd => ?_
  rw [List.map_append, layout_reread_definition (h.definition hd)]
  rfl

/-! ## Texts in layouts -/

section Texts

variable {Q : Piece → Prop} (hgap : ∀ written, Q (.gap written))
  (hplain : ∀ kind cs, kind ≠ .text → Q (.lexeme kind cs cs))

include hgap in
theorem forall_commas_iff (hcomma : Q (mark ',')) (xs : List (List Piece)) :
    (∀ piece ∈ commas xs, Q piece) ↔ ∀ pieces ∈ xs, ∀ piece ∈ pieces, Q piece := by
  induction xs with
  | nil => simp [commas]
  | cons x xs ih =>
    cases xs with
    | nil => simp [commas]
    | cons y ys =>
      show (∀ piece ∈ x ++ mark ',' :: space :: commas (y :: ys), Q piece) ↔ _
      rw [List.forall_mem_append, List.forall_mem_cons, List.forall_mem_cons, ih,
        List.forall_mem_cons (a := x)]
      exact and_congr_right fun _ => ⟨fun h => h.2.2, fun h => ⟨hcomma, hgap _, h⟩⟩

include hplain in
theorem forall_expression_iff (e : Expression) :
    (∀ piece ∈ e.layout, Q piece) ↔ e.OnText fun v => Q (Piece.text v) := by
  have hword : ∀ s, Q (word s) := fun s => hplain _ _ (by decide)
  cases e with
  | text value => simp [Expression.layout, Expression.OnText]
  | number value =>
    have hnumber : Q (plain (if value.magnitude = .infinite then .word else .number)
        value.literal) := by
      refine hplain _ _ ?_
      split <;> decide
    simpa [Expression.layout, Expression.OnText] using hnumber
  | boolean value => simpa [Expression.layout, Expression.OnText] using hword _
  | identifier name => simpa [Expression.layout, Expression.OnText] using hword name
  | property owner part =>
    have hmark : Q (mark '.') := hplain _ _ (by decide)
    simp [Expression.layout, Expression.OnText, hword, hmark]

include hgap hplain

theorem forall_argument_iff (a : Argument) :
    (∀ piece ∈ a.layout, Q piece) ↔ a.value.OnText fun v => Q (Piece.text v) := by
  obtain ⟨name, value⟩ := a
  have hvalue := forall_expression_iff hplain value
  cases name with
  | none => exact hvalue
  | some name =>
    have hword : Q (word name) := hplain _ _ (by decide)
    have hmark : Q (mark ':') := hplain _ _ (by decide)
    by_cases hname : name.isEmpty = true
    · simp [Argument.layout, hname, hvalue]
    · simp [Argument.layout, hname, hvalue, hword, hmark, hgap]

theorem forall_arguments_iff (args : List Argument) :
    (∀ piece ∈ argumentsLayout args, Q piece) ↔
      ∀ e ∈ args.map Argument.value, e.OnText fun v => Q (Piece.text v) := by
  have hmark : ∀ c, Q (mark c) := fun c => hplain _ _ (by decide)
  unfold argumentsLayout
  split
  · next hempty => simp [List.isEmpty_iff.mp hempty]
  · rw [List.cons_append, List.forall_mem_cons, List.forall_mem_append,
      forall_commas_iff hgap (hmark ',')]
    simp [forall_argument_iff hgap hplain, hmark]

theorem forall_body_iff (depth : Nat) (elements : List Element) :
    (∀ piece ∈ Element.layoutList depth elements, Q piece) ↔
      (∀ e ∈ Element.argumentsList elements, e.OnText fun v => Q (Piece.text v)) ∧
      (∀ e ∈ Element.conditionsList elements, e.OnText fun v => Q (Piece.text v)) := by
  have hword : ∀ s, Q (word s) := fun s => hplain _ _ (by decide)
  have hmark : ∀ c, Q (mark c) := fun c => hplain _ _ (by decide)
  induction elements using Element.bodyInduction generalizing depth with
  | nil => simp [Element.layoutList, Element.argumentsList, Element.conditionsList]
  | call name args rest ih =>
    simp only [Element.layoutList, Element.layout, Element.argumentsList, Element.arguments,
      Element.conditionsList, Element.conditions, List.forall_mem_append, List.cons_append,
      List.forall_mem_cons, forall_arguments_iff hgap hplain, ih, hgap, hword, hmark]
    simp [and_assoc]
  | decision condition thenBody elseBody rest ihThen ihElse ih =>
    have helse : (∀ piece ∈ (if elseBody.isEmpty then [] else
        line depth :: mark '\x7d' :: space :: word "else" :: space :: mark '\x7b' ::
          Element.layoutList (depth + 1) elseBody), Q piece) ↔
        (∀ e ∈ Element.argumentsList elseBody, e.OnText fun v => Q (Piece.text v)) ∧
        (∀ e ∈ Element.conditionsList elseBody, e.OnText fun v => Q (Piece.text v)) := by
      split
      · next hempty =>
        simp [List.isEmpty_iff.mp hempty, Element.argumentsList, Element.conditionsList]
      · simp only [List.forall_mem_cons, ihElse, hgap, hword, hmark, true_and]
    simp only [Element.layoutList, Element.layout, Element.argumentsList, Element.arguments,
      Element.conditionsList, Element.conditions, List.forall_mem_append, List.cons_append,
      List.forall_mem_cons, forall_expression_iff hplain, ihThen, helse, ih, hgap, hword, hmark]
    tauto

omit hgap in
theorem forall_type (cs : List Char) : ∀ piece ∈ typeLayout cs, Q piece := by
  -- A letter may join the word after it, so the pieces themselves are needed, not only `Q`.
  have hall : ∀ piece ∈ typeLayout cs, ∃ kind chars, kind ≠ .text ∧
      piece = .lexeme kind chars chars := by
    induction cs with
    | nil => simp [typeLayout]
    | cons c cs ih =>
      rw [typeLayout]
      split
      · unfold consLetter
        split
        · next chars written pieces heq =>
          rw [heq] at ih
          obtain ⟨⟨kind, cs', hkind, hfirst⟩, hrest⟩ := List.forall_mem_cons.mp ih
          cases hfirst
          exact List.forall_mem_cons.mpr ⟨⟨.word, c :: chars, by decide, rfl⟩, hrest⟩
        · exact List.forall_mem_cons.mpr ⟨⟨.word, [c], by decide, rfl⟩, ih⟩
      · exact List.forall_mem_cons.mpr ⟨⟨.mark, [c], by decide, rfl⟩, ih⟩
  intro piece hpiece
  obtain ⟨kind, chars, hkind, rfl⟩ := hall piece hpiece
  exact hplain kind chars hkind

theorem forall_typedName (t : TypedName) : ∀ piece ∈ t.layout, Q piece :=
  List.forall_mem_cons.mpr ⟨hplain _ _ (by decide), List.forall_mem_cons.mpr
    ⟨hplain _ _ (by decide), List.forall_mem_cons.mpr ⟨hgap _, forall_type hplain _⟩⟩⟩

theorem forall_attribute_iff {name : String} (value : Option (List Piece)) :
    (∀ piece ∈ attributeLayout name value, Q piece) ↔ ∀ ps ∈ value, ∀ piece ∈ ps, Q piece := by
  have hword : Q (word name) := hplain _ _ (by decide)
  have hmark : ∀ c, Q (mark c) := fun c => hplain _ _ (by decide)
  cases value with
  | none => simp [attributeLayout]
  | some ps =>
    rw [attributeLayout, List.forall_mem_append]
    simp [hgap, hword, hmark]

theorem forall_description_iff (d : String) :
    (∀ piece ∈ descriptionLayout d, Q piece) ↔ (d ≠ "" → Q (Piece.description d)) := by
  rw [descriptionLayout, forall_attribute_iff hgap hplain]
  split
  · next hempty => simp [String.isEmpty_iff.mp hempty]
  · next hne =>
    have : d ≠ "" := fun heq => hne (String.isEmpty_iff.mpr heq)
    simp [this]

theorem forall_names (name : String) (names : List String) :
    ∀ piece ∈ namesLayout name names, Q piece := by
  have hword : ∀ s, Q (word s) := fun s => hplain _ _ (by decide)
  have hmark : ∀ c, Q (mark c) := fun c => hplain _ _ (by decide)
  rw [namesLayout, forall_attribute_iff hgap hplain]
  split
  · simp
  · intro ps hps
    cases hps
    rw [List.cons_append, List.forall_mem_cons, List.forall_mem_append,
      forall_commas_iff hgap (hmark ',')]
    simp [hword, hmark]

theorem forall_block_iff (keyword name : String) (ps : List Piece) :
    (∀ piece ∈ word keyword :: space :: word name :: space :: mark '\x7b' :: ps ++
      [line 0, mark '\x7d'], Q piece) ↔ ∀ piece ∈ ps, Q piece := by
  have hword : ∀ s, Q (word s) := fun s => hplain _ _ (by decide)
  have hmark : ∀ c, Q (mark c) := fun c => hplain _ _ (by decide)
  rw [List.forall_mem_append]
  simp [hgap, hword, hmark]

theorem forall_action_iff (a : ActionDef) :
    (∀ piece ∈ a.layout, Q piece) ↔ (a.description ≠ "" → Q (Piece.description a.description)) := by
  have hword : ∀ s, Q (word s) := fun s => hplain _ _ (by decide)
  have hmark : ∀ c, Q (mark c) := fun c => hplain _ _ (by decide)
  have hperformer : ∀ piece ∈ a.performerLayout, Q piece := by
    unfold ActionDef.performerLayout
    split <;> simp [hgap, hword]
  have hparameters : ∀ piece ∈ a.parametersLayout, Q piece := by
    unfold ActionDef.parametersLayout
    split
    · simp
    · rw [List.cons_append, List.cons_append, List.forall_mem_cons, List.forall_mem_cons,
        List.forall_mem_append, forall_commas_iff hgap (hmark ','), List.forall_mem_map]
      exact ⟨hgap _, hmark _, fun t _ => forall_typedName hgap hplain t, by simp [hmark]⟩
  have hattributes : (∀ piece ∈ a.attributesLayout, Q piece) ↔
      (a.description ≠ "" → Q (Piece.description a.description)) := by
    rw [ActionDef.attributesLayout, List.forall_mem_append, List.forall_mem_append,
      forall_description_iff hgap hplain]
    exact ⟨fun h => h.1.1, fun h => ⟨⟨h, forall_names hgap hplain _ _⟩,
      forall_names hgap hplain _ _⟩⟩
  rw [← hattributes, ActionDef.layout]
  simp only [List.cons_append, List.forall_mem_cons, List.forall_mem_append, hgap, hword, hmark,
    true_and]
  exact ⟨fun h => h.1.2, fun h => ⟨⟨⟨hperformer, hparameters⟩, h⟩, by simp⟩⟩

theorem forall_definition_iff (d : Definition) :
    (∀ piece ∈ d.layout, Q piece) ↔
      match d with
      | .action a => a.description ≠ "" → Q (Piece.description a.description)
      | .entity _ => True
      | .role r => r.description ≠ "" → Q (Piece.description r.description)
      | .workflow w =>
        (∀ e ∈ Element.argumentsList w.elements, e.OnText fun v => Q (Piece.text v)) ∧
        (∀ e ∈ Element.conditionsList w.elements, e.OnText fun v => Q (Piece.text v)) := by
  have hword : ∀ s, Q (word s) := fun s => hplain _ _ (by decide)
  have hmark : ∀ c, Q (mark c) := fun c => hplain _ _ (by decide)
  cases d with
  | action a => exact forall_action_iff hgap hplain a
  | entity e =>
    refine (forall_block_iff hgap hplain _ _ _).trans (iff_true_intro ?_)
    intro piece hpiece
    obtain ⟨t, -, hpiece⟩ := List.mem_flatMap.mp hpiece
    have hattribute : ∀ piece ∈ t.attributeLayout, Q piece := by
      rw [TypedName.attributeLayout, List.forall_mem_append, List.forall_mem_cons]
      exact ⟨⟨hgap _, forall_typedName hgap hplain t⟩, by simp [hmark]⟩
    exact hattribute piece hpiece
  | role r =>
    refine (forall_block_iff hgap hplain _ _ _).trans ?_
    rw [RoleDef.attributesLayout, List.forall_mem_append, forall_description_iff hgap hplain,
      forall_attribute_iff hgap hplain]
    cases r.kind <;> simp [hword]
  | workflow w =>
    exact (forall_block_iff hgap hplain _ _ _).trans (forall_body_iff hgap hplain _ _)

/-- The lexemes of a program are words, numbers, punctuation marks and its texts. -/
theorem forall_layout_iff (p : Program) :
    (∀ piece ∈ p.layout, Q piece) ↔
      (∀ d ∈ p.descriptions, d ≠ "" → Q (Piece.description d)) ∧
      (∀ e ∈ p.arguments, e.OnText fun v => Q (Piece.text v)) ∧
      (∀ e ∈ p.conditions, e.OnText fun v => Q (Piece.text v)) := by
  have hlayout : (∀ piece ∈ p.layout, Q piece) ↔
      ∀ d ∈ p.definitions, ∀ piece ∈ d.layout, Q piece := by
    rw [Program.layout, List.forall_mem_flatMap]
    refine forall₂_congr fun d _ => ?_
    rw [List.forall_mem_append]
    simp [hgap]
  simp only [hlayout, forall_definition_iff hgap hplain]
  simp only [Program.definitions, Program.descriptions, Program.arguments, Program.conditions,
    List.forall_mem_append, List.forall_mem_map, List.forall_mem_flatMap, forall₂_and,
    implies_true, and_true]

end Texts

/-! ## Texts of a well-formed program -/

theorem Expression.onText_congr {P Q R : String → Prop} {e : Expression} (he : e.OnText R)
    (h : ∀ v, R v → (P v ↔ Q v)) : e.OnText P ↔ e.OnText Q := by
  cases e with
  | text v => exact h v he
  | _ => exact Iff.rfl

theorem wellFormed_of_mem_body {elements : List Element} (h : Element.WellFormedList elements) :
    (∀ e ∈ Element.argumentsList elements, e.WellFormed) ∧
      ∀ e ∈ Element.conditionsList elements, e.WellFormed := by
  induction elements using Element.bodyInduction with
  | nil => simp [Element.argumentsList, Element.conditionsList]
  | call name args rest ih =>
    obtain ⟨⟨-, -, hargs⟩, hrest⟩ := h
    obtain ⟨hmore, hconditions⟩ := ih hrest
    refine ⟨List.forall_mem_append.mpr ⟨?_, hmore⟩, hconditions⟩
    intro e he
    obtain ⟨a, ha, rfl⟩ := List.mem_map.mp he
    exact (hargs a ha).value
  | decision condition thenBody elseBody rest ihThen ihElse ih =>
    obtain ⟨⟨hcondition, hthen, helse⟩, hrest⟩ := h
    obtain ⟨hthenArgs, hthenConditions⟩ := ihThen hthen
    obtain ⟨helseArgs, helseConditions⟩ := ihElse helse
    obtain ⟨hargs, hconditions⟩ := ih hrest
    refine ⟨List.forall_mem_append.mpr ⟨List.forall_mem_append.mpr ⟨hthenArgs, helseArgs⟩, hargs⟩,
      List.forall_mem_append.mpr ⟨List.forall_mem_append.mpr ⟨?_, helseConditions⟩, hconditions⟩⟩
    exact List.forall_mem_cons.mpr ⟨hcondition, hthenConditions⟩

namespace Program.WellFormed

variable {p : Program} (h : p.WellFormed)
include h

theorem descriptions : ∀ d ∈ p.descriptions, IsTidy d := by
  refine List.forall_mem_append.mpr ⟨?_, ?_⟩
  · exact List.forall_mem_map.mpr fun r hr => (h.roles r hr).description
  · exact List.forall_mem_map.mpr fun a ha => (h.actions a ha).description

theorem arguments : ∀ e ∈ p.arguments, e.WellFormed := by
  intro e he
  obtain ⟨w, hw, he⟩ := List.mem_flatMap.mp he
  exact (wellFormed_of_mem_body (h.workflows w hw).elements).1 e he

theorem conditions : ∀ e ∈ p.conditions, e.WellFormed := by
  intro e he
  obtain ⟨w, hw, he⟩ := List.mem_flatMap.mp he
  exact (wellFormed_of_mem_body (h.workflows w hw).elements).2 e he

end Program.WellFormed

theorem Expression.WellFormed.onText {e : Expression} (h : e.WellFormed) : e.OnText IsTidy := by
  cases e with
  | text value => exact h
  | _ => trivial

/-! ## What is written the second time -/

theorem flatMap_eq_iff_of_sublist {α β : Type} {f g : α → List β} {xs : List α}
    (h : ∀ x ∈ xs, (f x).Sublist (g x)) :
    xs.flatMap f = xs.flatMap g ↔ ∀ x ∈ xs, f x = g x := by
  refine ⟨fun heq => ?_, List.flatMap_congr⟩
  induction xs with
  | nil => simp
  | cons x xs ih =>
    obtain ⟨hx, hxs⟩ := List.forall_mem_cons.mp h
    rw [List.flatMap_cons, List.flatMap_cons] at heq
    have hrest : (xs.flatMap f).length ≤ (xs.flatMap g).length :=
      (List.Sublist.flatMap_right xs hxs).length_le
    have hlength : (f x).length = (g x).length := by
      have hboth := congrArg List.length heq
      have hfirst := hx.length_le
      simp only [List.length_append] at hboth
      omega
    have hfirst := hx.eq_of_length hlength
    rw [hfirst] at heq
    exact List.forall_mem_cons.mpr ⟨hfirst, ih hxs (List.append_cancel_left heq)⟩

theorem settle_sublist {p : Program} (h : p.WellFormed) :
    ∀ piece ∈ p.layout, piece.settle.written.Sublist piece.written := by
  have htext : ∀ e : Expression, e.WellFormed →
      e.OnText fun v => (Piece.text v).settle.written.Sublist (Piece.text v).written := by
    intro e he
    cases e with
    | text v =>
      show (Piece.text v).settle.written.Sublist (Piece.text v).written
      rw [settle_text, raw_text, raw_text, toList_quoteText, toList_quoteText]
      exact ((collapseText_sublist he).flatMap escapeChar).append_right ['"'] |>.cons_cons '"'
    | _ => trivial
  refine (forall_layout_iff (fun _ => .refl _) (fun _ _ _ => .refl _) p).mpr ⟨?_, ?_, ?_⟩
  · intro d hd hne
    rw [settle_description]
    exact ((collapseText_sublist (h.descriptions d hd)).append_right ['"']).cons_cons '"'
  · exact fun e he => htext e (h.arguments e he)
  · exact fun e he => htext e (h.conditions e he)

theorem written_settle_text {v : String} (h : IsTidy v) :
    (Piece.text v).settle.written = (Piece.text v).written ↔ IsSingleSpaced v := by
  rw [settle_text, raw_text, raw_text, ← collapseText_eq_iff h]
  refine ⟨fun heq => ?_, fun heq => by rw [heq]⟩
  rw [← unescape_quoteText (collapseText v), heq, unescape_quoteText]

theorem written_settle_description {d : String} (h : IsTidy d) :
    (Piece.description d).settle.written = (Piece.description d).written ↔ IsSingleSpaced d := by
  rw [settle_description, ← collapseText_eq_iff h]
  simp [Piece.description, String.toList_inj]

/-- A program that is written, read and written again stays as it was if no two spaces stand
together in its texts. -/
theorem render_reread_eq_iff {p : Program} (h : p.WellFormed) :
    p.reread.render = p.render ↔ (∀ d ∈ p.descriptions, IsSingleSpaced d) ∧
      (∀ e ∈ p.arguments, e.OnText IsSingleSpaced) ∧
      ∀ e ∈ p.conditions, e.OnText IsSingleSpaced := by
  rw [← String.toList_inj, ← raw_program, ← raw_program, layout_reread h, raw, raw,
    List.flatMap_map, flatMap_eq_iff_of_sublist (settle_sublist h),
    forall_layout_iff (fun _ => rfl) (fun _ _ _ => rfl)]
  refine and_congr (forall₂_congr fun d hd => ?_) (and_congr (forall₂_congr fun e he => ?_)
    (forall₂_congr fun e he => ?_))
  · rw [written_settle_description (h.descriptions d hd)]
    refine ⟨fun hsingle => ?_, fun hsingle _ => hsingle⟩
    by_cases hd : d = ""
    · subst hd
      decide
    · exact hsingle hd
  · exact Expression.onText_congr (h.arguments e he).onText fun v hv => written_settle_text hv
  · exact Expression.onText_congr (h.conditions e he).onText fun v hv => written_settle_text hv

/-! ## Slashes in texts -/

theorem commentFree_of_escape {cs : List Char} (h : Source.CommentFree (cs.flatMap escapeChar)) :
    Source.CommentFree cs := by
  induction cs with
  | nil => exact .nil
  | cons c cs ih =>
    rw [List.flatMap_cons] at h
    have htail : Source.CommentFree (cs.flatMap escapeChar) :=
      List.IsChain.infix h (List.suffix_append _ _).isInfix
    have hrest := ih htail
    cases cs with
    | nil => exact .singleton c
    | cons d ds =>
      refine .cons_cons ?_ hrest
      rintro ⟨rfl, rfl⟩
      exact (List.isChain_cons_cons.mp h).1 ⟨rfl, rfl⟩

theorem isCommentFree_of_quoteText {value : String}
    (h : Source.CommentFree (quoteText value).toList) : IsCommentFree value := by
  rw [toList_quoteText] at h
  refine commentFree_of_escape ?_
  exact List.IsChain.infix h ⟨['"'], ['"'], rfl⟩

/-- If no two slashes stand together in a written program, then none do in its conditions. -/
theorem isCommentFree_of_render {p : Program} (h : IsCommentFree p.render) :
    ∀ e ∈ p.conditions, e.OnText IsCommentFree := by
  have hlayout : ∀ piece ∈ p.layout, ∀ chars written, piece = .lexeme .text chars written →
      Source.CommentFree written := by
    rintro piece hpiece chars written rfl
    rw [IsCommentFree, ← raw_program, raw, List.flatMap_def] at h
    exact List.IsChain.infix h (List.infix_of_mem_flatten (List.mem_map_of_mem hpiece))
  obtain ⟨-, -, hconditions⟩ := (forall_layout_iff (by simp)
    (fun _ _ hkind _ _ heq => absurd (Piece.lexeme.inj heq).1 hkind) p).mp hlayout
  intro e he
  have htext := hconditions e he
  cases e with
  | text v => exact isCommentFree_of_quoteText (htext _ _ rfl)
  | _ => trivial

/-! ## Formatting -/

/-- A document that is read, with descriptions that need no escapes and without two slashes together
in its arguments, is formatted to a document that is read and formatted as it is exactly if no call
of the name `else` comes right after a decision without a second branch, no two slashes stand
together in its conditions, and no two spaces in its texts. -/
theorem format_stable_iff {document : String} {p : Program} (h : (parse document).value = .ok p)
    (hdescriptions : ∀ d ∈ p.descriptions, IsQuotable d)
    (hargs : ∀ e ∈ p.arguments, e.OnText IsCommentFree) :
    (∃ q, (parse p.render).value = .ok q ∧ q.render = p.render) ↔
      p.NoDanglingElse ∧ (∀ e ∈ p.conditions, e.OnText IsCommentFree) ∧
      (∀ d ∈ p.descriptions, IsSingleSpaced d) ∧ (∀ e ∈ p.arguments, e.OnText IsSingleSpaced) ∧
      ∀ e ∈ p.conditions, e.OnText IsSingleSpaced := by
  have hwf := wellFormed_of_parse h
  constructor
  · rintro ⟨q, hq, hrender⟩
    have hconditions : ∀ e ∈ p.conditions, e.OnText IsCommentFree := by
      refine isCommentFree_of_render ?_
      by_contra hcomment
      exact render_ne_of_comment (head?_render p) hcomment hq hrender
    have helse : p.NoDanglingElse := by
      by_contra hdangling
      exact parse_render_refuses hwf hdangling hdescriptions hargs hconditions q hq
    have hread := parse_render hwf helse hdescriptions hargs hconditions
    obtain rfl : p.reread = q := Except.ok.inj (hread.symm.trans hq)
    exact ⟨helse, hconditions, (render_reread_eq_iff hwf).mp hrender⟩
  · rintro ⟨helse, hconditions, hsingle⟩
    exact ⟨p.reread, parse_render hwf helse hdescriptions hargs hconditions,
      (render_reread_eq_iff hwf).mpr hsingle⟩

theorem format_stable_iff_nested :
    let document :=
      "workflow W \x7b if (a.b) \x7b f(n: \"say \\\"no\\\"\"); \x7d else \x7b else; \x7d \x7d " ++
      "role R \x7b description: \"reads\tit\"; \x7d"
    let p : Program := ⟨[], [], [⟨"R", "reads it", none⟩], [⟨"W", [.decision (.property "a" "b")
      [.call "f" [⟨some "n", .text "say \"no\""⟩]] [.call "else" []]]⟩]⟩
    (parse document).value = .ok p ∧ (∀ d ∈ p.descriptions, IsQuotable d) ∧
      (∀ e ∈ p.arguments, e.OnText IsCommentFree) ∧
      ∃ q, (parse p.render).value = .ok q ∧ q.render = p.render := by
  intro document p
  have hread : (parse document).value = .ok p := parse_of_toOption (by decide +kernel)
  have hdescriptions : ∀ d ∈ p.descriptions, IsQuotable d := by decide
  have htext : IsCommentFree "say \"no\"" ∧ IsSingleSpaced "say \"no\"" := by decide
  have hargs : ∀ e ∈ p.arguments, e.OnText IsCommentFree := by
    show ∀ e ∈ [Expression.text "say \"no\""], e.OnText IsCommentFree
    simpa [Expression.OnText] using htext.1
  have hsettled : ∀ e ∈ p.arguments, e.OnText IsSingleSpaced := by
    show ∀ e ∈ [Expression.text "say \"no\""], e.OnText IsSingleSpaced
    simpa [Expression.OnText] using htext.2
  have hconditions : ∀ P, ∀ e ∈ p.conditions, e.OnText P := by
    intro P
    show ∀ e ∈ [Expression.property "a" "b"], e.OnText P
    simp [Expression.OnText]
  have helse : p.NoDanglingElse := by
    intro w hw
    obtain rfl := List.mem_singleton.mp hw
    simp [Element.NoDanglingElseList, Element.NoDanglingElse, BeginsWithElseCall]
  exact ⟨hread, hdescriptions, hargs, (format_stable_iff hread hdescriptions hargs).mpr
    ⟨helse, hconditions _, by decide, hsettled, hconditions _⟩⟩

/-- Formatting is not always stable: an escape may part two spaces that are written together. -/
theorem format_unstable_of_escape :
    let document := "workflow W \x7b f(\"a \\ b\"); \x7d"
    let p : Program := ⟨[], [], [], [⟨"W", [.call "f" [⟨none, .text "a  b"⟩]]⟩]⟩
    (parse document).value = .ok p ∧ (∀ d ∈ p.descriptions, IsQuotable d) ∧
      (∀ e ∈ p.arguments, e.OnText IsCommentFree) ∧
      ¬ ∃ q, (parse p.render).value = .ok q ∧ q.render = p.render := by
  intro document p
  have hreread : (parse p.render).value =
      .ok ⟨[], [], [], [⟨"W", [.call "f" [⟨none, .text "a b"⟩]]⟩]⟩ :=
    parse_of_toOption (by decide +kernel)
  have hargs : ∀ e ∈ p.arguments, e.OnText IsCommentFree := by
    show ∀ e ∈ [Expression.text "a  b"], e.OnText IsCommentFree
    have htext : IsCommentFree "a  b" := by decide
    simpa [Expression.OnText] using htext
  refine ⟨parse_of_toOption (by decide +kernel), by decide, hargs, ?_⟩
  rintro ⟨q, hq, hrender⟩
  obtain rfl := Except.ok.inj (hreread.symm.trans hq)
  revert hrender
  decide +kernel

end RoleFlow
