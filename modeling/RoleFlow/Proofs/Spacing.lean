import RoleFlow.Proofs.Numbers
import RoleFlow.Proofs.Written

/-!
# Written programs scan as laid out

The names of a well-formed program are words, its types are letters with other types in angle
brackets, its numbers have no sign, and its texts no control characters and no blanks but spaces.
Then every lexeme of its layout is one, unless two slashes stand together in a text.

Results:
* `becomes_quoteText`: a text in quotes becomes the text with its blanks collapsed.
* `spaced_program`: the layout of a well-formed program is one.
-/

namespace RoleFlow

/-! ## Texts in quotes -/

/-- The characters that a character of a text is written as. -/
def escapeChar (c : Char) : List Char := if c = '"' ∨ c = '\\' then ['\\', c] else [c]

theorem toList_quoteText (value : String) :
    (quoteText value).toList = '"' :: value.toList.flatMap escapeChar ++ ['"'] := by
  simp only [quoteText, String.toList_ofList]
  rfl

theorem escapeChar_of_blank {c : Char} (h : isBlank c = true) : escapeChar c = [c] := by
  unfold escapeChar
  rw [if_neg]
  rintro (rfl | rfl) <;> exact absurd h (by decide)

theorem collapseBlanks_escape (afterBlank : Bool) (cs : List Char) :
    collapseBlanks afterBlank (cs.flatMap escapeChar) =
      (collapseBlanks afterBlank cs).flatMap escapeChar := by
  induction cs generalizing afterBlank with
  | nil => rfl
  | cons c cs ih =>
    rw [List.flatMap_cons]
    by_cases hblank : isBlank c = true
    · rw [escapeChar_of_blank hblank, List.singleton_append, Source.collapseBlanks_blank hblank,
        Source.collapseBlanks_blank hblank, ih, List.flatMap_append]
      cases afterBlank <;> rfl
    · have hc : isBlank c = false := Bool.eq_false_iff.mpr hblank
      have hescape : ∀ d ∈ escapeChar c, isBlank d = false := by
        unfold escapeChar
        split
        · simp [hc]
          decide
        · simp [hc]
      have hlast : ∃ d ∈ (escapeChar c).getLast?, isBlank d = false := by
        unfold escapeChar
        split <;> exact ⟨c, rfl, hc⟩
      rw [Source.collapseBlanks_append hlast, Source.collapseBlanks_of_forall hescape, ih,
        Source.collapseBlanks_of_head hc, List.flatMap_cons]

theorem isQuoted_escape (cs : List Char) : IsQuoted (cs.flatMap escapeChar) := by
  induction cs with
  | nil => exact .nil
  | cons c cs ih =>
    rw [List.flatMap_cons, escapeChar]
    split
    · next h =>
      refine .escape ?_ ih
      rcases h with rfl | rfl <;> decide
    · next h => exact .plain (fun hc => h (.inl hc)) (fun hc => h (.inr hc)) ih

theorem dropEscapes_escape (cs : List Char) : dropEscapes (cs.flatMap escapeChar) = cs := by
  induction cs with
  | nil => rfl
  | cons c cs ih =>
    rw [List.flatMap_cons, escapeChar]
    split
    · show dropEscapes ('\\' :: c :: cs.flatMap escapeChar) = _
      rw [dropEscapes, ih]
    · next h =>
      rw [List.singleton_append, dropEscapes, ih]
      rintro _ _ rfl
      exact absurd (.inr rfl) h

theorem unescape_quoted (cs : List Char) : unescape ('"' :: cs ++ ['"']) = dropEscapes cs := by
  simp [unescape]

theorem unescape_quoteText (value : String) :
    String.ofList (unescape (quoteText value).toList) = value := by
  rw [toList_quoteText, unescape_quoted, dropEscapes_escape, String.ofList_toList]

/-- Escaping brings no two slashes together. -/
theorem commentFree_escape {c : Char} {cs : List Char} (h : Source.CommentFree (c :: cs)) :
    Source.CommentFree (c :: (cs.flatMap escapeChar ++ ['"'])) := by
  induction cs generalizing c with
  | nil => simp [Source.CommentFree]
  | cons d ds ih =>
    obtain ⟨hpair, hchain⟩ := List.isChain_cons_cons.mp h
    have hrest := ih hchain
    rw [List.flatMap_cons, escapeChar]
    split
    · refine .cons_cons (fun h => by cases h.2) (.cons_cons (fun h => by cases h.1) hrest)
    · exact .cons_cons hpair hrest

theorem commentFree_cons {c : Char} {cs : List Char} (hc : c ≠ '/') (h : Source.CommentFree cs) :
    Source.CommentFree (c :: cs) := by
  cases cs with
  | nil => simp [Source.CommentFree]
  | cons d ds => exact .cons_cons (fun hpair => hc hpair.1) h

theorem becomes_quoted {cs : List Char} (hkept : ∀ c ∈ cs, Source.isStrayControl c = false)
    (hfree : Source.CommentFree ('"' :: (cs ++ ['"']))) :
    Source.Becomes ('"' :: cs ++ ['"']) ('"' :: collapseBlanks false cs ++ ['"']) := by
  have hquote : isBlank '"' = false := by decide
  have hall : ∀ d ∈ '"' :: (cs ++ ['"']), Source.isStrayControl d = false := by
    simpa using ⟨by decide, fun d hd => hd.elim (hkept d) fun hd => by subst hd; decide⟩
  have hbecomes := Source.becomes_collapseBlanks hall hfree hquote
    ⟨'"', by rw [← List.cons_append, List.getLast?_concat]; rfl, hquote, by decide⟩
  rwa [Source.collapseBlanks_of_head hquote, Source.collapseBlanks_append_cons hquote] at hbecomes

/-- A text in quotes becomes the text with its blanks collapsed. -/
theorem becomes_quoteText {value : String}
    (hkept : ∀ c ∈ value.toList, Source.isStrayControl c = false)
    (hfree : Source.CommentFree value.toList) :
    Source.Becomes (quoteText value).toList (quoteText (collapseText value)).toList := by
  have hescaped : ∀ c ∈ value.toList.flatMap escapeChar, Source.isStrayControl c = false := by
    intro c hc
    obtain ⟨d, hd, hc⟩ := List.mem_flatMap.mp hc
    unfold escapeChar at hc
    split at hc
    · rcases List.mem_cons.mp hc with rfl | hc
      · decide
      · rw [List.mem_singleton.mp hc]
        exact hkept d hd
    · rw [List.mem_singleton.mp hc]
      exact hkept d hd
  have hquoted := becomes_quoted hescaped (commentFree_escape (commentFree_cons (by decide) hfree))
  rwa [collapseBlanks_escape, ← toList_quoteText, ← String.toList_ofList
    (l := collapseBlanks false value.toList), ← toList_quoteText] at hquoted

theorem isLexeme_quoteText (value : String) : IsLexeme .text (quoteText value).toList := by
  rw [toList_quoteText]
  exact .text (isQuoted_escape _)

/-! ## Well-formed programs -/

/-- A text that is one word. -/
def IsWord (s : String) : Prop :=
  s.toList.head?.any isLetter = true ∧ s.toList.all isWordChar = true

instance (s : String) : Decidable (IsWord s) := inferInstanceAs (Decidable (_ ∧ _))

theorem isWord_iff {s : String} : IsWord s ↔ IsLexeme .word s.toList := by
  unfold IsWord
  constructor
  · rintro ⟨hletter, hall⟩
    cases hs : s.toList with
    | nil =>
      rw [hs] at hletter
      cases hletter
    | cons c cs =>
      rw [hs] at hletter hall
      exact .word hletter fun d hd => List.all_eq_true.mp hall d (List.mem_cons_of_mem _ hd)
  · intro h
    cases hs : s.toList with
    | nil =>
      rw [hs] at h
      exact absurd rfl (isLexeme_ne_nil h)
    | cons c cs =>
      rw [hs] at h
      cases h with
      | word hc hcs =>
        refine ⟨hc, List.all_eq_true.mpr fun d hd => ?_⟩
        rcases List.mem_cons.mp hd with rfl | hd
        · exact isWordChar_of_isLetter hc
        · exact hcs d hd

namespace IsWord

variable {x : String}

theorem wordChars (hx : IsWord x) : ∀ c ∈ x.toList, isWordChar c = true :=
  List.all_eq_true.mp hx.2

theorem exists_cons (hx : IsWord x) : ∃ c cs, x.toList = c :: cs ∧ isLetter c = true := by
  have hletter := hx.1
  cases hlist : x.toList with
  | nil =>
    rw [hlist] at hletter
    cases hletter
  | cons c cs =>
    rw [hlist] at hletter
    exact ⟨c, cs, rfl, hletter⟩

theorem isEmpty_eq_false (hx : IsWord x) : x.isEmpty = false := by
  refine Bool.eq_false_iff.mpr fun hempty => ?_
  obtain ⟨c, cs, hlist, -⟩ := hx.exists_cons
  rw [String.isEmpty_iff.mp hempty] at hlist
  cases hlist

end IsWord

/-- The text of a type: letters, perhaps with another type in angle brackets. -/
inductive IsTypeText : List Char → Prop
  | plain {cs : List Char} (hne : cs ≠ []) (hletters : ∀ c ∈ cs, isLetter c = true) : IsTypeText cs
  | generic {cs argument : List Char} (hne : cs ≠ []) (hletters : ∀ c ∈ cs, isLetter c = true)
    (hargument : IsTypeText argument) : IsTypeText (cs ++ '<' :: argument ++ ['>'])

/-- A text without control characters, and without blanks other than spaces. -/
def IsTidy (s : String) : Prop :=
  ∀ c ∈ s.toList, Source.isStrayControl c = false ∧ (isBlank c = true → c = ' ')

instance (s : String) : Decidable (IsTidy s) := List.decidableBAll _ _

/-- No two slashes stand together in the text. -/
def IsCommentFree (s : String) : Prop := Source.CommentFree s.toList

instance (s : String) : Decidable (IsCommentFree s) :=
  inferInstanceAs (Decidable (List.IsChain (fun a b => ¬ (a = '/' ∧ b = '/')) s.toList))

/-- A text that needs no escapes in quotes, and in which no two slashes stand together. -/
def IsQuotable (s : String) : Prop := '"' ∉ s.toList ∧ '\\' ∉ s.toList ∧ IsCommentFree s

instance (s : String) : Decidable (IsQuotable s) := inferInstanceAs (Decidable (_ ∧ _))

/-- The name is a word, and the type the text of a type. -/
structure TypedName.WellFormed (t : TypedName) : Prop where
  name : IsWord t.name
  type : IsTypeText t.type.toList

/-- Names are words, identifiers are no booleans, and numbers have no sign. -/
def Expression.WellFormed : Expression → Prop
  | .text value => IsTidy value
  | .number value => value.negative = false
  | .boolean _ => True
  | .identifier name => IsWord name ∧ name ≠ "true" ∧ name ≠ "false"
  | .property owner part => IsWord owner ∧ IsWord part

/-- The name, if there is one, is a word. -/
structure Argument.WellFormed (a : Argument) : Prop where
  name : ∀ name ∈ a.name, IsWord name
  value : a.value.WellFormed

mutual

/-- The parts of a step are well-formed, and calls do not look like decisions. -/
def Element.WellFormed : Element → Prop
  | .call name args => IsWord name ∧ name ≠ "if" ∧ ∀ a ∈ args, a.WellFormed
  | .decision condition thenBody elseBody =>
    condition.WellFormed ∧ Element.WellFormedList thenBody ∧ Element.WellFormedList elseBody

/-- The steps of a body are well-formed. -/
def Element.WellFormedList : List Element → Prop
  | [] => True
  | element :: elements => element.WellFormed ∧ Element.WellFormedList elements

end

/-- The parts of an action are well-formed, and it has the name of a role exactly if a role
performs it. -/
structure ActionDef.WellFormed (a : ActionDef) : Prop where
  name : IsWord a.name
  role : a.actor = .role ↔ a.roleName.isSome
  roleName : ∀ name ∈ a.roleName, IsWord name
  parameters : ∀ t ∈ a.parameters, t.WellFormed
  description : IsTidy a.description
  inputs : ∀ name ∈ a.inputs, IsWord name
  outputs : ∀ name ∈ a.outputs, IsWord name

/-- The parts of an entity are well-formed. -/
structure EntityDef.WellFormed (e : EntityDef) : Prop where
  name : IsWord e.name
  attributes : ∀ t ∈ e.attributes, t.WellFormed

/-- The parts of a role are well-formed, and its kind is no role. -/
structure RoleDef.WellFormed (r : RoleDef) : Prop where
  name : IsWord r.name
  description : IsTidy r.description
  kind : r.kind ≠ some .role

/-- The parts of a workflow are well-formed. -/
structure WorkflowDef.WellFormed (w : WorkflowDef) : Prop where
  name : IsWord w.name
  elements : Element.WellFormedList w.elements

/-- The parts of a definition are well-formed. -/
def Definition.WellFormed : Definition → Prop
  | .action a => a.WellFormed
  | .entity e => e.WellFormed
  | .role r => r.WellFormed
  | .workflow w => w.WellFormed

/-- The definitions of a program are well-formed. -/
structure Program.WellFormed (p : Program) : Prop where
  actions : ∀ a ∈ p.actions, a.WellFormed
  entities : ∀ e ∈ p.entities, e.WellFormed
  roles : ∀ r ∈ p.roles, r.WellFormed
  workflows : ∀ w ∈ p.workflows, w.WellFormed

theorem Program.WellFormed.definition {p : Program} (h : p.WellFormed) {d : Definition}
    (hd : d ∈ p.definitions) : d.WellFormed := by
  simp only [Program.definitions, List.mem_append, List.mem_map] at hd
  rcases hd with ((⟨r, hr, rfl⟩ | ⟨a, ha, rfl⟩) | ⟨e, he, rfl⟩) | ⟨w, hw, rfl⟩
  · exact h.roles r hr
  · exact h.actions a ha
  · exact h.entities e he
  · exact h.workflows w hw

/-! ## Texts of a program -/

mutual

/-- The values of the arguments in a step, at any depth. -/
def Element.arguments : Element → List Expression
  | .call _ args => args.map Argument.value
  | .decision _ thenBody elseBody =>
    Element.argumentsList thenBody ++ Element.argumentsList elseBody

/-- The values of the arguments in a body, at any depth. -/
def Element.argumentsList : List Element → List Expression
  | [] => []
  | element :: elements => element.arguments ++ Element.argumentsList elements

end

mutual

/-- The conditions in a step, at any depth. -/
def Element.conditions : Element → List Expression
  | .call _ _ => []
  | .decision condition thenBody elseBody =>
    condition :: Element.conditionsList thenBody ++ Element.conditionsList elseBody

/-- The conditions in a body, at any depth. -/
def Element.conditionsList : List Element → List Expression
  | [] => []
  | element :: elements => element.conditions ++ Element.conditionsList elements

end

/-- The expression, if it is a text, satisfies `P`. -/
def Expression.OnText (P : String → Prop) : Expression → Prop
  | .text value => P value
  | _ => True

namespace Program

/-- The descriptions of roles and actions. -/
def descriptions (p : Program) : List String :=
  p.roles.map RoleDef.description ++ p.actions.map ActionDef.description

/-- The values of all arguments. -/
def arguments (p : Program) : List Expression :=
  p.workflows.flatMap fun w => Element.argumentsList w.elements

/-- The conditions of all decisions. -/
def conditions (p : Program) : List Expression :=
  p.workflows.flatMap fun w => Element.conditionsList w.elements

end Program

/-! ## Layouts with nothing that goes on -/

namespace Piece

/-- What may come after any lexeme. -/
def Parts : Piece → Prop
  | .gap _ => True
  | .lexeme _ cs _ => ∀ kind, EndsToken kind cs

/-- What may come after any lexeme, or nothing. -/
def Parting (pieces : List Piece) : Prop := ∀ piece ∈ pieces.head?, piece.Parts

variable {ps qs : List Piece}

theorem parting_nil : Parting [] := fun _ h => by cases h

theorem parting_gap {cs : List Char} : Parting (.gap cs :: qs) := by
  intro piece h
  cases h
  trivial

theorem parting_mark {c : Char} (h : isMark c = true) (hpoint : c ≠ '.') :
    Parting (mark c :: qs) := by
  intro piece hpiece
  cases hpiece
  intro kind
  have hword : isWordChar c = false := of_isMark (isWordChar · = false) (by decide) h
  cases kind with
  | word => simpa [EndsToken] using hword
  | number => simpa [EndsToken] using ⟨(isMark_cases h).2.2.1, hpoint⟩
  | text => trivial
  | mark => trivial

theorem apart_of_parting {kind : TokenKind} (h : Parting qs) : Apart kind qs := by
  cases qs with
  | nil => trivial
  | cons piece qs =>
    cases piece with
    | gap cs => trivial
    | lexeme kind' cs written => exact h _ rfl kind

theorem spaced_plain {kind : TokenKind} {s : String} (h : IsLexeme kind s.toList)
    (hkind : kind ≠ .text) (hqs : Spaced qs) (hparting : Parting qs) :
    Spaced (plain kind s :: qs) :=
  ⟨h, becomes_of_isLexeme h hkind, apart_of_parting hparting, hqs⟩

theorem spaced_word {s : String} (h : IsWord s) (hqs : Spaced qs) (hparting : Parting qs) :
    Spaced (word s :: qs) :=
  spaced_plain (isWord_iff.mp h) (by decide) hqs hparting

theorem spaced_mark {c : Char} (h : isMark c = true) (hqs : Spaced qs) : Spaced (mark c :: qs) := by
  refine ⟨.mark h, becomes_of_isLexeme (.mark h) (by decide), ?_, hqs⟩
  cases qs with
  | nil => trivial
  | cons piece qs => cases piece <;> trivial

theorem isGap_space : Source.IsGap [' '] := .blank (by decide) (by decide)

theorem isGap_line (depth : Nat) : Source.IsGap ('\n' :: List.replicate (2 * depth) ' ') := by
  have hfeed : Source.IsGap ['\n'] := .blank (by decide) (by decide)
  induction 2 * depth with
  | zero => exact hfeed
  | succ n ih =>
    rw [List.replicate_succ', ← List.cons_append]
    exact .append ih isGap_space

theorem spaced_space (hqs : Spaced qs) : Spaced (space :: qs) := ⟨isGap_space, hqs⟩

theorem spaced_line {depth : Nat} (hqs : Spaced qs) : Spaced (line depth :: qs) :=
  ⟨isGap_line depth, hqs⟩

theorem spaced_append (hps : Spaced ps) (hqs : Spaced qs) (hparting : Parting qs) :
    Spaced (ps ++ qs) := by
  induction ps with
  | nil => exact hqs
  | cons piece ps ih =>
    cases piece with
    | gap cs => exact ⟨hps.1, ih hps.2⟩
    | lexeme kind cs written =>
      obtain ⟨hlexeme, hbecomes, hapart, hspaced⟩ := hps
      refine ⟨hlexeme, hbecomes, ?_, ih hspaced⟩
      cases ps with
      | nil => exact apart_of_parting hparting
      | cons piece ps => cases piece <;> exact hapart

theorem spaced_commas {α : Type} {layout : α → List Piece} {xs : List α}
    (h : ∀ x ∈ xs, Spaced (layout x)) : Spaced (commas (xs.map layout)) := by
  induction xs with
  | nil => trivial
  | cons x xs ih =>
    obtain ⟨hx, hxs⟩ := List.forall_mem_cons.mp h
    cases xs with
    | nil => exact hx
    | cons y ys =>
      exact spaced_append hx (spaced_mark (by decide) (spaced_space (ih hxs)))
        (parting_mark (by decide) (by decide))

/-- A list between two marks. -/
theorem spaced_enclosed {first last : Char} (hfirst : isMark first = true)
    (hlast : isMark last = true) (hpoint : last ≠ '.') (hps : Spaced ps) (hqs : Spaced qs) :
    Spaced (mark first :: ps ++ mark last :: qs) :=
  spaced_mark hfirst (spaced_append hps (spaced_mark hlast hqs) (parting_mark hlast hpoint))

end Piece

/-! ## Parts of programs -/

open Piece

theorem isLexeme_of_isNumeral {chars whole fraction : List Char}
    (h : IsNumeral chars whole fraction) : IsLexeme .number chars := by
  obtain ⟨hne, hwhole, hfraction, rfl⟩ := h
  obtain ⟨c, cs, rfl⟩ := List.exists_cons_of_ne_nil hne
  obtain ⟨hc, hcs⟩ := List.forall_mem_cons.mp hwhole
  refine .number hc hcs ?_
  split
  · exact .inl rfl
  · exact .inr ⟨fraction, rfl, hfraction⟩

theorem spaced_expression {e : Expression} (h : e.WellFormed) (hfree : e.OnText IsCommentFree) :
    Spaced e.layout := by
  cases e with
  | text value =>
    exact ⟨isLexeme_quoteText _, becomes_quoteText (fun c hc => (h c hc).1) hfree, trivial, trivial⟩
  | number value =>
    obtain ⟨negative, magnitude⟩ := value
    obtain rfl : negative = false := h
    cases magnitude with
    | infinite => exact spaced_word (by decide) trivial parting_nil
    | finite m =>
      obtain ⟨whole, fraction, hnumeral, -⟩ := literal_reads_back m
      rw [Expression.layout, if_neg (by simp)]
      exact spaced_plain (isLexeme_of_isNumeral hnumeral) (by decide) trivial parting_nil
  | boolean value => cases value <;> exact spaced_word (by decide) trivial parting_nil
  | identifier name => exact spaced_word h.1 trivial parting_nil
  | property owner part =>
    have hpart : Spaced [mark '.', word part] :=
      spaced_mark (by decide) (spaced_word h.2 trivial parting_nil)
    have howner := isWord_iff.mp h.1
    exact ⟨howner, becomes_of_isLexeme howner (by decide), fun c hc => by cases hc; decide, hpart⟩

theorem spaced_argument {a : Argument} (h : a.WellFormed) (hfree : a.value.OnText IsCommentFree) :
    Spaced a.layout := by
  obtain ⟨_ | name, value⟩ := a
  · exact spaced_expression h.value hfree
  · have hvalue := spaced_expression h.value hfree
    rw [Argument.layout]
    dsimp only
    split
    · exact hvalue
    · exact spaced_word (h.name name rfl) (spaced_mark (by decide) (spaced_space hvalue))
        (parting_mark (by decide) (by decide))

theorem spaced_arguments {args : List Argument} {qs : List Piece} (h : ∀ a ∈ args, a.WellFormed)
    (hfree : ∀ a ∈ args, a.value.OnText IsCommentFree) (hqs : Spaced qs) (hparting : Parting qs) :
    Spaced (argumentsLayout args ++ qs) ∧ Parting (argumentsLayout args ++ qs) := by
  unfold argumentsLayout
  split
  · exact ⟨hqs, hparting⟩
  · rw [List.append_assoc, List.singleton_append]
    exact ⟨spaced_enclosed (by decide) (by decide) (by decide)
      (spaced_commas fun a ha => spaced_argument (h a ha) (hfree a ha)) hqs,
      parting_mark (by decide) (by decide)⟩

theorem typeLayout_cons {c : Char} (hc : isLetter c = false) (cs : List Char) :
    typeLayout (c :: cs) = mark c :: typeLayout cs := by
  rw [typeLayout, if_neg (by rw [hc]; decide)]

/-- Letters at the beginning of a type make one word. -/
theorem typeLayout_letters {cs rest : List Char} (hne : cs ≠ [])
    (hletters : ∀ c ∈ cs, isLetter c = true) (hrest : ∀ c ∈ rest.head?, isLetter c = false) :
    typeLayout (cs ++ rest) = .lexeme .word cs cs :: typeLayout rest := by
  induction cs with
  | nil => exact absurd rfl hne
  | cons c cs ih =>
    obtain ⟨hc, hcs⟩ := List.forall_mem_cons.mp hletters
    rw [List.cons_append, typeLayout, if_pos hc]
    cases cs with
    | nil =>
      cases rest with
      | nil => rfl
      | cons d ds =>
        rw [List.nil_append, typeLayout_cons (hrest d rfl)]
        rfl
    | cons c' cs =>
      rw [ih (by simp) hcs]
      rfl

theorem typeLayout_append {c : Char} (hc : isLetter c = false) (cs rest : List Char) :
    typeLayout (cs ++ c :: rest) = typeLayout cs ++ mark c :: typeLayout rest := by
  have hcons : ∀ d pieces, consLetter d (pieces ++ mark c :: typeLayout rest) =
      consLetter d pieces ++ mark c :: typeLayout rest := by
    intro d pieces
    cases pieces with
    | nil => rfl
    | cons piece pieces =>
      cases piece with
      | gap written => rfl
      | lexeme kind chars written => cases kind <;> rfl
  induction cs with
  | nil => exact typeLayout_cons hc rest
  | cons d ds ih =>
    rw [List.cons_append, typeLayout, typeLayout, ih]
    split
    · exact hcons d _
    · rfl

theorem typeLayout_generic {cs argument : List Char} (hne : cs ≠ [])
    (hletters : ∀ c ∈ cs, isLetter c = true) :
    typeLayout (cs ++ '<' :: argument ++ ['>']) =
      .lexeme .word cs cs :: mark '<' :: typeLayout argument ++ [mark '>'] := by
  rw [typeLayout_append (by decide), typeLayout_letters hne hletters (by simp; decide),
    typeLayout_cons (by decide)]
  rfl

theorem typeLayout_plain {cs : List Char} (hne : cs ≠ [])
    (hletters : ∀ c ∈ cs, isLetter c = true) : typeLayout cs = [.lexeme .word cs cs] := by
  have hplain : typeLayout (cs ++ []) = .lexeme .word cs cs :: typeLayout [] :=
    typeLayout_letters hne hletters (by simp)
  rwa [List.append_nil] at hplain

theorem spaced_type {cs : List Char} (h : IsTypeText cs) : Spaced (typeLayout cs) := by
  have hword : ∀ {cs : List Char} {qs : List Piece}, cs ≠ [] → (∀ c ∈ cs, isLetter c = true) →
      Spaced qs → Parting qs → Spaced (.lexeme .word cs cs :: qs) := by
    intro cs qs hne hletters hqs hparting
    obtain ⟨c, cs, rfl⟩ := List.exists_cons_of_ne_nil hne
    obtain ⟨hc, hcs⟩ := List.forall_mem_cons.mp hletters
    have hlexeme : IsLexeme .word (c :: cs) :=
      .word hc fun d hd => isWordChar_of_isLetter (hcs d hd)
    exact ⟨hlexeme, becomes_of_isLexeme hlexeme (by decide), apart_of_parting hparting, hqs⟩
  induction h with
  | plain hne hletters =>
    rw [typeLayout_plain hne hletters]
    exact hword hne hletters trivial parting_nil
  | generic hne hletters hargument ih =>
    rw [typeLayout_generic hne hletters]
    exact hword hne hletters
      (spaced_enclosed (by decide) (by decide) (by decide) ih trivial)
      (parting_mark (by decide) (by decide))

theorem spaced_typedName {t : TypedName} (h : t.WellFormed) : Spaced t.layout :=
  spaced_word h.name (spaced_mark (by decide) (spaced_space (spaced_type h.type)))
    (parting_mark (by decide) (by decide))

/-! ## Bodies -/

theorem parting_body (depth : Nat) (elements : List Element) :
    Parting (Element.layoutList depth elements) := by
  cases elements with
  | nil => exact parting_nil
  | cons element elements => cases element <;> exact parting_gap

theorem spaced_body {elements : List Element} (h : Element.WellFormedList elements)
    (hargs : ∀ e ∈ Element.argumentsList elements, e.OnText IsCommentFree)
    (hconditions : ∀ e ∈ Element.conditionsList elements, e.OnText IsCommentFree) (depth : Nat) :
    Spaced (Element.layoutList depth elements) := by
  induction elements using Element.bodyInduction generalizing depth with
  | nil => trivial
  | call name args rest ih =>
    obtain ⟨⟨hname, -, hwf⟩, hrest⟩ := h
    obtain ⟨hvalues, hargs⟩ := List.forall_mem_append.mp hargs
    obtain ⟨-, hconditions⟩ := List.forall_mem_append.mp hconditions
    have hend : Spaced [mark ';'] := spaced_mark (by decide) trivial
    have hcall := spaced_arguments hwf (fun a ha => hvalues _ (List.mem_map_of_mem ha)) hend
      (parting_mark (by decide) (by decide))
    rw [Element.layoutList]
    exact spaced_append (spaced_line (spaced_word hname hcall.1 hcall.2))
      (ih hrest hargs hconditions depth) (parting_body depth rest)
  | decision condition thenBody elseBody rest ihThen ihElse ih =>
    obtain ⟨⟨hcondition, hthen, helse⟩, hrest⟩ := h
    obtain ⟨hbranches, hargs⟩ := List.forall_mem_append.mp hargs
    obtain ⟨hthenArgs, helseArgs⟩ := List.forall_mem_append.mp hbranches
    obtain ⟨hdecision, hconditions⟩ := List.forall_mem_append.mp hconditions
    obtain ⟨hvalue, hbranches⟩ := List.forall_mem_cons.mp hdecision
    obtain ⟨hthenConditions, helseConditions⟩ := List.forall_mem_append.mp hbranches
    have hhead : Spaced (line depth :: word "if" :: space :: mark '(' :: condition.layout) :=
      spaced_line (spaced_word (by decide) (spaced_space (spaced_mark (by decide)
        (spaced_expression hcondition hvalue))) parting_gap)
    have hfirst : Spaced (mark ')' :: space :: mark '\x7b' ::
        Element.layoutList (depth + 1) thenBody) :=
      spaced_mark (by decide) (spaced_space (spaced_mark (by decide)
        (ihThen hthen hthenArgs hthenConditions _)))
    have hsecond : Spaced (mark '\x7d' :: space :: word "else" :: space :: mark '\x7b' ::
        Element.layoutList (depth + 1) elseBody) :=
      spaced_mark (by decide) (spaced_space (spaced_word (by decide) (spaced_space
        (spaced_mark (by decide) (ihElse helse helseArgs helseConditions _))) parting_gap))
    have hclosing : Spaced [line depth, mark '\x7d'] :=
      spaced_line (spaced_mark (by decide) trivial)
    rw [Element.layoutList, Element.layout]
    refine spaced_append (spaced_append (spaced_append (spaced_append hhead hfirst
      (parting_mark (by decide) (by decide))) ?_ ?_) hclosing parting_gap)
      (ih hrest hargs hconditions depth) (parting_body depth rest)
    · split
      · trivial
      · exact spaced_line hsecond
    · split
      · exact parting_nil
      · exact parting_gap

/-! ## Definitions -/

theorem spaced_attribute {name : String} {value : Option (List Piece)} (hname : IsWord name)
    (h : ∀ ps ∈ value, Spaced ps) :
    Spaced (attributeLayout name value) ∧ Parting (attributeLayout name value) := by
  unfold attributeLayout
  split
  · next ps =>
    refine ⟨spaced_line ?_, parting_gap⟩
    have hvalue : Spaced (mark ':' :: space :: ps) :=
      spaced_mark (by decide) (spaced_space (h ps rfl))
    exact spaced_append (spaced_word hname hvalue (parting_mark (by decide) (by decide)))
      (spaced_mark (by decide) trivial) (parting_mark (by decide) (by decide))
  · exact ⟨trivial, parting_nil⟩

theorem isQuoted_of_plain {cs : List Char} (hquote : '"' ∉ cs) (hescape : '\\' ∉ cs) :
    IsQuoted cs := by
  induction cs with
  | nil => exact .nil
  | cons c cs ih =>
    simp only [List.mem_cons, not_or] at hquote hescape
    exact .plain (Ne.symm hquote.1) (Ne.symm hescape.1) (ih hquote.2 hescape.2)

theorem mem_collapseBlanks {c : Char} {afterBlank : Bool} {cs : List Char}
    (h : c ∈ collapseBlanks afterBlank cs) : (c ∈ cs ∧ isBlank c = false) ∨ c = ' ' := by
  induction cs generalizing afterBlank with
  | nil => cases h
  | cons d ds ih =>
    have hlater : ∀ {afterBlank}, c ∈ collapseBlanks afterBlank ds →
        (c ∈ d :: ds ∧ isBlank c = false) ∨ c = ' ' :=
      fun h => (ih h).imp_left fun hmem => ⟨List.mem_cons_of_mem _ hmem.1, hmem.2⟩
    rw [collapseBlanks] at h
    split at h
    · split at h
      · exact hlater h
      · exact (List.mem_cons.mp h).elim .inr hlater
    · next hblank =>
      rcases List.mem_cons.mp h with rfl | h
      · exact .inl ⟨by simp, Bool.eq_false_iff.mpr hblank⟩
      · exact hlater h

theorem spaced_description {d : String} (h : IsTidy d) (hquotable : IsQuotable d) :
    Spaced (descriptionLayout d) ∧ Parting (descriptionLayout d) := by
  refine spaced_attribute (by decide) fun ps hps => ?_
  split at hps
  · cases hps
  · cases hps
    obtain ⟨hquote, hescape, hfree⟩ := hquotable
    have hcollapsed : IsQuoted (collapseBlanks false d.toList) := by
      refine isQuoted_of_plain (fun hmem => ?_) fun hmem => ?_
      · exact (mem_collapseBlanks hmem).elim (fun hmem => hquote hmem.1) (by decide)
      · exact (mem_collapseBlanks hmem).elim (fun hmem => hescape hmem.1) (by decide)
    have hfree' : Source.CommentFree ('"' :: (d.toList ++ ['"'])) := by
      refine commentFree_cons (by decide) (List.isChain_append.mpr ⟨hfree, by simp, ?_⟩)
      rintro a - b hb ⟨-, rfl⟩
      cases hb
    have hbecomes := becomes_quoted (fun c hc => (h c hc).1) hfree'
    refine ⟨?_, ?_, trivial, trivial⟩
    · rw [collapseText, String.toList_ofList]
      exact .text hcollapsed
    · rw [collapseText, String.toList_ofList]
      exact hbecomes

theorem spaced_names {name : String} {names : List String} (hname : IsWord name)
    (h : ∀ name ∈ names, IsWord name) :
    Spaced (namesLayout name names) ∧ Parting (namesLayout name names) := by
  refine spaced_attribute hname fun ps hps => ?_
  split at hps
  · cases hps
  · cases hps
    exact spaced_enclosed (by decide) (by decide) (by decide)
      (spaced_commas fun x hx => spaced_word (h x hx) trivial parting_nil) trivial

/-- The lines of a block, with the brace that closes it. -/
theorem spaced_block {ps : List Piece} (h : Spaced ps) : Spaced (ps ++ [line 0, mark '\x7d']) :=
  spaced_append h (spaced_line (spaced_mark (by decide) trivial)) parting_gap

/-- A keyword, a name and the opening of a block. -/
theorem spaced_heading {keyword name : String} {ps : List Piece} (hkeyword : IsWord keyword)
    (hname : IsWord name) (hps : Spaced ps) :
    Spaced (word keyword :: space :: word name :: space :: mark '\x7b' :: ps) :=
  spaced_word hkeyword (spaced_space (spaced_word hname (spaced_space
    (spaced_mark (by decide) hps)) parting_gap)) parting_gap

theorem isWord_kind (kind : ActorKind) : IsWord kind.name := by
  cases kind <;> decide

theorem spaced_role {r : RoleDef} (h : r.WellFormed) (hquotable : IsQuotable r.description) :
    Spaced r.layout := by
  obtain ⟨hdescription, -⟩ := spaced_description h.description hquotable
  obtain ⟨hkind, hparting⟩ : Spaced (attributeLayout "type" (r.kind.map fun k => [word k.name])) ∧
      Parting (attributeLayout "type" (r.kind.map fun k => [word k.name])) := by
    refine spaced_attribute (by decide) fun ps hps => ?_
    obtain ⟨kind, -, rfl⟩ := Option.map_eq_some_iff.mp hps
    exact spaced_word (isWord_kind kind) trivial parting_nil
  have hattributes : Spaced r.attributesLayout := spaced_append hdescription hkind hparting
  exact spaced_block (spaced_heading (by decide) h.name hattributes)

theorem spaced_entity {e : EntityDef} (h : e.WellFormed) : Spaced e.layout := by
  have hattributes : Spaced (e.attributes.flatMap TypedName.attributeLayout) := by
    have hwf := h.attributes
    generalize e.attributes = ts at hwf
    induction ts with
    | nil => trivial
    | cons t ts ih =>
      obtain ⟨ht, hts⟩ := List.forall_mem_cons.mp hwf
      have hline : Spaced t.attributeLayout :=
        spaced_append (spaced_line (spaced_typedName ht)) (spaced_mark (by decide) trivial)
          (parting_mark (by decide) (by decide))
      rw [List.flatMap_cons]
      refine spaced_append hline (ih hts) ?_
      cases ts with
      | nil => exact parting_nil
      | cons t ts => exact parting_gap
  exact spaced_block (spaced_heading (by decide) h.name hattributes)

theorem spaced_action {a : ActionDef} (h : a.WellFormed) (hquotable : IsQuotable a.description) :
    Spaced a.layout := by
  obtain ⟨hdescription, -⟩ := spaced_description h.description hquotable
  obtain ⟨hinputs, hpartingInputs⟩ := spaced_names (by decide : IsWord "inputs") h.inputs
  obtain ⟨houtputs, hpartingOutputs⟩ := spaced_names (by decide : IsWord "outputs") h.outputs
  have hperformer : Spaced a.performerLayout := by
    unfold ActionDef.performerLayout
    split
    · next hactor =>
      obtain ⟨name, hname⟩ := Option.isSome_iff_exists.mp (h.role.mp hactor)
      have hword : IsWord (roleNameText a.roleName) := by
        rw [hname]
        exact h.roleName name hname
      exact spaced_word (by decide) (spaced_space (spaced_word hword trivial parting_nil))
        parting_gap
    · exact spaced_word (isWord_kind _) trivial parting_nil
  have hparameters : Spaced a.parametersLayout ∧ Parting a.parametersLayout := by
    unfold ActionDef.parametersLayout
    split
    · exact ⟨trivial, parting_nil⟩
    · exact ⟨spaced_space (spaced_enclosed (by decide) (by decide) (by decide)
        (spaced_commas fun t ht => spaced_typedName (h.parameters t ht)) trivial), parting_gap⟩
  have hheader : Spaced (word "action" :: space :: word a.name :: space :: word "by" :: space ::
      a.performerLayout) :=
    spaced_word (by decide) (spaced_space (spaced_word h.name (spaced_space (spaced_word (by decide)
      (spaced_space hperformer) parting_gap)) parting_gap)) parting_gap
  have hattributes : Spaced a.attributesLayout :=
    spaced_append (spaced_append hdescription hinputs hpartingInputs) houtputs hpartingOutputs
  have hopening : Spaced (space :: mark '\x7b' :: a.attributesLayout) :=
    spaced_space (spaced_mark (by decide) hattributes)
  exact spaced_block (spaced_append (spaced_append hheader hparameters.1 hparameters.2) hopening
    parting_gap)

theorem spaced_workflow {w : WorkflowDef} (h : w.WellFormed)
    (hargs : ∀ e ∈ Element.argumentsList w.elements, e.OnText IsCommentFree)
    (hconditions : ∀ e ∈ Element.conditionsList w.elements, e.OnText IsCommentFree) :
    Spaced w.layout :=
  spaced_block (spaced_heading (by decide) h.name (spaced_body h.elements hargs hconditions 1))

/-- The layout of a well-formed program is one, if its descriptions can be put in quotes and no two
slashes stand together in its other texts. -/
theorem spaced_program {p : Program} (h : p.WellFormed)
    (hdescriptions : ∀ d ∈ p.descriptions, IsQuotable d)
    (hargs : ∀ e ∈ p.arguments, e.OnText IsCommentFree)
    (hconditions : ∀ e ∈ p.conditions, e.OnText IsCommentFree) : Spaced p.layout := by
  obtain ⟨hroles, hactions⟩ := List.forall_mem_append.mp hdescriptions
  have hall : ∀ d ∈ p.definitions, Spaced d.layout := by
    intro d hd
    simp only [Program.definitions, List.mem_append, List.mem_map] at hd
    rcases hd with ((⟨r, hr, rfl⟩ | ⟨a, ha, rfl⟩) | ⟨e, he, rfl⟩) | ⟨w, hw, rfl⟩
    · exact spaced_role (h.roles r hr) (hroles _ (List.mem_map_of_mem hr))
    · exact spaced_action (h.actions a ha) (hactions _ (List.mem_map_of_mem ha))
    · exact spaced_entity (h.entities e he)
    · exact spaced_workflow (h.workflows w hw)
        (fun e he => hargs e (List.mem_flatMap.mpr ⟨w, hw, he⟩))
        fun e he => hconditions e (List.mem_flatMap.mpr ⟨w, hw, he⟩)
  have hgap : Source.IsGap (['\n'] ++ ['\n']) :=
    .append (.blank (by decide) (by decide)) (.blank (by decide) (by decide))
  unfold Program.layout
  generalize p.definitions = ds at hall
  induction ds with
  | nil => trivial
  | cons d ds ih =>
    obtain ⟨hd, hds⟩ := List.forall_mem_cons.mp hall
    rw [List.flatMap_cons, List.append_assoc, List.singleton_append]
    exact spaced_append hd ⟨hgap, ih hds⟩ parting_gap

end RoleFlow
