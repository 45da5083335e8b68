import RoleFlow.Proofs.Grammar
import RoleFlow.Proofs.Spacing

/-!
# Layouts of programs as phrases of the grammar

The tokens of a part of a program, laid out anywhere, derive that part in the grammar, with every
run of blanks in a text as one space and an identifier for a number that is not finite.

Results:
* `derives_expression`, `derives_argument`: what is laid out in a call or a condition.
* `derives_body`: the steps of a workflow, at any depth of decisions.
* `derives_definitions`: the definitions of a program.
-/

namespace RoleFlow

/-! ## What is read back -/

/-- The expression that a written expression is read as. -/
def Expression.reread : Expression → Expression
  | .text value => .text (collapseText value)
  | .number value => if value.magnitude = .infinite then .identifier "Infinity" else .number value
  | e => e

/-- The argument that a written argument is read as. -/
def Argument.reread (a : Argument) : Argument := ⟨a.name, a.value.reread⟩

mutual

/-- The step that a written step is read as. -/
def Element.reread : Element → Element
  | .call name args => .call name (args.map Argument.reread)
  | .decision condition thenBody elseBody =>
    .decision condition.reread (Element.rereadList thenBody) (Element.rereadList elseBody)

/-- The body that a written body is read as. -/
def Element.rereadList : List Element → List Element
  | [] => []
  | element :: elements => element.reread :: Element.rereadList elements

end

/-- The definition that a written definition is read as. -/
def Definition.reread : Definition → Definition
  | .action a => .action { a with description := collapseText a.description }
  | .entity e => .entity e
  | .role r => .role { r with description := collapseText r.description }
  | .workflow w => .workflow { w with elements := Element.rereadList w.elements }

/-- The program that a written program is read as. -/
def Program.reread (p : Program) : Program := .ofDefinitions (p.definitions.map Definition.reread)

/-! ## Dangling branches -/

/-- Whether a call of the name `else` comes first. -/
def BeginsWithElseCall : List Element → Prop
  | .call name _ :: _ => name = "else"
  | _ => False

mutual

/-- No branch of the step has a call of the name `else` right after a decision without a second
branch. -/
def Element.NoDanglingElse : Element → Prop
  | .call _ _ => True
  | .decision _ thenBody elseBody =>
    Element.NoDanglingElseList thenBody ∧ Element.NoDanglingElseList elseBody

/-- No call of the name `else` comes right after a decision without a second branch, in the body
or a branch in it. -/
def Element.NoDanglingElseList : List Element → Prop
  | [] => True
  | element :: elements =>
    element.NoDanglingElse ∧ Element.NoDanglingElseList elements ∧
      ∀ condition thenBody, element = .decision condition thenBody [] →
        ¬ BeginsWithElseCall elements

end

/-- No call of the name `else` comes right after a decision without a second branch. -/
def Definition.NoDanglingElse : Definition → Prop
  | .workflow w => Element.NoDanglingElseList w.elements
  | _ => True

/-- No call of the name `else` comes right after a decision without a second branch. -/
def Program.NoDanglingElse (p : Program) : Prop :=
  ∀ w ∈ p.workflows, Element.NoDanglingElseList w.elements

theorem Program.noDanglingElse_iff {p : Program} :
    p.NoDanglingElse ↔ ∀ d ∈ p.definitions, d.NoDanglingElse := by
  constructor
  · intro h d hd
    simp only [Program.definitions, List.mem_append, List.mem_map] at hd
    rcases hd with ((⟨r, -, rfl⟩ | ⟨a, -, rfl⟩) | ⟨e, -, rfl⟩) | ⟨w, hw, rfl⟩
    · trivial
    · trivial
    · trivial
    · exact h w hw
  · intro h w hw
    refine h (.workflow w) ?_
    exact List.mem_append_right _ (List.mem_map_of_mem hw)

/-! ## Phrases in layouts -/

open Piece Grammar

/-- The layout is one of a phrase that denotes `x`, wherever it stands. -/
def Derives {α : Type} (phrase : List Token → α → Prop) (pieces : List Piece) (x : α) : Prop :=
  ∀ afterBlank position, phrase (place afterBlank position pieces) x

theorem isWord_word {s w : String} {start stop : Nat} :
    (⟨.word, s.toList, start, stop⟩ : Token).isWord w = decide (s = w) := by
  rw [Bool.eq_iff_iff]
  simp [Token.isWord, String.toList_inj]

theorem isWord_self {s : String} {start stop : Nat} :
    (⟨.word, s.toList, start, stop⟩ : Token).isWord s = true := by
  simp [Token.isWord]

theorem isMark_mark {c : Char} {start stop : Nat} :
    (⟨.mark, [c], start, stop⟩ : Token).isMark c = true := by
  simp [Token.isMark]

theorem text_word (s : String) {start stop : Nat} :
    (⟨.word, s.toList, start, stop⟩ : Token).text = s := by
  simp [Token.text]

theorem derives_word (s : String) : Derives IsName [word s] s := by
  intro afterBlank position
  have hword : ∀ t : Token, t.kind = .word → IsName [t] t.text := fun t ht => .word ht
  have hname := hword ⟨.word, s.toList, position, position + s.toList.length⟩ rfl
  rwa [text_word] at hname

theorem number_of_isNumeral {chars whole fraction : List Char} {start stop : Nat}
    (h : IsNumeral chars whole fraction) :
    (⟨.number, chars, start, stop⟩ : Token).number =
      ⟨false, (Decimal.ofParts whole fraction 0).magnitude⟩ := by
  obtain ⟨-, hwhole, -, rfl⟩ := h
  have hhead : ∀ c ∈ (if fraction = [] then [] else '.' :: fraction).head?, isDigit c = false := by
    intro c hc
    split at hc
    · cases hc
    · cases hc
      decide
  obtain ⟨htake, hdrop⟩ := takeWhile_append_of_head hwhole hhead
  simp only [Token.number, htake, hdrop]
  split
  · next h => rw [h]; rfl
  · rfl

theorem derives_text (value : String) :
    Derives IsExpression [Piece.text value] (.text (collapseText value)) := by
  intro afterBlank position
  have htext : ∀ cs start stop, IsExpression [⟨.text, cs, start, stop⟩]
      (.text (String.ofList (unescape cs))) := fun cs start stop => .text rfl
  have hvalue := htext (quoteText (collapseText value)).toList position
    (position + (quoteText (collapseText value)).toList.length)
  rwa [unescape_quoteText] at hvalue

theorem derives_number {text : String} {whole fraction : List Char}
    (h : IsNumeral text.toList whole fraction) :
    Derives IsExpression [plain .number text]
      (.number ⟨false, (Decimal.ofParts whole fraction 0).magnitude⟩) := by
  intro afterBlank position
  have hnumber : ∀ t : Token, t.kind = .number → IsExpression [t] (.number t.number) :=
    fun t ht => .number ht
  have hvalue := hnumber ⟨.number, text.toList, position, position + text.toList.length⟩ rfl
  rwa [number_of_isNumeral h] at hvalue

theorem derives_identifier {name : String} (htrue : name ≠ "true") (hfalse : name ≠ "false") :
    Derives IsExpression [word name] (.identifier name) := by
  intro afterBlank position
  have hword : ∀ t : Token, t.kind = .word → t.isWord "true" = false → t.isWord "false" = false →
      IsExpression [t] (.identifier t.text) := fun t ht htrue hfalse => .identifier ht htrue hfalse
  have hname := hword ⟨.word, name.toList, position, position + name.toList.length⟩ rfl
    (by rw [isWord_word]; exact decide_eq_false htrue)
    (by rw [isWord_word]; exact decide_eq_false hfalse)
  rwa [text_word] at hname

theorem derives_property (owner part : String) :
    Derives IsExpression [word owner, mark '.', word part] (.property owner part) := by
  intro afterBlank position
  have hproperty : ∀ t u v : Token, t.kind = .word → u.isMark '.' → v.kind = .word →
      t.stop = u.start → u.stop = v.start → IsExpression [t, u, v] (.property t.text v.text) :=
    fun t u v ht hu hv hleft hright => .property ht hu hv hleft hright
  have hvalue := hproperty ⟨.word, owner.toList, position, position + owner.toList.length⟩
    ⟨.mark, ['.'], position + owner.toList.length, position + owner.toList.length + 1⟩
    ⟨.word, part.toList, position + owner.toList.length + 1,
      position + owner.toList.length + 1 + part.toList.length⟩ rfl isMark_mark rfl rfl rfl
  rwa [text_word, text_word] at hvalue

theorem derives_expression {e : Expression} (h : e.WellFormed) :
    Derives IsExpression e.layout e.reread := by
  cases e with
  | text value => exact derives_text value
  | number value =>
    obtain ⟨negative, magnitude⟩ := value
    obtain rfl : negative = false := h
    cases magnitude with
    | infinite =>
      have hlayout : (Expression.number ⟨false, .infinite⟩).layout = [word "Infinity"] := by
        simp [Expression.layout, Double.literal]
      rw [hlayout, Expression.reread, if_pos rfl]
      exact derives_identifier (by decide) (by decide)
    | finite m =>
      obtain ⟨whole, fraction, hnumeral, hread⟩ := literal_reads_back m
      rw [Expression.layout, if_neg (by simp), Expression.reread, if_neg (by simp), ← hread]
      exact derives_number (hread ▸ hnumeral)
  | boolean value =>
    intro afterBlank position
    cases value with
    | true => exact .true rfl
    | false => exact .false rfl
  | identifier name => exact derives_identifier h.2.1 h.2.2
  | property owner part => exact derives_property owner part

/-! ## Lists -/

section Lists

variable {α : Type} {phrase : List Token → α → Prop}

theorem derives_separated {layout : α → List Piece} {read : α → α} {x : α} {xs : List α}
    (h : ∀ y ∈ x :: xs, Derives phrase (layout y) (read y)) :
    Derives (Separated phrase) (commas ((x :: xs).map layout)) ((x :: xs).map read) := by
  induction xs generalizing x with
  | nil =>
    intro afterBlank position
    exact .last (h x (by simp) afterBlank position)
  | cons y ys ih =>
    intro afterBlank position
    obtain ⟨hx, hys⟩ := List.forall_mem_cons.mp h
    show Separated phrase (place afterBlank position
      (layout x ++ mark ',' :: space :: commas ((y :: ys).map layout))) _
    rw [place_append, place, place]
    exact .more (hx afterBlank position) isMark_mark (ih hys _ _)

theorem derives_enclosed {first last : Char} {layout : α → List Piece} {read : α → α} {xs : List α}
    (h : ∀ x ∈ xs, Derives phrase (layout x) (read x)) :
    Derives (Enclosed phrase first last)
      (mark first :: commas (xs.map layout) ++ [mark last]) (xs.map read) := by
  intro afterBlank position
  rw [List.cons_append, place]
  cases xs with
  | nil => exact .empty isMark_mark isMark_mark
  | cons x xs =>
    rw [place_append]
    exact .full isMark_mark isMark_mark (derives_separated h _ _)

end Lists

theorem derives_argument {a : Argument} (h : a.WellFormed) :
    Derives IsArgument a.layout a.reread := by
  intro afterBlank position
  obtain ⟨_ | name, value⟩ := a
  · exact .positional (derives_expression h.value _ _)
  · have hname := h.name name rfl
    have hempty : name.isEmpty = false := by
      refine String.isEmpty_eq_false_iff.mpr ?_
      rintro rfl
      exact absurd hname (by decide)
    have hnamed : ∀ t u : Token, t.kind = .word → u.isMark ':' → ∀ ts x, IsExpression ts x →
        IsArgument (t :: u :: ts) ⟨some t.text, x⟩ := fun t u ht hu ts x hx => .named ht hu hx
    rw [Argument.layout]
    dsimp only
    rw [if_neg (by rw [hempty]; decide), place, place, place]
    have hvalue := hnamed ⟨.word, name.toList, position, position + name.toList.length⟩
      ⟨.mark, [':'], position + name.toList.length, position + name.toList.length + 1⟩ rfl
      isMark_mark _ _ (derives_expression h.value true (position + name.toList.length + 1 + 1))
    rwa [text_word] at hvalue

theorem derives_arguments {args : List Argument} (h : ∀ a ∈ args, a.WellFormed) :
    Derives (Parenthesized IsArgument) (argumentsLayout args) (args.map Argument.reread) := by
  intro afterBlank position
  unfold argumentsLayout
  split
  · next hempty =>
    rw [List.isEmpty_iff.mp hempty]
    exact .absent
  · exact .present (derives_enclosed (fun a ha => derives_argument (h a ha)) _ _)

/-! ## Bodies -/

theorem not_beginsWithElse {elements : List Element} (h : ¬ BeginsWithElseCall elements)
    (depth : Nat) (afterBlank : Bool) (position : Nat) :
    ¬ BeginsWithElse (place afterBlank position (Element.layoutList depth elements)) := by
  rintro ⟨t, ht, helse⟩
  cases elements with
  | nil => cases ht
  | cons element elements =>
    cases element with
    | call name args =>
      cases ht
      rw [isWord_word, decide_eq_true_eq] at helse
      exact h helse
    | decision condition thenBody elseBody =>
      cases ht
      rw [isWord_word] at helse
      exact absurd helse (by decide)

/-- A call. -/
theorem isBody_call {name : String} {start stop : Nat} {semicolon : Token} {ts rest : List Token}
    {args : List Argument} {elements : List Element} (hif : name ≠ "if")
    (hargs : Parenthesized IsArgument ts args) (hsemicolon : semicolon.isMark ';')
    (hrest : IsBody rest elements) :
    IsBody (⟨.word, name.toList, start, stop⟩ :: (ts ++ semicolon :: rest))
      (.call name args :: elements) := by
  have hword : ∀ t : Token, t.kind = .word → t.isWord "if" = false →
      IsBody (t :: (ts ++ semicolon :: rest)) (.call t.text args :: elements) :=
    fun t ht hif => .call ht hif hargs hsemicolon hrest
  have hbody := hword ⟨.word, name.toList, start, stop⟩ rfl
    (by rw [isWord_word]; exact decide_eq_false hif)
  rwa [text_word] at hbody

/-- A decision without a second branch. -/
theorem isBody_ifThen {keyword first last opening closing : Token} {value ts rest : List Token}
    {condition : Expression} {thenBody elements : List Element} (hkeyword : keyword.isWord "if")
    (hfirst : first.isMark '(') (hvalue : IsExpression value condition) (hlast : last.isMark ')')
    (hopening : opening.isMark '\x7b') (hthen : IsBody ts thenBody)
    (hclosing : closing.isMark '\x7d') (hrest : IsBody rest elements)
    (helse : ¬ BeginsWithElse rest) :
    IsBody (keyword :: first :: (value ++ last :: opening :: (ts ++ closing :: rest)))
      (.decision condition thenBody [] :: elements) := by
  have hbody := IsBody.ifThen hkeyword (.mk hfirst hvalue hlast) hopening hthen hclosing hrest helse
  simpa using hbody

/-- A decision with a second branch. -/
theorem isBody_ifThenElse
    {keyword first last opening closing elseWord elseOpening elseClosing : Token}
    {value ts us rest : List Token} {condition : Expression}
    {thenBody elseBody elements : List Element} (hkeyword : keyword.isWord "if")
    (hfirst : first.isMark '(') (hvalue : IsExpression value condition) (hlast : last.isMark ')')
    (hopening : opening.isMark '\x7b') (hthen : IsBody ts thenBody)
    (hclosing : closing.isMark '\x7d') (helse : elseWord.isWord "else")
    (helseOpening : elseOpening.isMark '\x7b') (helseBody : IsBody us elseBody)
    (helseClosing : elseClosing.isMark '\x7d') (hrest : IsBody rest elements) :
    IsBody
      (keyword :: first :: (value ++ last :: opening :: (ts ++ closing :: elseWord :: elseOpening ::
        (us ++ elseClosing :: rest))))
      (.decision condition thenBody elseBody :: elements) := by
  have hbody := IsBody.ifThenElse hkeyword (.mk hfirst hvalue hlast) hopening hthen hclosing helse
    helseOpening helseBody helseClosing hrest
  simpa using hbody

theorem derives_body {elements : List Element} (h : Element.WellFormedList elements)
    (helse : Element.NoDanglingElseList elements) (depth : Nat) :
    Derives IsBody (Element.layoutList depth elements) (Element.rereadList elements) := by
  induction elements using Element.bodyInduction generalizing depth with
  | nil =>
    intro afterBlank position
    exact .nil
  | call name args rest ih =>
    intro afterBlank position
    obtain ⟨⟨-, hif, hargs⟩, hrest⟩ := h
    obtain ⟨-, hnested, -⟩ := helse
    rw [Element.layoutList, Element.layout]
    simp only [List.append_assoc, List.cons_append, List.nil_append, place, place_append]
    exact isBody_call hif (derives_arguments hargs _ _) isMark_mark (ih hrest hnested depth _ _)
  | decision condition thenBody elseBody rest ihThen ihElse ih =>
    intro afterBlank position
    obtain ⟨⟨hcondition, hthen, helseBody⟩, hrest⟩ := h
    obtain ⟨⟨hthenElse, helseElse⟩, hnested, hdangling⟩ := helse
    rw [Element.layoutList, Element.layout]
    by_cases hempty : elseBody.isEmpty = true
    · obtain rfl := List.isEmpty_iff.mp hempty
      rw [if_pos hempty]
      simp only [List.append_assoc, List.cons_append, List.nil_append, place, place_append]
      exact isBody_ifThen isWord_self isMark_mark (derives_expression hcondition _ _) isMark_mark
        isMark_mark (ihThen hthen hthenElse _ _ _) isMark_mark (ih hrest hnested _ _ _)
        (not_beginsWithElse (hdangling condition thenBody rfl) _ _ _)
    · rw [if_neg hempty]
      simp only [List.append_assoc, List.cons_append, List.nil_append, place, place_append]
      exact isBody_ifThenElse isWord_self isMark_mark (derives_expression hcondition _ _)
        isMark_mark isMark_mark (ihThen hthen hthenElse _ _ _) isMark_mark isWord_self isMark_mark
        (ihElse helseBody helseElse _ _ _) isMark_mark (ih hrest hnested _ _ _)

/-! ## Types, actors and attributes -/

theorem derives_type {cs : List Char} (h : IsTypeText cs) :
    Derives IsType (typeLayout cs) (String.ofList cs) := by
  have hname : ∀ {cs : List Char} {start stop : Nat}, (∀ c ∈ cs, isLetter c = true) →
      (⟨.word, cs, start, stop⟩ : Token).isTypeName := by
    intro cs start stop hletters
    simpa [Token.isTypeName] using hletters
  induction h with
  | plain hne hletters =>
    intro afterBlank position
    rw [typeLayout_plain hne hletters]
    exact .plain (hname hletters)
  | @generic cs argument hne hletters hargument ih =>
    intro afterBlank position
    have htext : String.ofList (cs ++ '<' :: argument ++ ['>']) =
        String.ofList cs ++ "<" ++ String.ofList argument ++ ">" := by
      rw [← String.toList_inj]
      simp
    rw [typeLayout_generic hne hletters, htext]
    simp only [List.cons_append, place, place_append]
    exact .generic (hname hletters) isMark_mark (ih _ _) isMark_mark

theorem derives_typedName {t : TypedName} (h : t.WellFormed) :
    Derives IsTypedName t.layout t := by
  intro afterBlank position
  have htyped : ∀ u v : Token, u.kind = .word → v.isMark ':' → ∀ ts type, IsType ts type →
      IsTypedName (u :: v :: ts) ⟨u.text, type⟩ := fun u v hu hv ts type htype => .mk hu hv htype
  have hvalue := htyped ⟨.word, t.name.toList, position, position + t.name.toList.length⟩
    ⟨.mark, [':'], position + t.name.toList.length, position + t.name.toList.length + 1⟩ rfl
    isMark_mark _ _ (derives_type h.type true (position + t.name.toList.length + 1 + 1))
  rwa [text_word, String.ofList_toList] at hvalue

theorem derives_kind {kind : ActorKind} (h : kind ≠ .role) :
    Derives IsKind [word kind.name] kind := by
  intro afterBlank position
  cases kind with
  | ai => exact .ai isWord_self
  | human => exact .human isWord_self
  | role => exact absurd rfl h

theorem derives_performer {a : ActionDef} (h : a.WellFormed) :
    Derives IsActor a.performerLayout (a.actor, a.roleName) := by
  intro afterBlank position
  unfold ActionDef.performerLayout
  split
  · next hactor =>
    obtain ⟨name, hname⟩ := Option.isSome_iff_exists.mp (h.role.mp hactor)
    have hrole : ∀ t u : Token, t.isWord "role" → u.kind = .word →
        IsActor [t, u] (.role, some u.text) := fun t u ht hu => .role ht hu
    rw [hactor, hname]
    have hvalue := hrole ⟨.word, "role".toList, position, position + 4⟩
      ⟨.word, name.toList, position + 4 + 1, position + 4 + 1 + name.toList.length⟩ isWord_self rfl
    rw [text_word] at hvalue
    exact hvalue
  · next hactor =>
    have hname : a.roleName = none := by
      refine Option.not_isSome_iff_eq_none.mp fun hsome => ?_
      exact hactor (h.role.mpr hsome)
    rw [hname]
    exact .kind (derives_kind hactor _ _)

section Attributes

variable {α β : Type} {phrase : List Token → α → Prop}

theorem derives_attribute {keyword : String} {value : List Piece} {x : α}
    (h : Derives phrase value x) :
    Derives (IsAttribute keyword phrase) (attributeLayout keyword (some value)) x := by
  intro afterBlank position
  simp only [attributeLayout, List.cons_append, place, place_append]
  exact .mk isWord_self isMark_mark (h _ _) isMark_mark

theorem many_append {ts us : List Token} {xs ys : List α} (hxs : Many phrase ts xs)
    (hys : Many phrase us ys) : Many phrase (ts ++ us) (xs ++ ys) := by
  induction hxs with
  | nil => exact hys
  | cons head tail ih =>
    rw [List.append_assoc]
    exact .cons head ih

theorem derives_append {ps qs : List Piece} {xs ys : List α} (hps : Derives (Many phrase) ps xs)
    (hqs : Derives (Many phrase) qs ys) : Derives (Many phrase) (ps ++ qs) (xs ++ ys) := by
  intro afterBlank position
  rw [place_append]
  exact many_append (hps _ _) (hqs _ _)

theorem derives_singleton {ps : List Piece} {x : α} (h : Derives phrase ps x) :
    Derives (Many phrase) ps [x] := by
  intro afterBlank position
  have hmany := Many.cons (h afterBlank position) .nil
  rwa [List.append_nil] at hmany

theorem derives_nil : Derives (Many phrase) [] [] := fun _ _ => .nil

end Attributes

theorem dropEscapes_of_not_mem {cs : List Char} (h : '\\' ∉ cs) : dropEscapes cs = cs := by
  induction cs with
  | nil => rfl
  | cons c cs ih =>
    obtain ⟨hc, hcs⟩ := not_or.mp (mt List.mem_cons.mpr h)
    rw [dropEscapes, ih hcs]
    rintro _ _ rfl
    exact absurd rfl hc

theorem derives_description {d : String} (h : IsQuotable d) :
    Derives IsText [Piece.description d] (collapseText d) := by
  intro afterBlank position
  have htext : ∀ cs start stop,
      IsText [⟨.text, cs, start, stop⟩] (String.ofList (unescape cs)) :=
    fun cs start stop => .text rfl
  have hescape : '\\' ∉ (collapseText d).toList := by
    rw [collapseText, String.toList_ofList]
    exact fun hmem => (mem_collapseBlanks hmem).elim (fun hmem => h.2.1 hmem.1) (by decide)
  have hvalue := htext ('"' :: (collapseText d).toList ++ ['"']) position
    (position + ('"' :: (collapseText d).toList ++ ['"']).length)
  rwa [unescape_quoted, dropEscapes_of_not_mem hescape, String.ofList_toList] at hvalue

section Attributes

variable {α : Type} {phrase : List Token → α → Prop}

theorem derives_descriptionLayout {given : String → α} {d : String} (h : IsQuotable d)
    (hgiven : ∀ {ts x}, IsAttribute "description" IsText ts x → phrase ts (given x)) :
    Derives (Many phrase) (descriptionLayout d)
      (if d.isEmpty then [] else [given (collapseText d)]) := by
  unfold descriptionLayout
  split
  · exact derives_nil
  · exact derives_singleton fun _ _ => hgiven (derives_attribute (derives_description h) _ _)

theorem derives_namesLayout {given : List String → α} {keyword : String} (names : List String)
    (hgiven : ∀ {ts x}, IsAttribute keyword (Enclosed IsName '[' ']') ts x → phrase ts (given x)) :
    Derives (Many phrase) (namesLayout keyword names)
      (if names.isEmpty then [] else [given names]) := by
  unfold namesLayout
  split
  · exact derives_nil
  · have hnames : Derives (Enclosed IsName '[' ']')
        (mark '[' :: commas (names.map ([word ·])) ++ [mark ']']) (names.map id) :=
      derives_enclosed fun x _ => derives_word x
    rw [List.map_id] at hnames
    exact derives_singleton fun _ _ => hgiven (derives_attribute hnames _ _)

end Attributes

theorem collapseText_of_isEmpty {d : String} (h : d.isEmpty = true) : collapseText d = "" := by
  rw [String.isEmpty_iff.mp h]
  rfl

theorem lastGiven?_append {α β : Type} (given : α → Option β) (xs ys : List α) :
    lastGiven? given (xs ++ ys) = (lastGiven? given ys).or (lastGiven? given xs) := by
  rw [lastGiven?, List.filterMap_append, List.getLast?_append]
  rfl

theorem lastGiven?_ite {α β : Type} (given : α → Option β) (empty : Bool) (x : α) :
    lastGiven? given (if empty then [] else [x]) = if empty then none else given x := by
  cases empty with
  | true => rfl
  | false =>
    show (List.filterMap given [x]).getLast? = given x
    cases hx : given x <;> simp [hx]

theorem getD_description (d : String) :
    (if d.isEmpty then none else some (collapseText d)).getD "" = collapseText d := by
  split
  · next hempty => exact (collapseText_of_isEmpty hempty).symm
  · rfl

theorem getD_names (names : List String) :
    (if names.isEmpty then none else some names).getD [] = names := by
  split
  · next hempty => exact (List.isEmpty_iff.mp hempty).symm
  · rfl

/-! ## Definitions -/

section Blocks

variable {name : String} {start stop : Nat} {keyword opening closing : Token} {ts : List Token}

theorem isRole_block {attrs : List RoleAttribute} (hkeyword : keyword.isWord "role")
    (hopening : opening.isMark '\x7b') (hattrs : Many (IsRoleAttribute IsKind) ts attrs)
    (hclosing : closing.isMark '\x7d') :
    IsRole IsKind (keyword :: ⟨.word, name.toList, start, stop⟩ :: opening :: (ts ++ [closing]))
      ⟨name, (lastGiven? RoleAttribute.description? attrs).getD "",
        lastGiven? RoleAttribute.kind? attrs⟩ := by
  have hblock : ∀ t : Token, t.kind = .word →
      IsRole IsKind (keyword :: t :: opening :: (ts ++ [closing]))
        ⟨t.text, (lastGiven? RoleAttribute.description? attrs).getD "",
          lastGiven? RoleAttribute.kind? attrs⟩ :=
    fun t ht => .mk hkeyword ht hopening hattrs hclosing
  have hrole := hblock ⟨.word, name.toList, start, stop⟩ rfl
  rwa [text_word] at hrole

theorem isEntity_block {attrs : List TypedName} (hkeyword : keyword.isWord "entity")
    (hopening : opening.isMark '\x7b') (hattrs : Many IsEntityAttribute ts attrs)
    (hclosing : closing.isMark '\x7d') :
    IsEntity (keyword :: ⟨.word, name.toList, start, stop⟩ :: opening :: (ts ++ [closing]))
      ⟨name, attrs⟩ := by
  have hblock : ∀ t : Token, t.kind = .word →
      IsEntity (keyword :: t :: opening :: (ts ++ [closing])) ⟨t.text, attrs⟩ :=
    fun t ht => .mk hkeyword ht hopening hattrs hclosing
  have hentity := hblock ⟨.word, name.toList, start, stop⟩ rfl
  rwa [text_word] at hentity

theorem isWorkflow_block {elements : List Element} (hkeyword : keyword.isWord "workflow")
    (hopening : opening.isMark '\x7b') (hbody : IsBody ts elements)
    (hclosing : closing.isMark '\x7d') :
    IsWorkflow (keyword :: ⟨.word, name.toList, start, stop⟩ :: opening :: (ts ++ [closing]))
      ⟨name, elements⟩ := by
  have hblock : ∀ t : Token, t.kind = .word →
      IsWorkflow (keyword :: t :: opening :: (ts ++ [closing])) ⟨t.text, elements⟩ :=
    fun t ht => .mk hkeyword ht hopening hbody hclosing
  have hworkflow := hblock ⟨.word, name.toList, start, stop⟩ rfl
  rwa [text_word] at hworkflow

theorem isAction_block {byWord : Token} {actor parameters : List Token} {kind : ActorKind}
    {roleName : Option String} {params : List TypedName} {attrs : List ActionAttribute}
    (hkeyword : keyword.isWord "action") (hby : byWord.isWord "by")
    (hactor : IsActor actor (kind, roleName))
    (hparams : Parenthesized IsTypedName parameters params) (hopening : opening.isMark '\x7b')
    (hattrs : Many IsActionAttribute ts attrs) (hclosing : closing.isMark '\x7d') :
    IsAction (keyword :: ⟨.word, name.toList, start, stop⟩ :: byWord ::
        (actor ++ (parameters ++ opening :: (ts ++ [closing]))))
      ⟨name, kind, roleName, params, (lastGiven? ActionAttribute.description? attrs).getD "",
        (lastGiven? ActionAttribute.inputs? attrs).getD [],
        (lastGiven? ActionAttribute.outputs? attrs).getD []⟩ := by
  have hblock := fun (t : Token) (ht : t.kind = .word) =>
    IsAction.mk hkeyword ht hby hactor hparams hopening hattrs hclosing
  have haction := hblock ⟨.word, name.toList, start, stop⟩ rfl
  rw [text_word] at haction
  simpa using haction

end Blocks

theorem derives_role {r : RoleDef} (h : r.WellFormed) (hquotable : IsQuotable r.description) :
    Derives (IsRole IsKind) r.layout { r with description := collapseText r.description } := by
  have hkind : Derives (Many (IsRoleAttribute IsKind))
      (attributeLayout "type" (r.kind.map fun kind => [word kind.name]))
      (r.kind.map RoleAttribute.type).toList := by
    cases hr : r.kind with
    | none => exact derives_nil
    | some kind =>
      have hne : kind ≠ .role := fun heq => h.kind (heq ▸ hr)
      exact derives_singleton fun _ _ => .type (derives_attribute (derives_kind hne) _ _)
  obtain ⟨attrs, hattrs, hdescription, hgiven⟩ : ∃ attrs,
      Derives (Many (IsRoleAttribute IsKind)) r.attributesLayout attrs ∧
        (lastGiven? RoleAttribute.description? attrs).getD "" = collapseText r.description ∧
        lastGiven? RoleAttribute.kind? attrs = r.kind := by
    refine ⟨_, derives_append (derives_descriptionLayout hquotable .description) hkind, ?_, ?_⟩
    · rw [lastGiven?_append, lastGiven?_ite]
      cases r.kind <;> exact getD_description r.description
    · rw [lastGiven?_append, lastGiven?_ite]
      cases r.kind with
      | none => simp [lastGiven?, RoleAttribute.kind?]
      | some kind => rfl
  intro afterBlank position
  rw [← hdescription, ← hgiven]
  simp only [RoleDef.layout, List.cons_append, place, place_append]
  exact isRole_block isWord_self isMark_mark (hattrs _ _) isMark_mark

theorem derives_parameters {a : ActionDef} (h : a.WellFormed) :
    Derives (Parenthesized IsTypedName) a.parametersLayout a.parameters := by
  intro afterBlank position
  unfold ActionDef.parametersLayout
  split
  · next hempty =>
    rw [List.isEmpty_iff.mp hempty]
    exact .absent
  · have hlist : Derives (Enclosed IsTypedName '(' ')')
        (mark '(' :: commas (a.parameters.map TypedName.layout) ++ [mark ')'])
        (a.parameters.map id) :=
      derives_enclosed fun t ht => derives_typedName (h.parameters t ht)
    rw [List.map_id] at hlist
    exact .present (hlist true (if afterBlank then position else position + 1))

theorem derives_action {a : ActionDef} (h : a.WellFormed) (hquotable : IsQuotable a.description) :
    Derives IsAction a.layout { a with description := collapseText a.description } := by
  obtain ⟨attrs, hattrs, hdescription, hinputs, houtputs⟩ : ∃ attrs,
      Derives (Many IsActionAttribute) a.attributesLayout attrs ∧
        (lastGiven? ActionAttribute.description? attrs).getD "" = collapseText a.description ∧
        (lastGiven? ActionAttribute.inputs? attrs).getD [] = a.inputs ∧
        (lastGiven? ActionAttribute.outputs? attrs).getD [] = a.outputs := by
    have hnames : Derives (Many IsActionAttribute) a.attributesLayout _ :=
      derives_append (derives_append (derives_descriptionLayout hquotable .description)
        (derives_namesLayout a.inputs .inputs)) (derives_namesLayout a.outputs .outputs)
    refine ⟨_, hnames, ?_, ?_, ?_⟩
    · simp only [lastGiven?_append, lastGiven?_ite, ActionAttribute.description?, ite_self,
        Option.none_or]
      exact getD_description a.description
    · simp only [lastGiven?_append, lastGiven?_ite, ActionAttribute.inputs?, ite_self,
        Option.none_or, Option.or_none]
      exact getD_names a.inputs
    · simp only [lastGiven?_append, lastGiven?_ite, ActionAttribute.outputs?, ite_self,
        Option.or_none]
      exact getD_names a.outputs
  intro afterBlank position
  rw [← hdescription, ← hinputs, ← houtputs]
  simp only [ActionDef.layout, List.cons_append, List.append_assoc, place, place_append]
  exact isAction_block isWord_self isWord_self (derives_performer h _ _) (derives_parameters h _ _)
    isMark_mark (hattrs _ _) isMark_mark

theorem derives_entity {e : EntityDef} (h : e.WellFormed) : Derives IsEntity e.layout e := by
  have hattrs : Derives (Many IsEntityAttribute) (e.attributes.flatMap TypedName.attributeLayout)
      e.attributes := by
    have hwf := h.attributes
    generalize e.attributes = ts at hwf
    induction ts with
    | nil => exact derives_nil
    | cons t ts ih =>
      obtain ⟨ht, hts⟩ := List.forall_mem_cons.mp hwf
      intro afterBlank position
      rw [List.flatMap_cons, place_append]
      refine .cons ?_ (ih hts _ _)
      simp only [TypedName.attributeLayout, List.cons_append, place, place_append]
      exact .mk (derives_typedName ht _ _) isMark_mark
  intro afterBlank position
  simp only [EntityDef.layout, List.cons_append, place, place_append]
  exact isEntity_block isWord_self isMark_mark (hattrs _ _) isMark_mark

theorem derives_workflow {w : WorkflowDef} (h : w.WellFormed)
    (helse : Element.NoDanglingElseList w.elements) :
    Derives IsWorkflow w.layout { w with elements := Element.rereadList w.elements } := by
  intro afterBlank position
  simp only [WorkflowDef.layout, List.cons_append, place, place_append]
  exact isWorkflow_block isWord_self isMark_mark (derives_body h.elements helse 1 _ _) isMark_mark

/-! ## Programs -/

theorem derives_definition {p : Program} (h : p.WellFormed)
    (hdescriptions : ∀ d ∈ p.descriptions, IsQuotable d) {d : Definition} (hd : d ∈ p.definitions)
    (helse : d.NoDanglingElse) : Derives (IsDefinition IsKind) d.layout d.reread := by
  obtain ⟨hroles, hactions⟩ := List.forall_mem_append.mp hdescriptions
  intro afterBlank position
  simp only [Program.definitions, List.mem_append, List.mem_map] at hd
  rcases hd with ((⟨r, hr, rfl⟩ | ⟨a, ha, rfl⟩) | ⟨e, he, rfl⟩) | ⟨w, hw, rfl⟩
  · exact .role (derives_role (h.roles r hr) (hroles _ (List.mem_map_of_mem hr)) _ _)
  · exact .action (derives_action (h.actions a ha) (hactions _ (List.mem_map_of_mem ha)) _ _)
  · exact .entity (derives_entity (h.entities e he) _ _)
  · exact .workflow (derives_workflow (h.workflows w hw) helse _ _)

theorem derives_definitions {ds : List Definition}
    (h : ∀ d ∈ ds, Derives (IsDefinition IsKind) d.layout d.reread) :
    Derives (Many (IsDefinition IsKind)) (ds.flatMap fun d => d.layout ++ [.gap ['\n', '\n']])
      (ds.map Definition.reread) := by
  induction ds with
  | nil => exact derives_nil
  | cons d ds ih =>
    obtain ⟨hd, hds⟩ := List.forall_mem_cons.mp h
    intro afterBlank position
    rw [List.flatMap_cons, List.append_assoc, place_append, List.singleton_append, place]
    exact .cons (hd _ _) (ih hds _ _)

end RoleFlow
