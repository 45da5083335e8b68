import RoleFlow.Proofs.Accepted

/-!
# No reading adds slashes

What is written for a program that is read has no more slashes than the tokens it is read from, and
these have no more than the document, fewer if a comment begins in it. So a document with a comment
is not what is written for the program that it is read as.

Results:
* `slashes_definition`: what is written for a definition, and the tokens it is read from.
* `render_ne_of_comment`: documents in which a comment begins.
-/

namespace RoleFlow

open Piece Grammar

/-- The number of slashes. -/
def slashes (cs : List Char) : Nat := cs.count '/'

@[simp] theorem slashes_nil : slashes [] = 0 := rfl

@[simp] theorem slashes_append (cs ds : List Char) : slashes (cs ++ ds) = slashes cs + slashes ds :=
  List.count_append

theorem slashes_cons (c : Char) (cs : List Char) :
    slashes (c :: cs) = slashes cs + if c = '/' then 1 else 0 := by
  rw [slashes, List.count_cons]
  simp [slashes]

theorem slashes_eq_zero {cs : List Char} (h : ∀ c ∈ cs, c ≠ '/') : slashes cs = 0 :=
  List.count_eq_zero.mpr fun hmem => h '/' hmem rfl

theorem slashes_le_of_sublist {cs ds : List Char} (h : cs.Sublist ds) : slashes cs ≤ slashes ds :=
  h.count_le '/'

/-! ## What is written -/

theorem slashes_of_isLexeme {kind : TokenKind} {cs : List Char} (h : IsLexeme kind cs)
    (hkind : kind ≠ .text) : slashes cs = 0 := by
  refine slashes_eq_zero fun c hc => ?_
  rintro rfl
  exact (toNat_of_isLexeme h hkind hc).2.2 rfl

theorem slashes_word {s : String} (h : IsWord s) : slashes s.toList = 0 :=
  slashes_of_isLexeme (isWord_iff.mp h) (by decide)

theorem slashes_type {cs : List Char} (h : IsTypeText cs) : slashes cs = 0 := by
  have hletters : ∀ {cs : List Char}, (∀ c ∈ cs, isLetter c = true) → slashes cs = 0 := by
    intro cs h
    refine slashes_eq_zero fun c hc => ?_
    rintro rfl
    exact absurd (h '/' hc) (by decide)
  induction h with
  | plain hne h => exact hletters h
  | generic hne h hargument ih => simp [slashes_cons, hletters h, ih]

theorem slashes_quoteText (value : String) :
    slashes (quoteText value).toList = slashes value.toList := by
  have hescape : slashes (value.toList.flatMap escapeChar) = slashes value.toList := by
    induction value.toList with
    | nil => rfl
    | cons c cs ih =>
      rw [List.flatMap_cons, slashes_append, ih, slashes_cons, escapeChar]
      split
      · next h => rcases h with rfl | rfl <;> simp [slashes_cons]
      · simp [slashes_cons, Nat.add_comm]
  rw [toList_quoteText]
  simp [slashes_cons, hescape]

/-- The slashes of tokens. -/
def tokenSlashes (ts : List Token) : Nat := slashes (ts.flatMap Token.chars)

@[simp] theorem tokenSlashes_cons (t : Token) (ts : List Token) :
    tokenSlashes (t :: ts) = slashes t.chars + tokenSlashes ts := by
  rw [tokenSlashes, List.flatMap_cons, slashes_append]
  rfl

@[simp] theorem tokenSlashes_append (ts us : List Token) :
    tokenSlashes (ts ++ us) = tokenSlashes ts + tokenSlashes us := by
  rw [tokenSlashes, List.flatMap_append, slashes_append]
  rfl

theorem slashes_text (t : Token) :
    slashes (String.ofList (unescape t.chars)).toList ≤ slashes t.chars := by
  rw [String.toList_ofList]
  exact slashes_le_of_sublist (unescape_sublist _)

theorem slashes_expression {ts : List Token} {e : Expression} (h : IsExpression ts e)
    (hts : AllTidy ts) : slashes (raw e.layout) ≤ tokenSlashes ts := by
  have hwf := wellFormed_of_isExpression h hts
  cases h with
  | @text t hkind =>
    have htext := slashes_text t
    simp only [Expression.layout, raw_cons, raw_nil, raw_text, List.append_nil, slashes_quoteText,
      tokenSlashes_cons]
    omega
  | property howner _ hpart _ _ =>
    simp [Expression.layout, slashes_word hwf.1, slashes_word hwf.2, slashes_cons]
  | number hkind =>
    obtain ⟨hlexeme, -⟩ := spaced_expression hwf trivial
    have hzero := slashes_of_isLexeme hlexeme (by split <;> decide)
    simp [Expression.layout, hzero]
  | true hword => simp [Expression.layout, slashes_cons]
  | false hword => simp [Expression.layout, slashes_cons]
  | identifier hkind htrue hfalse => simp [Expression.layout, slashes_word hwf.1]

theorem slashes_argument {ts : List Token} {a : Argument} (h : IsArgument ts a)
    (hts : AllTidy ts) : slashes (raw a.layout) ≤ tokenSlashes ts := by
  have hwf := wellFormed_of_isArgument h hts
  cases h with
  | @named name colon us value hname hcolon hvalue =>
    have hexpression := slashes_expression hvalue (allTidy_cons.mp (allTidy_cons.mp hts).2).2
    have hword := slashes_word (hwf.name _ rfl)
    unfold Argument.layout
    dsimp only
    split
    · simp only [tokenSlashes_cons]
      omega
    · simp [slashes_cons, hword]
      omega
  | positional hvalue => exact slashes_expression hvalue hts

theorem slashes_commas (layouts : List (List Piece)) :
    slashes (raw (commas layouts)) = (layouts.map fun pieces => slashes (raw pieces)).sum := by
  induction layouts with
  | nil => rfl
  | cons pieces more ih =>
    cases more with
    | nil => simp [commas]
    | cons next more =>
      show slashes (raw (pieces ++ mark ',' :: space :: commas (next :: more))) = _
      rw [raw_append, raw_cons, raw_cons, slashes_append, slashes_append, slashes_append, ih,
        List.map_cons, List.sum_cons]
      simp [slashes_cons]

theorem slashes_arguments {ts : List Token} {args : List Argument}
    (h : Parenthesized IsArgument ts args) (hts : AllTidy ts) :
    slashes (raw (argumentsLayout args)) ≤ tokenSlashes ts := by
  have hseparated : ∀ {us : List Token} {xs : List Argument}, Separated IsArgument us xs →
      AllTidy us → (xs.map fun a => slashes (raw a.layout)).sum ≤ tokenSlashes us := by
    intro us xs h hus
    induction h with
    | last head => simpa using slashes_argument head hus
    | more head hcomma tail ih =>
      obtain ⟨hhead, htail⟩ := allTidy_append.mp hus
      have hfirst := slashes_argument head hhead
      have hrest := ih (allTidy_cons.mp htail).2
      simp only [List.map_cons, List.sum_cons, tokenSlashes_append, tokenSlashes_cons]
      omega
  unfold argumentsLayout
  split
  · exact Nat.zero_le _
  · cases h with
    | absent => exact absurd rfl ‹_›
    | present h =>
      cases h with
      | empty => exact absurd rfl ‹_›
      | full hfirst hlast inner =>
        have hinner := hseparated inner (allTidy_cons.mp (allTidy_append.mp hts).1).2
        simp [slashes_cons, slashes_commas, Function.comp_def]
        omega

@[simp] theorem slashes_replicate (n : Nat) : slashes (List.replicate n ' ') = 0 := by
  refine slashes_eq_zero fun c hc => ?_
  rw [(List.mem_replicate.mp hc).2]
  decide

theorem slashes_body {ts : List Token} {elements : List Element} (h : IsBody ts elements)
    (hts : AllTidy ts) (depth : Nat) :
    slashes (raw (Element.layoutList depth elements)) ≤ tokenSlashes ts := by
  induction h generalizing depth with
  | nil => exact Nat.le_refl _
  | call hname hif hargs hsemicolon hrest ih =>
    simp only [List.cons_append, allTidy_cons, allTidy_append] at hts
    obtain ⟨hfirst, harguments, -, hts⟩ := hts
    have hword := slashes_word (isWord_text hfirst hname)
    have hlist := slashes_arguments hargs harguments
    have hmore := ih hts depth
    simp [Element.layoutList, Element.layout, slashes_cons, hword]
    omega
  | ifThen hkeyword hcondition hopening hfirst hclosing hrest helse ihFirst ihRest =>
    simp only [List.cons_append, List.append_assoc, allTidy_cons, allTidy_append] at hts
    obtain ⟨-, hvalue, -, hthen, -, hts⟩ := hts
    cases hcondition with
    | mk _ hexpression _ =>
      simp only [List.cons_append, allTidy_cons, allTidy_append] at hvalue
      have hcondition := slashes_expression hexpression hvalue.2.1
      have hbranch := ihFirst hthen (depth + 1)
      have hmore := ihRest hts depth
      simp [Element.layoutList, Element.layout, slashes_cons]
      omega
  | ifThenElse hkeyword hcondition hopening hfirst hclosing helse helseOpening hsecond helseClosing
    hrest ihFirst ihSecond ihRest =>
    simp only [List.cons_append, List.append_assoc, allTidy_cons, allTidy_append] at hts
    obtain ⟨-, hvalue, -, hthen, -, -, -, helseBody, -, hts⟩ := hts
    cases hcondition with
    | mk _ hexpression _ =>
      simp only [List.cons_append, allTidy_cons, allTidy_append] at hvalue
      have hcondition := slashes_expression hexpression hvalue.2.1
      have hbranch := ihFirst hthen (depth + 1)
      have hother := ihSecond helseBody (depth + 1)
      have hmore := ihRest hts depth
      rw [Element.layoutList, Element.layout]
      split <;>
      · simp [slashes_cons]
        omega

theorem slashes_descriptionLayout (d : String) :
    slashes (raw (descriptionLayout d)) ≤ slashes d.toList := by
  unfold descriptionLayout attributeLayout
  split
  · next h =>
    split at h
    · cases h
    · cases h
      simp [Piece.description, slashes_cons]
  · exact Nat.zero_le _

theorem slashes_commas_eq_zero {α : Type} {layout : α → List Piece} {xs : List α}
    (h : ∀ x ∈ xs, slashes (raw (layout x)) = 0) : slashes (raw (commas (xs.map layout))) = 0 := by
  rw [slashes_commas, List.map_map, List.sum_eq_zero_iff_forall_eq_nat]
  intro n hn
  obtain ⟨x, hx, rfl⟩ := List.mem_map.mp hn
  exact h x hx

theorem slashes_namesLayout {keyword : String} {names : List String}
    (hkeyword : slashes keyword.toList = 0) (h : ∀ name ∈ names, IsWord name) :
    slashes (raw (namesLayout keyword names)) = 0 := by
  have hnames : slashes (raw (commas (names.map ([word ·])))) = 0 := by
    refine slashes_commas_eq_zero fun name hname => ?_
    simp [slashes_word (h name hname)]
  unfold namesLayout attributeLayout
  split
  · next heq =>
    split at heq
    · cases heq
    · cases heq
      simp [slashes_cons, hkeyword, hnames]
  · rfl

theorem slashes_typedName {t : TypedName} (h : t.WellFormed) : slashes (raw t.layout) = 0 := by
  simp [TypedName.layout, slashes_cons, slashes_word h.name, raw_typeLayout, slashes_type h.type]

theorem slashes_header {a : ActionDef} (h : a.WellFormed) :
    slashes (raw a.performerLayout) = 0 ∧ slashes (raw a.parametersLayout) = 0 := by
  constructor
  · unfold ActionDef.performerLayout
    split
    · next hactor =>
      obtain ⟨name, hname⟩ := Option.isSome_iff_exists.mp (h.role.mp hactor)
      simp [hname, roleNameText, slashes_cons, slashes_word (h.roleName name hname)]
    · simp [slashes_word (isWord_kind _)]
  · have hlist := slashes_commas_eq_zero fun t ht => slashes_typedName (h.parameters t ht)
    unfold ActionDef.parametersLayout
    split
    · rfl
    · simp [slashes_cons, hlist]

/-- The last text that is given has no more slashes than the tokens of all attributes. -/
theorem slashes_lastGiven? {α : Type} {phrase : List Token → α → Prop} {given : α → Option String}
    {ts : List Token} {xs : List α} (h : Many phrase ts xs)
    (hphrase : ∀ {us x}, phrase us x → ∀ text ∈ given x, slashes text.toList ≤ tokenSlashes us) :
    slashes ((lastGiven? given xs).getD "").toList ≤ tokenSlashes ts := by
  have hmem : ∀ x ∈ xs, ∃ us, phrase us x ∧ tokenSlashes us ≤ tokenSlashes ts := by
    induction h with
    | nil => simp
    | @cons us vs y ys head tail ih =>
      refine List.forall_mem_cons.mpr ⟨⟨us, head, by simp⟩, fun x hx => ?_⟩
      obtain ⟨ws, hws, hle⟩ := ih x hx
      refine ⟨ws, hws, ?_⟩
      rw [tokenSlashes_append]
      omega
  cases hlast : lastGiven? given xs with
  | none => exact Nat.zero_le _
  | some text =>
    obtain ⟨x, hx, hgiven⟩ := exists_of_lastGiven? hlast
    obtain ⟨us, hus, hle⟩ := hmem x hx
    exact (hphrase hus text hgiven).trans hle

theorem slashes_description {ts : List Token} {text : String}
    (h : IsAttribute "description" IsText ts text) : slashes text.toList ≤ tokenSlashes ts := by
  cases h with
  | mk hword hcolon hvalue hsemicolon =>
    cases hvalue with
    | @text t hkind =>
      have hle := slashes_text t
      simp only [List.cons_append, List.nil_append, tokenSlashes_cons]
      omega

/-- The description of an action has no more slashes than the tokens the action is read from. -/
theorem slashes_actionDescription {ts : List Token} {a : ActionDef} (h : IsAction ts a) :
    slashes a.description.toList ≤ tokenSlashes ts := by
  cases h with
  | mk hkeyword hname hby hactor hparams hopening hattrs hclosing =>
    have hgiven : ∀ {us x}, IsActionAttribute us x →
        ∀ text ∈ x.description?, slashes text.toList ≤ tokenSlashes us := by
      intro us x hphrase text htext
      cases hphrase with
      | description h =>
        cases htext
        exact slashes_description h
      | _ => cases htext
    have hlast := slashes_lastGiven? hattrs hgiven
    simp only [List.cons_append, List.append_assoc, tokenSlashes_cons, tokenSlashes_append]
    omega

/-- The description of a role has no more slashes than the tokens the role is read from. -/
theorem slashes_roleDescription {ts : List Token} {r : RoleDef} (h : IsRole IsKind ts r) :
    slashes r.description.toList ≤ tokenSlashes ts := by
  cases h with
  | mk hkeyword hname hopening hattrs hclosing =>
    have hgiven : ∀ {us x}, IsRoleAttribute IsKind us x →
        ∀ text ∈ x.description?, slashes text.toList ≤ tokenSlashes us := by
      intro us x hphrase text htext
      cases hphrase with
      | description h =>
        cases htext
        exact slashes_description h
      | type h => cases htext
    have hlast := slashes_lastGiven? hattrs hgiven
    simp only [List.cons_append, tokenSlashes_cons, tokenSlashes_append]
    omega

theorem slashes_attributeLayouts {attrs : List TypedName} (h : ∀ t ∈ attrs, t.WellFormed) :
    slashes (raw (attrs.flatMap TypedName.attributeLayout)) = 0 := by
  induction attrs with
  | nil => rfl
  | cons t attrs ih =>
    obtain ⟨ht, hattrs⟩ := List.forall_mem_cons.mp h
    simp [TypedName.attributeLayout, slashes_cons, slashes_typedName ht, ih hattrs]

theorem slashes_kindLayout (kind? : Option ActorKind) :
    slashes (raw (attributeLayout "type" (kind?.map fun k => [word k.name]))) = 0 := by
  cases kind? with
  | none => rfl
  | some kind => cases kind <;> decide

/-- What is written for a definition has no more slashes than the tokens it is read from. -/
theorem slashes_definition {ts : List Token} {d : Definition} (h : IsDefinition IsKind ts d)
    (hts : AllTidy ts) : slashes (raw d.layout) ≤ tokenSlashes ts := by
  cases h with
  | @action a h =>
    have hwf := wellFormed_of_isAction h hts
    have hword := slashes_word hwf.name
    obtain ⟨hperformer, hparameters⟩ := slashes_header hwf
    have hinputs := slashes_namesLayout (by decide : slashes "inputs".toList = 0) hwf.inputs
    have houtputs := slashes_namesLayout (by decide : slashes "outputs".toList = 0) hwf.outputs
    have hdescription := slashes_descriptionLayout a.description
    have htext := slashes_actionDescription h
    simp [Definition.layout, ActionDef.layout, ActionDef.attributesLayout, slashes_cons, hword,
      hperformer, hparameters, hinputs, houtputs]
    omega
  | entity h =>
    have hwf := wellFormed_of_isEntity h hts
    have hword := slashes_word hwf.name
    have hattributes := slashes_attributeLayouts hwf.attributes
    simp [Definition.layout, EntityDef.layout, slashes_cons, hword, hattributes]
  | @role r h =>
    have hwf := wellFormed_of_isRole h hts
    have hword := slashes_word hwf.name
    have hdescription := slashes_descriptionLayout r.description
    have hkind := slashes_kindLayout r.kind
    have htext := slashes_roleDescription h
    simp [Definition.layout, RoleDef.layout, RoleDef.attributesLayout, slashes_cons, hword, hkind]
    omega
  | workflow h =>
    have hwf := wellFormed_of_isWorkflow h hts
    cases h with
    | mk hkeyword hname hopening hbody hclosing =>
      simp only [List.cons_append, allTidy_cons, allTidy_append] at hts
      have hlines := slashes_body hbody hts.2.2.2.1 1
      have hword := slashes_word hwf.name
      simp [Definition.layout, WorkflowDef.layout, slashes_cons] at hword ⊢
      omega

/-! ## Programs -/

/-- The definitions of a program are those it was made of, in another order. -/
theorem definitions_ofDefinitions (ds : List Definition) :
    (Program.ofDefinitions ds).definitions.Perm ds := by
  induction ds with
  | nil => exact List.Perm.refl _
  | cons d ds ih =>
    refine List.Perm.trans ?_ (ih.cons d)
    cases d with
    | role r => exact List.Perm.refl _
    | action a =>
      simp only [Program.definitions, Program.ofDefinitions, List.filterMap_cons, List.map_cons,
        List.append_assoc, List.cons_append]
      exact List.perm_middle
    | entity e =>
      simp only [Program.definitions, Program.ofDefinitions, List.filterMap_cons, List.map_cons,
        List.append_assoc, List.cons_append]
      rw [← List.append_assoc, ← List.append_assoc]
      exact List.perm_middle
    | workflow w =>
      simp only [Program.definitions, Program.ofDefinitions, List.filterMap_cons, List.map_cons]
      exact List.perm_middle

theorem slashes_layout (p : Program) :
    slashes (raw p.layout) = (p.definitions.map fun d => slashes (raw d.layout)).sum := by
  unfold Program.layout
  induction p.definitions with
  | nil => rfl
  | cons d ds ih => simp [ih, slashes_cons]

theorem slashes_program {ts : List Token} {ds : List Definition}
    (h : Many (IsDefinition IsKind) ts ds) (hts : AllTidy ts) :
    slashes (raw (Program.ofDefinitions ds).layout) ≤ tokenSlashes ts := by
  rw [slashes_layout, ((definitions_ofDefinitions ds).map _).sum_nat]
  induction h with
  | nil => exact Nat.le_refl _
  | cons head tail ih =>
    obtain ⟨hhead, htail⟩ := allTidy_append.mp hts
    have hfirst := slashes_definition head hhead
    have hrest := ih htail
    simp only [List.map_cons, List.sum_cons, tokenSlashes_append]
    omega

/-! ## Documents with comments -/

theorem slashes_collapseBlanks (afterBlank : Bool) (cs : List Char) :
    slashes (collapseBlanks afterBlank cs) = slashes cs := by
  induction cs generalizing afterBlank with
  | nil => rfl
  | cons c cs ih =>
    by_cases hblank : isBlank c = true
    · have hc : c ≠ '/' := by
        rintro rfl
        exact absurd hblank (by decide)
      rw [Source.collapseBlanks_blank hblank, slashes_append, ih, slashes_cons, if_neg hc]
      cases afterBlank <;> simp [slashes_cons]
    · rw [Source.collapseBlanks_of_head (Bool.eq_false_iff.mpr hblank), slashes_cons,
        slashes_cons, ih]

theorem slashes_dropComments {cs : List Char} (h : ¬ Source.CommentFree cs) :
    slashes (Source.dropComments false cs) < slashes cs := by
  induction cs with
  | nil => exact absurd .nil h
  | cons c cs ih =>
    cases cs with
    | nil => exact absurd (.singleton c) h
    | cons d ds =>
      by_cases hpair : c = '/' ∧ d = '/'
      · obtain ⟨rfl, rfl⟩ := hpair
        have hle := slashes_le_of_sublist (dropComments_sublist true ds)
        rw [Source.dropComments]
        simp only [slashes_cons, if_true]
        omega
      · have hrest := ih fun hfree => h (.cons_cons hpair hfree)
        have hkeep : Source.dropComments false (c :: d :: ds) =
            c :: Source.dropComments false (d :: ds) := by
          by_cases hc : c = '/'
          · subst hc
            exact Source.dropComments_slash (fun hd => hpair ⟨rfl, hd⟩) ds
          · exact Source.dropComments_cons hc _
        rw [hkeep, slashes_cons, slashes_cons c]
        omega

theorem commentFree_of_filter {keeps : Char → Bool} (hkeeps : keeps '/' = true) {cs : List Char}
    (h : Source.CommentFree (cs.filter keeps)) : Source.CommentFree cs := by
  induction cs with
  | nil => exact .nil
  | cons c cs ih =>
    have hrest : Source.CommentFree cs := by
      refine ih ?_
      rw [List.filter_cons] at h
      split at h
      · exact h.tail
      · exact h
    cases cs with
    | nil => exact .singleton c
    | cons d ds =>
      refine .cons_cons ?_ hrest
      rintro ⟨rfl, rfl⟩
      rw [List.filter_cons_of_pos hkeeps, List.filter_cons_of_pos hkeeps] at h
      exact (List.isChain_cons_cons.mp h).1 ⟨rfl, rfl⟩

/-- A document in which a comment begins is not what is written for the program it is read as. -/
theorem render_ne_of_comment {document : String} {q : Program}
    (hmark : document.toList.head? ≠ some Source.byteOrderMark)
    (hcomment : ¬ IsCommentFree document) (h : (parse document).value = .ok q) :
    q.render ≠ document := by
  intro hrender
  obtain ⟨ds, rfl, hmany⟩ := exists_many_of_parse h
  have htokens := slashes_program hmany fun t => isTidy_of_mem_scan
  have hbuffer := slashes_le_of_sublist (flatMap_chars_scan (Source.buffer document.toList))
  have hdropped : slashes (Source.buffer document.toList) < slashes document.toList := by
    rw [Source.buffer_eq_tidy hmark, Source.tidy, slashes_collapseBlanks]
    have hkept : ¬ Source.CommentFree (document.toList.filter fun c => !Source.isStrayControl c) :=
      fun hfree => hcomment (commentFree_of_filter (by decide) hfree)
    have hfiltered := slashes_dropComments hkept
    exact hfiltered.trans_le (slashes_le_of_sublist List.filter_sublist)
  rw [raw_program, hrender] at htokens
  unfold tokenSlashes at htokens
  omega

end RoleFlow
