import Mathlib.Data.List.TakeWhile
import RoleFlow.Proofs.Parsing
import RoleFlow.Proofs.Spacing

/-!
# Programs that are read are well-formed

A token of the buffer is a lexeme, and its characters stand in the buffer, which has no control
characters and no blanks but spaces. So what the grammar derives from the tokens is well-formed,
except that a description may have to be escaped.

Results:
* `flatMap_chars_scan`, `sound_scan`: the characters of the tokens, and each token by itself.
* `wellFormed_of_parse`: programs that are read.
-/

namespace RoleFlow

/-! ## Tokens of a buffer -/

theorem splitNumber_digits (input : List Char) :
    ∃ whole fraction, (splitNumber input).1 = whole ++ fraction ∧
      (∀ d ∈ whole, isDigit d = true) ∧ (fraction = [] ∨
        ∃ digits, fraction = '.' :: digits ∧ ∀ d ∈ digits, isDigit d = true) := by
  have hdigits : ∀ cs : List Char, ∀ d ∈ cs.takeWhile isDigit, isDigit d = true :=
    fun cs d hd => List.mem_takeWhile_imp hd
  unfold splitNumber
  dsimp only
  split
  · next rest _ => exact ⟨_, _, rfl, hdigits _, .inr ⟨_, rfl, hdigits rest⟩⟩
  · exact ⟨_, [], (List.append_nil _).symm, hdigits _, .inl rfl⟩

theorem isQuoted_of_splitText {input text rest : List Char}
    (h : splitText input = some (text, rest)) :
    ∃ body, text = body ++ ['"'] ∧ IsQuoted body := by
  fun_induction splitText input generalizing text rest with
  | case1 => cases h
  | case2 =>
    cases h
    exact ⟨[], rfl, .nil⟩
  | case3 => cases h
  | case4 c cs hc ih =>
    obtain ⟨⟨text, rest⟩, ht, he⟩ := Option.map_eq_some_iff.mp h
    cases he
    obtain ⟨body, rfl, hbody⟩ := ih ht
    exact ⟨'\\' :: c :: body, rfl, .escape hc hbody⟩
  | case5 => cases h
  | case6 c cs hquote hescape hend ih =>
    obtain ⟨⟨text, rest⟩, ht, he⟩ := Option.map_eq_some_iff.mp h
    cases he
    obtain ⟨body, rfl, hbody⟩ := ih ht
    refine ⟨c :: body, rfl, .plain hquote (fun hc => ?_) hbody⟩
    cases cs with
    | nil => exact hend hc rfl
    | cons d ds => exact hescape d ds hc rfl

theorem of_ofSplit {kind : TokenKind} {position : Nat} {first : Char} {input rest : List Char}
    {more : List Char × List Char} {h : more.1 ++ more.2 = input} {token : Token} {hshorter}
    (heq : Scanned.ofSplit kind position first input more h = .token token rest hshorter) :
    token.kind = kind ∧ token.chars = first :: more.1 ∧ token.chars ++ rest = first :: input := by
  cases heq
  exact ⟨rfl, rfl, congrArg (first :: ·) h⟩

theorem of_scanToken {first : Char} {input rest : List Char} {position : Nat} {token : Token}
    {hshorter} (h : scanToken first input position = .token token rest hshorter) :
    IsLexeme token.kind token.chars ∧ token.chars ++ rest = first :: input := by
  unfold scanToken at h
  split at h
  · next hletter =>
    obtain ⟨hkind, hchars, htiles⟩ := of_ofSplit h
    rw [hkind, hchars]
    rw [hchars] at htiles
    exact ⟨.word hletter fun d hd => List.mem_takeWhile_imp hd, htiles⟩
  split at h
  · next hdigit =>
    obtain ⟨hkind, hchars, htiles⟩ := of_ofSplit h
    obtain ⟨whole, fraction, hsplit, hwhole, hfraction⟩ := splitNumber_digits input
    rw [hkind, hchars]
    rw [hchars] at htiles
    refine ⟨?_, htiles⟩
    rw [hsplit]
    exact .number hdigit hwhole hfraction
  split at h
  · next hquote =>
    split at h
    · next more hmore =>
      obtain ⟨hkind, hchars, htiles⟩ := of_ofSplit h
      obtain ⟨body, hbody, hquoted⟩ := isQuoted_of_splitText hmore
      rw [hkind, hchars]
      rw [hchars] at htiles
      refine ⟨?_, htiles⟩
      rw [hbody, hquote]
      exact .text hquoted
    · cases h
  split at h
  · next hmark =>
    obtain ⟨hkind, hchars, htiles⟩ := of_ofSplit h
    rw [hkind, hchars]
    rw [hchars] at htiles
    exact ⟨.mark hmark, htiles⟩
  · cases h

theorem of_scanNext {input rest : List Char} {position : Nat} {token : Token} {hshorter}
    (h : scanNext input position = .token token rest hshorter) :
    IsLexeme token.kind token.chars ∧ (token.chars ++ rest).Sublist input := by
  induction input generalizing position with
  | nil => cases h
  | cons c cs ih =>
    rw [scanNext] at h
    split at h
    · split at h
      · next htoken =>
        cases h
        obtain ⟨hlexeme, hsublist⟩ := ih htoken
        exact ⟨hlexeme, hsublist.cons c⟩
      · cases h
      · cases h
    · obtain ⟨hlexeme, htiles⟩ := of_scanToken h
      rw [htiles]
      exact ⟨hlexeme, List.Sublist.refl _⟩

/-- The characters of the tokens stand in the buffer in this order, and every token is a lexeme. -/
theorem of_scanFrom (input : List Char) (position : Nat) :
    ((scanFrom input position).1.flatMap Token.chars).Sublist input ∧
      ∀ t ∈ (scanFrom input position).1, IsLexeme t.kind t.chars := by
  fun_induction scanFrom input position with
  | case1 input position token rest shorter hnext tokens fault? hmore ih =>
    obtain ⟨hlexeme, hsublist⟩ := of_scanNext hnext
    rw [hmore] at ih
    refine ⟨?_, List.forall_mem_cons.mpr ⟨hlexeme, ih.2⟩⟩
    rw [List.flatMap_cons]
    exact (List.Sublist.append (List.Sublist.refl _) ih.1).trans hsublist
  | case2 => exact ⟨List.nil_sublist _, fun t ht => by cases ht⟩
  | case3 => exact ⟨List.nil_sublist _, fun t ht => by cases ht⟩

theorem flatMap_chars_scan (buffer : List Char) :
    ((scan buffer).tokens.flatMap Token.chars).Sublist buffer :=
  (of_scanFrom buffer 0).1

theorem dropComments_sublist (inComment : Bool) (cs : List Char) :
    (Source.dropComments inComment cs).Sublist cs := by
  fun_induction Source.dropComments inComment cs with
  | case1 => exact List.Sublist.refl _
  | case2 cs ih => exact ih.cons_cons _
  | case3 c cs hfeed ih => exact ih.cons _
  | case4 cs ih => exact (ih.cons _).cons _
  | case5 c cs hslash ih => exact ih.cons_cons _

theorem mem_buffer {document : List Char} {c : Char} (h : c ∈ Source.buffer document) :
    Source.isStrayControl c = false ∧ (isBlank c = true → c = ' ') := by
  rcases mem_collapseBlanks h with ⟨hmem, hblank⟩ | rfl
  · have hkept := (List.mem_filter.mp ((dropComments_sublist _ _).mem hmem)).2
    refine ⟨by simpa using hkept, fun h => ?_⟩
    rw [hblank] at h
    cases h
  · decide

/-- A lexeme without control characters, and without blanks other than spaces. -/
structure Token.IsTidy (t : Token) : Prop where
  lexeme : IsLexeme t.kind t.chars
  chars : ∀ c ∈ t.chars, Source.isStrayControl c = false ∧ (isBlank c = true → c = ' ')

theorem isTidy_of_mem_scan {document : List Char} {t : Token}
    (h : t ∈ (scan (Source.buffer document)).tokens) : t.IsTidy := by
  refine ⟨(of_scanFrom _ 0).2 t h, fun c hc => ?_⟩
  have hmem : c ∈ Source.buffer document :=
    (flatMap_chars_scan _).mem (List.mem_flatMap.mpr ⟨t, h, hc⟩)
  exact mem_buffer hmem

/-! ## Phrases of tidy tokens -/

open Grammar

/-- Every token is tidy. -/
def AllTidy (ts : List Token) : Prop := ∀ t ∈ ts, t.IsTidy

theorem allTidy_cons {t : Token} {ts : List Token} : AllTidy (t :: ts) ↔ t.IsTidy ∧ AllTidy ts :=
  List.forall_mem_cons

theorem allTidy_append {ts us : List Token} : AllTidy (ts ++ us) ↔ AllTidy ts ∧ AllTidy us :=
  List.forall_mem_append

theorem isWord_text {t : Token} (h : t.IsTidy) (hkind : t.kind = .word) : IsWord t.text := by
  have hlexeme := h.lexeme
  rw [hkind] at hlexeme
  rw [isWord_iff, Token.text, String.toList_ofList]
  exact hlexeme

theorem dropEscapes_sublist (cs : List Char) : (dropEscapes cs).Sublist cs := by
  fun_induction dropEscapes cs with
  | case1 => exact List.Sublist.refl _
  | case2 d ds ih => exact (ih.cons_cons _).cons _
  | case3 d ds hescape ih => exact ih.cons_cons _

theorem unescape_sublist (cs : List Char) : (unescape cs).Sublist cs :=
  (dropEscapes_sublist _).trans ((List.dropLast_sublist _).trans (List.drop_sublist _ _))

theorem isTidy_unescape {t : Token} (h : t.IsTidy) :
    IsTidy (String.ofList (unescape t.chars)) := by
  intro c hc
  rw [String.toList_ofList] at hc
  exact h.chars c ((unescape_sublist _).mem hc)

section Lists

variable {α : Type} {phrase : List Token → α → Prop} {P : α → Prop} {ts : List Token} {xs : List α}

theorem forall_of_many (hphrase : ∀ {us x}, phrase us x → AllTidy us → P x)
    (h : Many phrase ts xs) (hts : AllTidy ts) : ∀ x ∈ xs, P x := by
  induction h with
  | nil => simp
  | cons head tail ih =>
    obtain ⟨hhead, htail⟩ := allTidy_append.mp hts
    exact List.forall_mem_cons.mpr ⟨hphrase head hhead, ih htail⟩

theorem forall_of_separated (hphrase : ∀ {us x}, phrase us x → AllTidy us → P x)
    (h : Separated phrase ts xs) (hts : AllTidy ts) : ∀ x ∈ xs, P x := by
  induction h with
  | last head => simpa using hphrase head hts
  | more head hcomma tail ih =>
    obtain ⟨hhead, htail⟩ := allTidy_append.mp hts
    exact List.forall_mem_cons.mpr ⟨hphrase head hhead, ih (allTidy_cons.mp htail).2⟩

theorem forall_of_enclosed {opening closing : Char}
    (hphrase : ∀ {us x}, phrase us x → AllTidy us → P x)
    (h : Enclosed phrase opening closing ts xs) (hts : AllTidy ts) : ∀ x ∈ xs, P x := by
  cases h with
  | empty => simp
  | full hfirst hlast inner =>
    exact forall_of_separated hphrase inner (allTidy_cons.mp (allTidy_append.mp hts).1).2

theorem forall_of_parenthesized (hphrase : ∀ {us x}, phrase us x → AllTidy us → P x)
    (h : Parenthesized phrase ts xs) (hts : AllTidy ts) : ∀ x ∈ xs, P x := by
  cases h with
  | absent => simp
  | present h => exact forall_of_enclosed hphrase h hts

end Lists

theorem isWord_of_isName {ts : List Token} {s : String} (h : IsName ts s) (hts : AllTidy ts) :
    IsWord s := by
  cases h with
  | word hkind => exact isWord_text (hts _ (by simp)) hkind

theorem isTidy_of_isText {ts : List Token} {s : String} (h : IsText ts s) (hts : AllTidy ts) :
    IsTidy s := by
  cases h with
  | text hkind => exact isTidy_unescape (hts _ (by simp))

theorem isTypeText_of_isType {ts : List Token} {s : String} (h : IsType ts s) (hts : AllTidy ts) :
    IsTypeText s.toList := by
  have hletters : ∀ {t : Token}, t.IsTidy → t.isTypeName →
      t.text.toList ≠ [] ∧ ∀ c ∈ t.text.toList, isLetter c = true := by
    intro t ht hname
    rw [Token.text, String.toList_ofList]
    exact ⟨isLexeme_ne_nil ht.lexeme, List.all_eq_true.mp (Bool.and_eq_true _ _ ▸ hname).2⟩
  induction h with
  | plain h =>
    obtain ⟨hne, hall⟩ := hletters (hts _ (by simp)) h
    exact .plain hne hall
  | @generic t less greater ts argument h hless inner hgreater ih =>
    obtain ⟨hfirst, hlast⟩ := allTidy_append.mp hts
    obtain ⟨ht, hrest⟩ := allTidy_cons.mp hfirst
    obtain ⟨hne, hall⟩ := hletters ht h
    have hargument := ih (allTidy_cons.mp hrest).2
    have htext : (t.text ++ "<" ++ argument ++ ">").toList =
        t.text.toList ++ '<' :: argument.toList ++ ['>'] := by simp
    rw [htext]
    exact .generic hne hall hargument

theorem wellFormed_of_isTypedName {ts : List Token} {t : TypedName} (h : IsTypedName ts t)
    (hts : AllTidy ts) : t.WellFormed := by
  cases h with
  | mk hname hcolon htype =>
    obtain ⟨hfirst, hrest⟩ := allTidy_cons.mp hts
    exact ⟨isWord_text hfirst hname, isTypeText_of_isType htype (allTidy_cons.mp hrest).2⟩

theorem text_ne {t : Token} {w : String} (hkind : t.kind = .word) (h : t.isWord w = false) :
    t.text ≠ w := by
  rintro rfl
  rw [Token.isWord, hkind, Token.text, String.toList_ofList] at h
  simp at h

theorem wellFormed_of_isExpression {ts : List Token} {e : Expression} (h : IsExpression ts e)
    (hts : AllTidy ts) : e.WellFormed := by
  cases h with
  | property howner _ hpart _ _ =>
    exact ⟨isWord_text (hts _ (by simp)) howner, isWord_text (hts _ (by simp)) hpart⟩
  | text hkind => exact isTidy_unescape (hts _ (by simp))
  | number hkind => rfl
  | true hword => trivial
  | false hword => trivial
  | identifier hkind htrue hfalse =>
    exact ⟨isWord_text (hts _ (by simp)) hkind, text_ne hkind htrue, text_ne hkind hfalse⟩

theorem wellFormed_of_isArgument {ts : List Token} {a : Argument} (h : IsArgument ts a)
    (hts : AllTidy ts) : a.WellFormed := by
  cases h with
  | named hname hcolon hvalue =>
    obtain ⟨hfirst, hrest⟩ := allTidy_cons.mp hts
    refine ⟨fun name hmem => ?_, wellFormed_of_isExpression hvalue (allTidy_cons.mp hrest).2⟩
    cases hmem
    exact isWord_text hfirst hname
  | positional hvalue => exact ⟨by simp, wellFormed_of_isExpression hvalue hts⟩

theorem wellFormed_of_isBody {ts : List Token} {elements : List Element} (h : IsBody ts elements)
    (hts : AllTidy ts) : Element.WellFormedList elements := by
  induction h with
  | nil => trivial
  | call hname hif hargs hsemicolon hrest ih =>
    simp only [List.cons_append, allTidy_cons, allTidy_append] at hts
    obtain ⟨hfirst, harguments, -, hts⟩ := hts
    exact ⟨⟨isWord_text hfirst hname, text_ne hname hif,
      forall_of_parenthesized wellFormed_of_isArgument hargs harguments⟩, ih hts⟩
  | ifThen hkeyword hcondition hopening hfirst hclosing hrest helse ihFirst ihRest =>
    simp only [List.cons_append, List.append_assoc, allTidy_cons, allTidy_append] at hts
    obtain ⟨-, hvalue, -, hthen, -, hts⟩ := hts
    cases hcondition with
    | mk _ hexpression _ =>
      simp only [List.cons_append, allTidy_cons, allTidy_append] at hvalue
      have hcondition := wellFormed_of_isExpression hexpression hvalue.2.1
      exact ⟨⟨hcondition, ihFirst hthen, trivial⟩, ihRest hts⟩
  | ifThenElse hkeyword hcondition hopening hfirst hclosing helse helseOpening hsecond helseClosing
    hrest ihFirst ihSecond ihRest =>
    simp only [List.cons_append, List.append_assoc, allTidy_cons, allTidy_append] at hts
    obtain ⟨-, hvalue, -, hthen, -, -, -, helseBody, -, hts⟩ := hts
    cases hcondition with
    | mk _ hexpression _ =>
      simp only [List.cons_append, allTidy_cons, allTidy_append] at hvalue
      exact ⟨⟨wellFormed_of_isExpression hexpression hvalue.2.1, ihFirst hthen,
        ihSecond helseBody⟩, ihRest hts⟩

theorem wellFormed_of_isActor {ts : List Token} {kind : ActorKind} {roleName : Option String}
    (h : IsActor ts (kind, roleName)) (hts : AllTidy ts) :
    (kind = .role ↔ roleName.isSome) ∧ ∀ name ∈ roleName, IsWord name := by
  cases h with
  | role hkeyword hname =>
    refine ⟨by simp, fun name hmem => ?_⟩
    cases hmem
    exact isWord_text (hts _ (by simp)) hname
  | kind h => cases h <;> simp

theorem kind_ne_role {ts : List Token} {kind : ActorKind} (h : IsKind ts kind) : kind ≠ .role := by
  cases h <;> decide

theorem allTidy_of_isAttribute {α : Type} {keyword : String} {value : List Token → α → Prop}
    {ts : List Token} {x : α} (h : IsAttribute keyword value ts x) (hts : AllTidy ts) :
    ∃ us, value us x ∧ AllTidy us := by
  cases h with
  | mk hword hcolon hvalue hsemicolon =>
    simp only [List.cons_append, allTidy_cons, allTidy_append] at hts
    exact ⟨_, hvalue, hts.2.2.1⟩

theorem exists_of_lastGiven? {α β : Type} {given : α → Option β} {xs : List α} {y : β}
    (h : lastGiven? given xs = some y) : ∃ x ∈ xs, given x = some y :=
  List.mem_filterMap.mp (List.mem_of_getLast? h)

/-- A property of the values that are given holds of the last one, if it holds of what stands for
none. -/
theorem getD_lastGiven? {α β : Type} {given : α → Option β} {xs : List α} {y : β} {P : β → Prop}
    (hall : ∀ x ∈ xs, ∀ z ∈ given x, P z) (hnone : P y) : P ((lastGiven? given xs).getD y) := by
  cases hlast : lastGiven? given xs with
  | none => exact hnone
  | some z =>
    obtain ⟨x, hx, hz⟩ := exists_of_lastGiven? hlast
    exact hall x hx z hz

/-- What an attribute of an action gives is tidy, or words. -/
structure WellGiven (x : ActionAttribute) : Prop where
  description : ∀ text ∈ x.description?, IsTidy text
  inputs : ∀ names ∈ x.inputs?, ∀ name ∈ names, IsWord name
  outputs : ∀ names ∈ x.outputs?, ∀ name ∈ names, IsWord name

theorem wellGiven_of_isActionAttribute {ts : List Token} {x : ActionAttribute}
    (h : IsActionAttribute ts x) (hts : AllTidy ts) : WellGiven x := by
  cases h with
  | description h =>
    obtain ⟨us, htext, hus⟩ := allTidy_of_isAttribute h hts
    exact ⟨fun text hmem => Option.some.inj hmem ▸ isTidy_of_isText htext hus,
      by simp [ActionAttribute.inputs?], by simp [ActionAttribute.outputs?]⟩
  | inputs h =>
    obtain ⟨us, hnames, hus⟩ := allTidy_of_isAttribute h hts
    exact ⟨by simp [ActionAttribute.description?],
      fun names hmem => Option.some.inj hmem ▸ forall_of_enclosed isWord_of_isName hnames hus,
      by simp [ActionAttribute.outputs?]⟩
  | outputs h =>
    obtain ⟨us, hnames, hus⟩ := allTidy_of_isAttribute h hts
    exact ⟨by simp [ActionAttribute.description?], by simp [ActionAttribute.inputs?],
      fun names hmem => Option.some.inj hmem ▸ forall_of_enclosed isWord_of_isName hnames hus⟩

theorem wellFormed_of_isAction {ts : List Token} {a : ActionDef} (h : IsAction ts a)
    (hts : AllTidy ts) : a.WellFormed := by
  cases h with
  | @mk _ _ _ _ _ _ _ _ _ _ _ attrs hkeyword hname hby hactor hparams hopening hattrs hclosing =>
    simp only [List.cons_append, List.append_assoc, allTidy_cons, allTidy_append] at hts
    obtain ⟨-, hname', -, hactor', hparams', -, hattrs', -⟩ := hts
    obtain ⟨hrole, hroleName⟩ := wellFormed_of_isActor hactor hactor'
    have hgiven : ∀ x ∈ attrs, WellGiven x :=
      forall_of_many wellGiven_of_isActionAttribute hattrs hattrs'
    have htidy := getD_lastGiven? (fun x hx => (hgiven x hx).description)
      (by decide : IsTidy "")
    exact ⟨isWord_text hname' hname, hrole, hroleName,
      forall_of_parenthesized wellFormed_of_isTypedName hparams hparams', htidy,
      getD_lastGiven? (fun x hx => (hgiven x hx).inputs) (by simp),
      getD_lastGiven? (fun x hx => (hgiven x hx).outputs) (by simp)⟩

theorem wellFormed_of_isEntity {ts : List Token} {e : EntityDef} (h : IsEntity ts e)
    (hts : AllTidy ts) : e.WellFormed := by
  cases h with
  | mk hkeyword hname hopening hattrs hclosing =>
    simp only [List.cons_append, allTidy_cons, allTidy_append] at hts
    obtain ⟨-, hname', -, hattrs', -⟩ := hts
    refine ⟨isWord_text hname' hname, forall_of_many (fun h hus => ?_) hattrs hattrs'⟩
    cases h with
    | mk h hsemicolon => exact wellFormed_of_isTypedName h (allTidy_append.mp hus).1

theorem wellFormed_of_isRole {ts : List Token} {r : RoleDef} (h : IsRole IsKind ts r)
    (hts : AllTidy ts) : r.WellFormed := by
  cases h with
  | @mk _ _ _ _ _ attrs hkeyword hname hopening hattrs hclosing =>
    simp only [List.cons_append, allTidy_cons, allTidy_append] at hts
    obtain ⟨-, hname', -, hattrs', -⟩ := hts
    have hgiven : ∀ x ∈ attrs, (∀ text ∈ x.description?, IsTidy text) ∧
        ∀ kind ∈ x.kind?, kind ≠ ActorKind.role := by
      refine forall_of_many (fun h hus => ?_) hattrs hattrs'
      cases h with
      | description h =>
        obtain ⟨us, htext, hus⟩ := allTidy_of_isAttribute h hus
        exact ⟨fun text hmem => Option.some.inj hmem ▸ isTidy_of_isText htext hus,
          by simp [RoleAttribute.kind?]⟩
      | type h =>
        obtain ⟨us, hkind, -⟩ := allTidy_of_isAttribute h hus
        exact ⟨by simp [RoleAttribute.description?],
          fun kind hmem => Option.some.inj hmem ▸ kind_ne_role hkind⟩
    have htidy := getD_lastGiven? (fun x hx => (hgiven x hx).1) (by decide : IsTidy "")
    refine ⟨isWord_text hname' hname, htidy, fun hkind => ?_⟩
    obtain ⟨x, hx, hrole⟩ := exists_of_lastGiven? hkind
    exact (hgiven x hx).2 _ hrole rfl

theorem wellFormed_of_isWorkflow {ts : List Token} {w : WorkflowDef} (h : IsWorkflow ts w)
    (hts : AllTidy ts) : w.WellFormed := by
  cases h with
  | mk hkeyword hname hopening hbody hclosing =>
    simp only [List.cons_append, allTidy_cons, allTidy_append] at hts
    obtain ⟨-, hname', -, hbody', -⟩ := hts
    exact ⟨isWord_text hname' hname, wellFormed_of_isBody hbody hbody'⟩

/-- A program that is read is well-formed. -/
theorem wellFormed_of_parse {document : String} {p : Program}
    (h : (parse document).value = .ok p) : p.WellFormed := by
  obtain ⟨ds, rfl, hmany⟩ := exists_many_of_parse h
  have htidy : AllTidy (scan (Source.buffer document.toList)).tokens := fun t => isTidy_of_mem_scan
  have hall : ∀ d ∈ ds, ∃ ts, IsDefinition IsKind ts d ∧ AllTidy ts :=
    forall_of_many (fun hd hts => ⟨_, hd, hts⟩) hmany htidy
  have hmem : ∀ {α : Type} {f : Definition → Option α} {x : α}, x ∈ ds.filterMap f →
      ∃ d, f d = some x ∧ ∃ ts, IsDefinition IsKind ts d ∧ AllTidy ts := by
    intro α f x hx
    obtain ⟨d, hd, hfd⟩ := List.mem_filterMap.mp hx
    exact ⟨d, hfd, hall d hd⟩
  refine ⟨fun a ha => ?_, fun e he => ?_, fun r hr => ?_, fun w hw => ?_⟩
  · obtain ⟨d, hd, ts, hphrase, hts⟩ := hmem ha
    cases hphrase with
    | action h =>
      cases hd
      exact wellFormed_of_isAction h hts
    | _ => cases hd
  · obtain ⟨d, hd, ts, hphrase, hts⟩ := hmem he
    cases hphrase with
    | entity h =>
      cases hd
      exact wellFormed_of_isEntity h hts
    | _ => cases hd
  · obtain ⟨d, hd, ts, hphrase, hts⟩ := hmem hr
    cases hphrase with
    | role h =>
      cases hd
      exact wellFormed_of_isRole h hts
    | _ => cases hd
  · obtain ⟨d, hd, ts, hphrase, hts⟩ := hmem hw
    cases hphrase with
    | workflow h =>
      cases hd
      exact wellFormed_of_isWorkflow h hts
    | _ => cases hd

end RoleFlow
