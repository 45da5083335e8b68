import RoleFlow.Proofs.ReadBack

/-!
# Dangling branches are refused

Where a call of the name `else` comes right after a decision without a second branch, what is
written is refused: the word is taken for the beginning of that branch, and no brace follows.

Results:
* `body_refuses`: the lines of a body, at any depth of decisions.
* `parse_render_refuses`: programs.
-/

namespace RoleFlow

namespace Scan

/-! ## Readers that refuse -/

section Refusals

variable {α β : Type} {tokens tokens' rest rest' : List Token} {x y : α}

/-- A reader finds nothing. -/
def Refuses (found : Result α tokens) : Prop := ∀ x rest, ¬ Takes found x rest

theorem takes_unique {found : Result α tokens} (h : Takes found x rest) (h' : Takes found y rest') :
    x = y ∧ rest = rest' := by
  obtain ⟨_, rfl⟩ := h
  obtain ⟨_, h'⟩ := h'
  cases h'
  exact ⟨rfl, rfl⟩

theorem refuses_bind {found : Result α tokens} {next : Reading α tokens → Result β tokens'}
    (hfound : Takes found x rest) (hnext : ∀ h, Refuses (next ⟨x, rest, h⟩)) :
    Refuses (found >>= next) := by
  intro y rest' h
  obtain ⟨x', rest'', hshorter, hfound', hnext'⟩ := exists_of_takes_bind h
  obtain ⟨rfl, rfl⟩ := takes_unique hfound hfound'
  exact hnext hshorter y rest' hnext'

theorem refuses_bind_of_refuses {found : Result α tokens}
    {next : Reading α tokens → Result β tokens'} (h : Refuses found) :
    Refuses (found >>= next) := by
  intro y rest' hnext
  obtain ⟨x, rest, -, hfound, -⟩ := exists_of_takes_bind hnext
  exact h x rest hfound

end Refusals

open Piece Grammar

variable (s : Scan)

theorem mark_refuses {letter : Char} {t : Token} {ts : List Token} (h : ¬ t.isMark letter = true) :
    Refuses (s.mark letter (t :: ts)) := by
  intro u rest htakes
  obtain ⟨hmark, heq⟩ := s.of_mark htakes
  cases heq
  exact h hmark

/-! ## Bodies -/

/-- After the word of a call comes no brace. -/
theorem place_elseCall {elements : List Element} (h : BeginsWithElseCall elements) (depth : Nat)
    (afterBlank : Bool) (position : Nat) :
    ∃ t u us, place afterBlank position (Element.layoutList depth elements) = t :: u :: us ∧
      t.isWord "else" ∧ ¬ u.isMark '\x7b' = true := by
  cases elements with
  | nil => exact absurd h id
  | cons element elements =>
    cases element with
    | decision condition thenBody elseBody => exact absurd h id
    | call name args =>
      obtain rfl : name = "else" := h
      cases args with
      | nil => exact ⟨_, _, _, rfl, isWord_self, by simp [Token.isMark]⟩
      | cons a args => exact ⟨_, _, _, rfl, isWord_self, by simp [Token.isMark]⟩

theorem place_no_elseCall {elements : List Element} (hne : elements ≠ [])
    (h : ¬ BeginsWithElseCall elements) (depth : Nat) (afterBlank : Bool) (position : Nat) :
    ∃ t us, place afterBlank position (Element.layoutList depth elements) = t :: us ∧
      ¬ t.isWord "else" = true := by
  have hnot := not_beginsWithElse h depth afterBlank position
  cases htokens : place afterBlank position (Element.layoutList depth elements) with
  | nil =>
    cases elements with
    | nil => exact absurd rfl hne
    | cons element elements => cases element <;> cases htokens
  | cons t us =>
    rw [htokens] at hnot
    exact ⟨t, us, rfl, fun helse => hnot ⟨t, rfl, helse⟩⟩

theorem call_refuses (herror : s.error = none) {name semicolon : Token}
    {arguments after : List Token} {args : List Argument} (hname : name.kind = .word)
    (hif : name.isWord "if" = false) (hargs : Parenthesized IsArgument arguments args)
    (hsemicolon : semicolon.isMark ';' = true) (h : Refuses (s.body after)) :
    Refuses (s.body (name :: (arguments ++ semicolon :: after))) := by
  rw [body, if_neg (Token.not_isMark_of_kind hname _), if_neg (by rw [hif]; decide)]
  refine refuses_bind (s.call_complete herror hname hargs hsemicolon) fun _ => ?_
  exact refuses_bind_of_refuses h

section Decisions

variable {keyword first last opening closing : Token} {value thenTokens : List Token}
  {condition : Expression} {thenBody : List Element}

theorem condition_takes (herror : s.error = none) (hfirst : first.isMark '(')
    (hvalue : IsExpression value condition) (hlast : last.isMark ')')
    (hopening : opening.isMark '\x7b') (after : List Token) :
    Takes (s.condition (first :: (value ++ last :: opening :: after))) condition after := by
  have htakes :
      Takes (s.condition (first :: value ++ [last] ++ opening :: after)) condition after :=
    s.condition_complete herror (.mk hfirst hvalue hlast) hopening
  rwa [show first :: value ++ [last] ++ opening :: after =
    first :: (value ++ last :: opening :: after) by simp] at htakes

/-- A decision is refused if its first branch is. -/
theorem decision_refuses_of_then (herror : s.error = none) (hkeyword : keyword.isWord "if")
    (hfirst : first.isMark '(') (hvalue : IsExpression value condition) (hlast : last.isMark ')')
    (hopening : opening.isMark '\x7b') {after : List Token} (h : Refuses (s.body after)) :
    Refuses (s.body (keyword :: first :: (value ++ last :: opening :: after))) := by
  rw [body, if_neg (Token.not_isMark_of_isWord hkeyword), if_pos hkeyword]
  refine refuses_bind (s.condition_takes herror hfirst hvalue hlast hopening after) fun _ => ?_
  exact refuses_bind_of_refuses h

/-- A decision without a second branch is refused if what comes after it is. -/
theorem decision_refuses_of_rest (herror : s.error = none) (hkeyword : keyword.isWord "if")
    (hfirst : first.isMark '(') (hvalue : IsExpression value condition) (hlast : last.isMark ')')
    (hopening : opening.isMark '\x7b') (hthen : IsBody thenTokens thenBody)
    (hclosing : closing.isMark '\x7d') {t : Token} {ts : List Token}
    (ht : ¬ t.isWord "else" = true) (h : Refuses (s.body (t :: ts))) :
    Refuses (s.body (keyword :: first :: (value ++ last :: opening ::
      (thenTokens ++ closing :: t :: ts)))) := by
  rw [body, if_neg (Token.not_isMark_of_isWord hkeyword), if_pos hkeyword]
  refine refuses_bind (s.condition_takes herror hfirst hvalue hlast hopening _) fun _ => ?_
  refine refuses_bind (s.body_complete herror hthen hclosing) fun _ => ?_
  dsimp only
  rw [if_neg ht]
  exact refuses_bind_of_refuses h

/-- A decision is refused if the word `else` comes right after its first branch, without a brace. -/
theorem decision_refuses_of_else (herror : s.error = none) (hkeyword : keyword.isWord "if")
    (hfirst : first.isMark '(') (hvalue : IsExpression value condition) (hlast : last.isMark ')')
    (hopening : opening.isMark '\x7b') (hthen : IsBody thenTokens thenBody)
    (hclosing : closing.isMark '\x7d') {t u : Token} {ts : List Token} (ht : t.isWord "else")
    (hu : ¬ u.isMark '\x7b' = true) :
    Refuses (s.body (keyword :: first :: (value ++ last :: opening ::
      (thenTokens ++ closing :: t :: u :: ts)))) := by
  rw [body, if_neg (Token.not_isMark_of_isWord hkeyword), if_pos hkeyword]
  refine refuses_bind (s.condition_takes herror hfirst hvalue hlast hopening _) fun _ => ?_
  refine refuses_bind (s.body_complete herror hthen hclosing) fun _ => ?_
  dsimp only
  rw [if_pos ht]
  exact refuses_bind_of_refuses (s.mark_refuses hu)

/-- A decision with a second branch is refused if that branch is. -/
theorem decision_refuses_of_elseBody (herror : s.error = none) (hkeyword : keyword.isWord "if")
    (hfirst : first.isMark '(') (hvalue : IsExpression value condition) (hlast : last.isMark ')')
    (hopening : opening.isMark '\x7b') (hthen : IsBody thenTokens thenBody)
    (hclosing : closing.isMark '\x7d') {t u : Token} {ts : List Token} (ht : t.isWord "else")
    (hu : u.isMark '\x7b') (h : Refuses (s.body ts)) :
    Refuses (s.body (keyword :: first :: (value ++ last :: opening ::
      (thenTokens ++ closing :: t :: u :: ts)))) := by
  rw [body, if_neg (Token.not_isMark_of_isWord hkeyword), if_pos hkeyword]
  refine refuses_bind (s.condition_takes herror hfirst hvalue hlast hopening _) fun _ => ?_
  refine refuses_bind (s.body_complete herror hthen hclosing) fun _ => ?_
  dsimp only
  rw [if_pos ht]
  refine refuses_bind (s.mark_cons hu) fun _ => ?_
  exact refuses_bind_of_refuses h

/-- A decision with a second branch is refused if what comes after it is. -/
theorem decision_refuses_of_afterElse (herror : s.error = none) (hkeyword : keyword.isWord "if")
    (hfirst : first.isMark '(') (hvalue : IsExpression value condition) (hlast : last.isMark ')')
    (hopening : opening.isMark '\x7b') (hthen : IsBody thenTokens thenBody)
    (hclosing : closing.isMark '\x7d') {t u end' : Token} {elseTokens after : List Token}
    {elseBody : List Element} (ht : t.isWord "else") (hu : u.isMark '\x7b')
    (helse : IsBody elseTokens elseBody) (hend : end'.isMark '\x7d')
    (h : Refuses (s.body after)) :
    Refuses (s.body (keyword :: first :: (value ++ last :: opening ::
      (thenTokens ++ closing :: t :: u :: (elseTokens ++ end' :: after))))) := by
  rw [body, if_neg (Token.not_isMark_of_isWord hkeyword), if_pos hkeyword]
  refine refuses_bind (s.condition_takes herror hfirst hvalue hlast hopening _) fun _ => ?_
  refine refuses_bind (s.body_complete herror hthen hclosing) fun _ => ?_
  dsimp only
  rw [if_pos ht]
  refine refuses_bind (s.mark_cons hu) fun _ => ?_
  refine refuses_bind (s.body_complete herror helse hend) fun _ => ?_
  exact refuses_bind_of_refuses h

end Decisions

/-- The lines of a body with a dangling branch are refused, whatever comes after them. -/
theorem body_refuses (herror : s.error = none) {elements : List Element}
    (h : Element.WellFormedList elements) (hdangling : ¬ Element.NoDanglingElseList elements)
    {depth position : Nat} {afterBlank : Bool} {tail tokens : List Token}
    (htokens : place afterBlank position (Element.layoutList depth elements) ++ tail = tokens) :
    Refuses (s.body tokens) := by
  induction elements using Element.bodyInduction
    generalizing depth afterBlank position tail tokens with
  | nil => exact absurd trivial hdangling
  | call name args rest ih =>
    obtain ⟨⟨-, hif, hargs⟩, hrest⟩ := h
    have hnested : ¬ Element.NoDanglingElseList rest :=
      fun hnot => hdangling ⟨trivial, hnot, by simp⟩
    rw [Element.layoutList, Element.layout] at htokens
    simp only [List.append_assoc, List.cons_append, List.nil_append, place, place_append] at htokens
    subst htokens
    exact s.call_refuses herror rfl (by rw [isWord_word]; exact decide_eq_false hif)
      (derives_arguments hargs _ _) isMark_mark (ih hrest hnested rfl)
  | decision condition thenBody elseBody rest ihThen ihElse ih =>
    obtain ⟨⟨hcondition, hthen, helseBody⟩, hrest⟩ := h
    have hvalue := derives_expression hcondition
    rw [Element.layoutList, Element.layout] at htokens
    by_cases hnotThen : Element.NoDanglingElseList thenBody
    · have hbranch := derives_body hthen hnotThen (depth + 1)
      by_cases hempty : elseBody.isEmpty = true
      · obtain rfl := List.isEmpty_iff.mp hempty
        rw [if_pos hempty] at htokens
        simp only [List.append_assoc, List.cons_append, List.nil_append, place, place_append]
          at htokens
        by_cases hcall : BeginsWithElseCall rest
        · obtain ⟨t, u, us, hplace, ht, hu⟩ := place_elseCall hcall depth false _
          rw [hplace] at htokens
          subst htokens
          exact s.decision_refuses_of_else herror isWord_self isMark_mark (hvalue _ _) isMark_mark
            isMark_mark (hbranch _ _) isMark_mark ht hu
        · have hnested : ¬ Element.NoDanglingElseList rest :=
            fun hnot => hdangling ⟨⟨hnotThen, trivial⟩, hnot, fun _ _ _ => hcall⟩
          have hne : rest ≠ [] := by
            rintro rfl
            exact hnested trivial
          obtain ⟨t, us, hplace, ht⟩ := place_no_elseCall hne hcall depth false _
          have hrefuses := ih hrest hnested (congrArg (· ++ tail) hplace)
          rw [hplace] at htokens
          subst htokens
          exact s.decision_refuses_of_rest herror isWord_self isMark_mark (hvalue _ _) isMark_mark
            isMark_mark (hbranch _ _) isMark_mark ht hrefuses
      · rw [if_neg hempty] at htokens
        simp only [List.append_assoc, List.cons_append, List.nil_append, place, place_append]
          at htokens
        subst htokens
        by_cases hnotElse : Element.NoDanglingElseList elseBody
        · have hnested : ¬ Element.NoDanglingElseList rest := by
            refine fun hnot => hdangling ⟨⟨hnotThen, hnotElse⟩, hnot, fun _ _ heq => ?_⟩
            cases heq
            exact absurd rfl hempty
          exact s.decision_refuses_of_afterElse herror isWord_self isMark_mark (hvalue _ _)
            isMark_mark isMark_mark (hbranch _ _) isMark_mark isWord_self isMark_mark
            (derives_body helseBody hnotElse _ _ _) isMark_mark (ih hrest hnested rfl)
        · exact s.decision_refuses_of_elseBody herror isWord_self isMark_mark (hvalue _ _)
            isMark_mark isMark_mark (hbranch _ _) isMark_mark isWord_self isMark_mark
            (ihElse helseBody hnotElse rfl)
    · simp only [List.append_assoc, List.cons_append, List.nil_append, place, place_append]
        at htokens
      subst htokens
      exact s.decision_refuses_of_then herror isWord_self isMark_mark (hvalue _ _) isMark_mark
        isMark_mark (ihThen hthen hnotThen rfl)

/-! ## Definitions -/

theorem definition_refuses {t : Token} {ts : List Token} (ht : t.isWord "workflow")
    (h : Refuses (s.workflow ts)) : Refuses (s.definition (t :: ts)) := by
  intro d rest htakes
  rw [definition, if_neg (t.not_isWord_of_isWord ht (by decide)),
    if_neg (t.not_isWord_of_isWord ht (by decide)), if_pos ht] at htakes
  obtain ⟨w, hw, -⟩ := takes_definition_iff.mp htakes
  exact h w rest hw

theorem workflow_refuses (herror : s.error = none) {w : WorkflowDef} (h : w.WellFormed)
    (hdangling : ¬ Element.NoDanglingElseList w.elements) {position : Nat} {afterBlank : Bool}
    {tail tokens : List Token} (htokens : place afterBlank position w.layout ++ tail = tokens) :
    Refuses (s.definition tokens) := by
  simp only [WorkflowDef.layout, List.cons_append, List.append_assoc, place, place_append]
    at htokens
  subst htokens
  refine s.definition_refuses isWord_self (refuses_bind (s.name_cons rfl) fun _ => ?_)
  refine refuses_bind (s.mark_cons isMark_mark) fun _ => ?_
  exact refuses_bind_of_refuses (s.body_refuses herror h.elements hdangling rfl)

theorem definitions_of_refuses {tokens : List Token} (hne : tokens ≠ [])
    (h : Refuses (s.definition tokens)) (xs : List Definition) :
    (s.definitions tokens).value ≠ .ok xs := by
  obtain ⟨t, ts, rfl⟩ := List.exists_cons_of_ne_nil hne
  intro hvalue
  rw [definitions, Logged.value_bind] at hvalue
  split at hvalue
  · cases hvalue
  · next found hfound => exact h found.value found.rest ⟨found.shorter, hfound⟩

theorem definitions_refuses (herror : s.error = none) {p : Program} (h : p.WellFormed)
    (hdescriptions : ∀ d ∈ p.descriptions, IsQuotable d) {ds : List Definition}
    (hds : ∀ d ∈ ds, d ∈ p.definitions) (hdangling : ∃ d ∈ ds, ¬ d.NoDanglingElse)
    (afterBlank : Bool) (position : Nat) (xs : List Definition) :
    (s.definitions (place afterBlank position
      (ds.flatMap fun d => d.layout ++ [.gap ['\n', '\n']]))).value ≠ .ok xs := by
  induction ds generalizing afterBlank position xs with
  | nil =>
    obtain ⟨d, hd, -⟩ := hdangling
    cases hd
  | cons d ds ih =>
    obtain ⟨hd, hrest⟩ := List.forall_mem_cons.mp hds
    rw [List.flatMap_cons, List.append_assoc, place_append, List.singleton_append, place]
    by_cases hnot : d.NoDanglingElse
    · have hphrase := derives_definition h hdescriptions hd hnot afterBlank position
      have hmore : ∃ d ∈ ds, ¬ d.NoDanglingElse := by
        obtain ⟨d', hd', hdangling⟩ := hdangling
        rcases List.mem_cons.mp hd' with rfl | hd'
        · exact absurd hnot hdangling
        · exact ⟨d', hd', hdangling⟩
      rw [s.definitions_of_takes (s.definition_complete herror hphrase trivial)]
      intro hvalue
      cases hvalues : (s.definitions (place true _ _)).value with
      | error e =>
        rw [hvalues] at hvalue
        cases hvalue
      | ok ys => exact ih hrest hmore _ _ ys hvalues
    · cases d with
      | workflow w =>
        refine s.definitions_of_refuses
          (by simp [Definition.layout, WorkflowDef.layout, place]) ?_ xs
        exact s.workflow_refuses herror (h.definition hd) hnot rfl
      | _ => exact absurd trivial hnot

end Scan

/-- A well-formed program with a dangling branch is not read back. -/
theorem parse_render_refuses {p : Program} (h : p.WellFormed) (hdangling : ¬ p.NoDanglingElse)
    (hdescriptions : ∀ d ∈ p.descriptions, IsQuotable d)
    (hargs : ∀ e ∈ p.arguments, e.OnText IsCommentFree)
    (hconditions : ∀ e ∈ p.conditions, e.OnText IsCommentFree) (q : Program) :
    (parse p.render).value ≠ .ok q := by
  intro hparse
  obtain ⟨htokens, herror⟩ := scan_render h hdescriptions hargs hconditions
  have hexists : ∃ d ∈ p.definitions, ¬ d.NoDanglingElse := by
    rw [Program.noDanglingElse_iff] at hdangling
    simpa using hdangling
  obtain ⟨ds, -, hmany⟩ := exists_many_of_parse hparse
  rw [htokens] at hmany
  have hread := Scan.definitions_complete _ herror hmany
  exact Scan.definitions_refuses _ herror h hdescriptions (fun d hd => hd) hexists _ _ ds hread

/-- An empty second branch is not written, so a call of the name `else` after it dangles. -/
example :
    let p : Program := ⟨[], [], [], [⟨"W", [.decision (.identifier "a") [] [], .call "else" []]⟩]⟩
    (parse "workflow W \x7b if (a) \x7b \x7d else \x7b \x7d else; \x7d").value.toOption = some p ∧
      (parse p.render).value.toOption = none := by
  decide +kernel

end RoleFlow
