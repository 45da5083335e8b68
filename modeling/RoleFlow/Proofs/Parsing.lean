import RoleFlow.Proofs.Declarations

/-!
# The parser accepts exactly the grammar

Results:
* `body_sound`, `body_complete`: the elements of a workflow, at any depth of decisions.
* `definitions_sound`, `definitions_complete`: the definitions of a token list are those that the
  grammar derives.
-/

namespace RoleFlow

namespace Scan

open Grammar

variable (s : Scan)

/-! ## Expressions and arguments -/

theorem isPropertyAccess_iff {owner point part : Token} :
    isPropertyAccess owner point part = true ↔
      owner.kind = .word ∧ point.isMark '.' = true ∧ part.kind = .word ∧
        owner.stop = point.start ∧ point.stop = part.start := by
  simp only [isPropertyAccess, Bool.and_eq_true, beq_iff_eq, and_assoc]

theorem simpleExpression_sound : Sound s.simpleExpression IsExpression := by
  intro tokens rest x h
  cases tokens with
  | nil => exact absurd h not_takes_error
  | cons t ts =>
    rw [simpleExpression] at h
    split at h
    · next hkind =>
      obtain ⟨_, h⟩ := h
      cases h
      exact ⟨[t], .text hkind, rfl⟩
    · next hkind =>
      obtain ⟨_, h⟩ := h
      cases h
      exact ⟨[t], .number hkind, rfl⟩
    · next hkind =>
      split at h
      · next htrue =>
        obtain ⟨_, h⟩ := h
        cases h
        exact ⟨[t], .true htrue, rfl⟩
      split at h
      · next hfalse =>
        obtain ⟨_, h⟩ := h
        cases h
        exact ⟨[t], .false hfalse, rfl⟩
      · next htrue hfalse =>
        obtain ⟨_, h⟩ := h
        cases h
        exact ⟨[t], .identifier hkind (Bool.eq_false_iff.mpr htrue) (Bool.eq_false_iff.mpr hfalse),
          rfl⟩
    · exact absurd h not_takes_error

theorem propertyOrSimple_sound : Sound s.propertyOrSimple IsExpression := by
  intro tokens rest x h
  rw [propertyOrSimple.eq_def] at h
  split at h
  · next owner point part after =>
    split at h
    · next haccess =>
      obtain ⟨howner, hpoint, hpart, hleft, hright⟩ := isPropertyAccess_iff.mp haccess
      obtain ⟨_, h⟩ := h
      cases h
      exact ⟨[owner, point, part], .property howner hpoint hpart hleft hright, rfl⟩
    · exact s.simpleExpression_sound h
  · exact s.simpleExpression_sound h
  · exact s.simpleExpression_sound h
  · exact s.simpleExpression_sound h

/-- A reader that looks ahead first takes what it takes without. -/
theorem of_lookAhead {α : Type} {offset : Nat} {tokens tokens' rest : List Token} {x : α}
    {found : Result α tokens'} (h : Takes (s.lookAhead offset tokens >>= fun _ => found) x rest) :
    Takes found x rest := by
  cases hlook : s.lookAhead offset tokens with
  | error e =>
    rw [hlook] at h
    exact absurd h not_takes_error
  | ok u =>
    rw [hlook] at h
    exact h

theorem expression_sound : Sound s.expression IsExpression :=
  fun h => s.propertyOrSimple_sound (s.of_lookAhead h)

/-- Where no point follows the first token, an expression is that token. -/
theorem propertyOrSimple_eq {t : Token} {rest : List Token} (h : Ends rest) :
    s.propertyOrSimple (t :: rest) = s.simpleExpression (t :: rest) := by
  cases rest with
  | nil => rfl
  | cons point rest =>
    cases rest with
    | nil => rfl
    | cons part rest =>
      refine if_neg fun haccess => ?_
      exact h point rfl '.' (by decide) (isPropertyAccess_iff.mp haccess).2.1

theorem expression_plain : BeginsPlain IsExpression := by
  intro ts x h
  cases h with
  | property howner _ _ _ _ => exact ⟨_, _, rfl, by rw [howner]; decide⟩
  | text h => exact ⟨_, _, rfl, by rw [h]; decide⟩
  | number h => exact ⟨_, _, rfl, by rw [h]; decide⟩
  | true h => exact ⟨_, _, rfl, by rw [Token.kind_of_isWord h]; decide⟩
  | false h => exact ⟨_, _, rfl, by rw [Token.kind_of_isWord h]; decide⟩
  | identifier h _ _ => exact ⟨_, _, rfl, by rw [h]; decide⟩

theorem simpleExpression_word {t : Token} (h : t.kind = .word) (rest : List Token) :
    s.simpleExpression (t :: rest) =
      if t.isWord "true" then .ok ⟨.boolean true, rest, Nat.lt_add_one _⟩
      else if t.isWord "false" then .ok ⟨.boolean false, rest, Nat.lt_add_one _⟩
      else .ok ⟨.identifier t.text, rest, Nat.lt_add_one _⟩ := by
  rw [simpleExpression]
  split
  · next hkind => exact absurd (h.symm.trans hkind) (by decide)
  · next hkind => exact absurd (h.symm.trans hkind) (by decide)
  · rfl
  · next hkind => exact absurd (h.symm.trans hkind) (by decide)

theorem expression_complete (herror : s.error = none) :
    Complete s.expression IsExpression Ends := by
  intro taken rest x h hrest
  have hlook : s.expression (taken ++ rest) = s.propertyOrSimple (taken ++ rest) := by
    rw [expression, s.lookAhead_eq_ok herror]
    rfl
  rw [hlook]
  cases h with
  | property howner hpoint hpart hleft hright =>
    refine ⟨by simp only [List.length_append, List.length_cons]; omega, ?_⟩
    exact if_pos (isPropertyAccess_iff.mpr ⟨howner, hpoint, hpart, hleft, hright⟩)
  | @text t h =>
    rw [List.singleton_append, s.propertyOrSimple_eq hrest]
    refine ⟨by simp, ?_⟩
    rw [simpleExpression]
    split <;> simp_all
  | @number t h =>
    rw [List.singleton_append, s.propertyOrSimple_eq hrest]
    refine ⟨by simp, ?_⟩
    rw [simpleExpression]
    split <;> simp_all
  | @true t h =>
    rw [List.singleton_append, s.propertyOrSimple_eq hrest]
    refine ⟨by simp, ?_⟩
    rw [s.simpleExpression_word (t.kind_of_isWord h), if_pos h]
  | @false t h =>
    rw [List.singleton_append, s.propertyOrSimple_eq hrest]
    refine ⟨by simp, ?_⟩
    rw [s.simpleExpression_word (t.kind_of_isWord h),
      if_neg (t.not_isWord_of_isWord h (by decide)), if_pos h]
  | @identifier t h htrue hfalse =>
    rw [List.singleton_append, s.propertyOrSimple_eq hrest]
    refine ⟨by simp, ?_⟩
    rw [s.simpleExpression_word h, if_neg (by rw [htrue]; decide),
      if_neg (by rw [hfalse]; decide)]

theorem positional_sound : Sound s.positional IsArgument := by
  intro tokens rest x h
  obtain ⟨value, _, _, hvalue, h⟩ := exists_of_takes_bind h
  obtain ⟨rfl, rfl⟩ := takes_pure_iff.mp h
  obtain ⟨taken, hphrase, htokens⟩ := s.expression_sound hvalue
  exact ⟨taken, .positional hphrase, htokens⟩

theorem argument_sound : Sound s.argument IsArgument := by
  intro tokens rest x h
  replace h := s.of_lookAhead h
  rw [namedOrPositional.eq_def] at h
  split at h
  · next name colon after =>
    split at h
    · next hnamed =>
      obtain ⟨hname, hcolon⟩ := Bool.and_eq_true _ _ ▸ hnamed
      obtain ⟨value, _, _, hvalue, h⟩ := exists_of_takes_bind h
      simp only [takes_pure_iff] at h
      obtain ⟨rfl, rfl⟩ := h
      obtain ⟨taken, hphrase, rfl⟩ := s.expression_sound hvalue
      exact ⟨name :: colon :: taken, .named (by simpa using hname) hcolon hphrase, rfl⟩
    · exact s.positional_sound h
  · exact s.positional_sound h
  · exact s.positional_sound h

theorem argument_plain : BeginsPlain IsArgument := by
  intro ts x h
  cases h with
  | named hname _ _ => exact ⟨_, _, rfl, by rw [hname]; decide⟩
  | positional h => exact expression_plain h

theorem namedOrPositional_eq {tokens : List Token}
    (h : ∀ t u us, tokens = t :: u :: us → ¬ u.isMark ':' = true) :
    s.namedOrPositional tokens = s.positional tokens := by
  cases tokens with
  | nil => rfl
  | cons t ts =>
    cases ts with
    | nil => rfl
    | cons u us => exact if_neg fun hnamed => h t u us rfl (Bool.and_eq_true _ _ ▸ hnamed).2

theorem argument_complete (herror : s.error = none) : Complete s.argument IsArgument Ends := by
  intro taken rest x h hrest
  have hlook : s.argument (taken ++ rest) = s.namedOrPositional (taken ++ rest) := by
    rw [argument, s.lookAhead_eq_ok herror]
    rfl
  rw [hlook]
  cases h with
  | @named name colon ts value hname hcolon hvalue =>
    have hread := s.expression_complete herror hvalue hrest
    have hnamed : (name.kind == .word && colon.isMark ':') = true := by simp [hname, hcolon]
    rw [List.cons_append, List.cons_append, namedOrPositional, if_pos hnamed]
    exact takes_bind hread fun _ => takes_pure
  | @positional _ value hvalue =>
    have hread : Takes (s.positional (taken ++ rest)) ⟨none, value⟩ rest :=
      takes_bind (s.expression_complete herror hvalue hrest) fun _ => takes_pure
    -- no colon follows the first token, neither in the expression nor after it
    suffices hnot : ∀ t u us, taken ++ rest = t :: u :: us → ¬ u.isMark ':' = true by
      rwa [s.namedOrPositional_eq hnot]
    intro t u us heq
    cases hvalue with
    | property _ hpoint _ _ _ =>
      cases heq
      exact u.not_isMark_of_isMark hpoint (by decide)
    | _ =>
      cases heq
      exact hrest u rfl ':' (by decide)

/-! ## Calls, decisions and bodies -/

theorem call_sound {tokens rest : List Token} {x : Element} (h : Takes (s.call tokens) x rest) :
    ∃ name arguments args semicolon, name.kind = .word ∧ Parenthesized IsArgument arguments args ∧
      semicolon.isMark ';' = true ∧ tokens = name :: arguments ++ semicolon :: rest ∧
      x = .call name.text args := by
  obtain ⟨name, _, _, hname, h⟩ := exists_of_takes_bind h
  obtain ⟨args, _, _, hargs, h⟩ := exists_of_passes_bind h
  obtain ⟨semicolon, _, _, hsemicolon, h⟩ := exists_of_takes_bind h
  simp only [takes_pure_iff] at h
  obtain ⟨rfl, rfl⟩ := h
  obtain ⟨t, hkind, rfl, rfl⟩ := s.of_name hname
  obtain ⟨arguments, hphrase, rfl⟩ := s.parenthesized_sound s.argument_sound hargs
  obtain ⟨hend, rfl⟩ := s.of_mark hsemicolon
  exact ⟨t, arguments, args, semicolon, hkind, hphrase, hend, rfl, rfl⟩

theorem call_complete (herror : s.error = none) {name semicolon : Token}
    {arguments rest : List Token} {args : List Argument} (hname : name.kind = .word)
    (hargs : Parenthesized IsArgument arguments args) (hsemicolon : semicolon.isMark ';' = true) :
    Takes (s.call (name :: (arguments ++ semicolon :: rest))) (.call name.text args) rest := by
  refine takes_bind (s.name_cons hname) fun _ => ?_
  refine passes_bind (s.parenthesized_complete (s.argument_complete herror) argument_plain hargs
    (ends_of_isMark hsemicolon (by decide))) fun _ => ?_
  exact takes_bind (s.mark_cons hsemicolon) fun _ => takes_pure

theorem condition_sound {tokens rest : List Token} {x : Expression}
    (h : Takes (s.condition tokens) x rest) :
    ∃ taken brace, IsCondition taken x ∧ brace.isMark '\x7b' = true ∧
      tokens = taken ++ brace :: rest := by
  obtain ⟨paren, _, _, hparen, h⟩ := exists_of_takes_bind h
  obtain ⟨value, _, _, hvalue, h⟩ := exists_of_takes_bind h
  obtain ⟨close, _, _, hclose, h⟩ := exists_of_takes_bind h
  obtain ⟨brace, _, _, hbrace, h⟩ := exists_of_takes_bind h
  simp only [takes_pure_iff] at h
  obtain ⟨rfl, rfl⟩ := h
  obtain ⟨hopening, rfl⟩ := s.of_mark hparen
  obtain ⟨taken, hphrase, rfl⟩ := s.expression_sound hvalue
  obtain ⟨hclosing, rfl⟩ := s.of_mark hclose
  obtain ⟨hmark, rfl⟩ := s.of_mark hbrace
  exact ⟨paren :: taken ++ [close], brace, .mk hopening hphrase hclosing, hmark, by simp⟩

theorem condition_complete (herror : s.error = none) {taken rest : List Token} {brace : Token}
    {x : Expression} (h : IsCondition taken x) (hbrace : brace.isMark '\x7b' = true) :
    Takes (s.condition (taken ++ brace :: rest)) x rest := by
  cases h with
  | @mk opening closing ts _ hopening hvalue hclosing =>
    rw [show opening :: ts ++ [closing] ++ brace :: rest =
      opening :: (ts ++ closing :: brace :: rest) by simp]
    refine takes_bind (s.mark_cons hopening) fun _ => ?_
    refine takes_bind (s.expression_complete herror hvalue
      (ends_of_isMark hclosing (by decide))) fun _ => ?_
    refine takes_bind (s.mark_cons hclosing) fun _ => takes_bind (s.mark_cons hbrace) fun _ => ?_
    exact takes_pure

/-- One turn of the loop over a body: the body ends at its brace, or it goes on behind a call or a
decision. -/
inductive BodyTurn (xs : List Element) (tokens rest : List Token) : Prop
  | last {t : Token} (hclosing : t.isMark '\x7d' = true) (htokens : tokens = t :: rest)
    (hx : xs = []) : BodyTurn xs tokens rest
  | call {t : Token} {ts after : List Token} {x : Element} {more : List Element}
    (hif : t.isWord "if" = false) (hcall : Takes (s.call (t :: ts)) x after)
    (hmore : Takes (s.body after) more rest) (htokens : tokens = t :: ts) (hx : xs = x :: more) :
    BodyTurn xs tokens rest
  | ifThen {t word : Token} {ts inner after : List Token} {value : Expression}
    {thenBody more : List Element} (hif : t.isWord "if" = true)
    (hvalue : Takes (s.condition ts) value inner)
    (hthen : Takes (s.body inner) thenBody (word :: after)) (helse : ¬ word.isWord "else" = true)
    (hmore : Takes (s.body (word :: after)) more rest) (htokens : tokens = t :: ts)
    (hx : xs = .decision value thenBody [] :: more) : BodyTurn xs tokens rest
  | ifThenElse {t word brace : Token} {ts inner second after : List Token} {value : Expression}
    {thenBody elseBody more : List Element} (hif : t.isWord "if" = true)
    (hvalue : Takes (s.condition ts) value inner)
    (hthen : Takes (s.body inner) thenBody (word :: brace :: second))
    (helse : word.isWord "else" = true) (hopening : brace.isMark '\x7b' = true)
    (helseBody : Takes (s.body second) elseBody after)
    (hmore : Takes (s.body after) more rest) (htokens : tokens = t :: ts)
    (hx : xs = .decision value thenBody elseBody :: more) : BodyTurn xs tokens rest

theorem body_turn {tokens rest : List Token} {xs : List Element}
    (h : Takes (s.body tokens) xs rest) : s.BodyTurn xs tokens rest := by
  cases tokens with
  | nil =>
    rw [body] at h
    exact absurd h not_takes_error
  | cons t ts =>
    rw [body] at h
    split at h
    · next hclosing =>
      obtain ⟨_, h⟩ := h
      cases h
      exact .last hclosing rfl rfl
    split at h
    · next hif =>
      obtain ⟨value, _, _, hvalue, h⟩ := exists_of_takes_bind h
      obtain ⟨thenBody, after, _, hthen, h⟩ := exists_of_takes_bind h
      cases after with
      | nil => exact absurd h not_takes_error
      | cons word afterElse =>
        dsimp only at h
        split at h
        · next helse =>
          obtain ⟨brace, _, _, hbrace, h⟩ := exists_of_takes_bind h
          obtain ⟨elseBody, _, _, helseBody, h⟩ := exists_of_takes_bind h
          obtain ⟨more, _, _, hmore, h⟩ := exists_of_takes_bind h
          obtain ⟨rfl, rfl⟩ := takes_pure_iff.mp h
          obtain ⟨hopening, rfl⟩ := s.of_mark hbrace
          exact .ifThenElse hif hvalue hthen helse hopening helseBody hmore rfl rfl
        · next helse =>
          obtain ⟨more, _, _, hmore, h⟩ := exists_of_takes_bind h
          obtain ⟨rfl, rfl⟩ := takes_pure_iff.mp h
          exact .ifThen hif hvalue hthen helse hmore rfl rfl
    · next hif =>
      obtain ⟨found, _, _, hcall, h⟩ := exists_of_takes_bind h
      obtain ⟨more, _, _, hmore, h⟩ := exists_of_takes_bind h
      obtain ⟨rfl, rfl⟩ := takes_pure_iff.mp h
      exact .call (Bool.eq_false_iff.mpr hif) hcall hmore rfl rfl

/-- What a body takes is its elements and the brace that closes it. -/
theorem body_sound {tokens rest : List Token} {xs : List Element}
    (h : Takes (s.body tokens) xs rest) :
    ∃ taken last, IsBody taken xs ∧ last.isMark '\x7d' = true ∧
      tokens = taken ++ last :: rest := by
  induction hlen : tokens.length using Nat.strongRecOn generalizing tokens xs rest with
  | ind n ih =>
    subst hlen
    cases s.body_turn h with
    | @last t hclosing htokens hx =>
      subst hx
      exact ⟨[], t, .nil, hclosing, htokens⟩
    | @call t ts after x more hif hcall hmore htokens hx =>
      subst htokens hx
      obtain ⟨taken, last, hrest, hlast, rfl⟩ := ih _ hcall.1 hmore rfl
      obtain ⟨name, arguments, args, semicolon, hname, hargs, hsemicolon, htokens, rfl⟩ :=
        s.call_sound hcall
      obtain ⟨rfl, rfl⟩ := List.cons.inj htokens
      exact ⟨_, last, .call hname hif hargs hsemicolon hrest, hlast, by simp⟩
    | @ifThen t word ts inner after value thenBody more hif hvalue hthen helse hmore htokens hx =>
      subst htokens hx
      have hinner : inner.length < (t :: ts).length := Nat.lt_succ_of_lt hvalue.1
      have hafter := Nat.lt_trans hthen.1 hinner
      obtain ⟨first, closing, hfirst, hclosing, rfl⟩ := ih _ hinner hthen rfl
      obtain ⟨taken, last, hrest, hlast, htaken⟩ := ih _ hafter hmore rfl
      obtain ⟨condition, opening, hcondition, hopening, rfl⟩ := s.condition_sound hvalue
      have hnot : ¬ BeginsWithElse taken := by
        rintro ⟨u, hu, huElse⟩
        obtain ⟨us, rfl⟩ := List.head?_eq_some_iff.mp hu
        cases htaken
        exact helse huElse
      rw [htaken]
      exact ⟨_, last, .ifThen hif hcondition hopening hfirst hclosing hrest hnot, hlast, by simp⟩
    | @ifThenElse t word brace ts inner second after value thenBody elseBody more hif hvalue hthen
      helse hbrace helseBody hmore htokens hx =>
      subst htokens hx
      have hinner : inner.length < (t :: ts).length := Nat.lt_succ_of_lt hvalue.1
      have hsecond : second.length < (t :: ts).length := by
        have hshorter := hthen.1
        simp only [List.length_cons] at hshorter hinner ⊢
        omega
      have hafter := Nat.lt_trans helseBody.1 hsecond
      obtain ⟨first, closing, hfirst, hclosing, rfl⟩ := ih _ hinner hthen rfl
      obtain ⟨other, elseClosing, hother, helseClosing, rfl⟩ := ih _ hsecond helseBody rfl
      obtain ⟨taken, last, hrest, hlast, rfl⟩ := ih _ hafter hmore rfl
      obtain ⟨condition, opening, hcondition, hopening, rfl⟩ := s.condition_sound hvalue
      exact ⟨_, last, .ifThenElse hif hcondition hopening hfirst hclosing helse hbrace hother
        helseClosing hrest, hlast, by simp⟩

/-- A body is read up to the brace that closes it. -/
theorem body_complete (herror : s.error = none) {taken rest : List Token} {xs : List Element}
    {last : Token} (h : IsBody taken xs) (hlast : last.isMark '\x7d' = true) :
    Takes (s.body (taken ++ last :: rest)) xs rest := by
  induction h generalizing last rest with
  | nil =>
    rw [List.nil_append, body, if_pos hlast]
    exact ⟨by simp, rfl⟩
  | @call name semicolon arguments after args elements hname hif hargs hsemicolon hrest ih =>
    rw [show name :: arguments ++ semicolon :: after ++ last :: rest =
      name :: (arguments ++ semicolon :: (after ++ last :: rest)) by simp]
    rw [body, if_neg (Token.not_isMark_of_kind hname _), if_neg (by rw [hif]; decide)]
    refine takes_bind (s.call_complete herror hname hargs hsemicolon) fun _ => ?_
    exact takes_bind (ih hlast) fun _ => takes_pure
  | @ifThen keyword opening closing condition first after value thenBody elements hkeyword
    hcondition hopening hfirst hclosing hrest helse ihFirst ihRest =>
    obtain ⟨word, afterElse, hwords, hword⟩ : ∃ word afterElse,
        after ++ last :: rest = word :: afterElse ∧ ¬ word.isWord "else" = true := by
      cases after with
      | nil => exact ⟨last, rest, rfl, Token.not_isWord_of_isMark hlast⟩
      | cons u us => exact ⟨u, us ++ last :: rest, rfl, fun h => helse ⟨u, rfl, h⟩⟩
    have hread : Takes (s.body (after ++ last :: rest)) elements rest := ihRest hlast
    rw [hwords] at hread
    rw [show keyword :: condition ++ opening :: first ++ closing :: after ++ last :: rest =
      keyword :: (condition ++ opening :: (first ++ closing :: (after ++ last :: rest))) by simp]
    rw [hwords, body, if_neg (Token.not_isMark_of_isWord hkeyword), if_pos hkeyword]
    refine takes_bind (s.condition_complete herror hcondition hopening) fun _ => ?_
    refine takes_bind (ihFirst hclosing) fun _ => ?_
    dsimp only
    rw [if_neg hword]
    exact takes_bind hread fun _ => takes_pure
  | @ifThenElse keyword opening closing elseWord elseOpening elseClosing condition first second
    after value thenBody elseBody elements hkeyword hcondition hopening hfirst hclosing helse
    helseOpening hsecond helseClosing hrest ihFirst ihSecond ihRest =>
    rw [show keyword :: condition ++ opening :: first ++
        closing :: elseWord :: elseOpening :: second ++ elseClosing :: after ++ last :: rest =
      keyword :: (condition ++ opening :: (first ++ closing :: elseWord :: elseOpening ::
        (second ++ elseClosing :: (after ++ last :: rest)))) by simp]
    rw [body, if_neg (Token.not_isMark_of_isWord hkeyword), if_pos hkeyword]
    refine takes_bind (s.condition_complete herror hcondition hopening) fun _ => ?_
    refine takes_bind (ihFirst hclosing) fun _ => ?_
    dsimp only
    rw [if_pos helse]
    refine takes_bind (s.mark_cons helseOpening) fun _ => ?_
    refine takes_bind (ihSecond helseClosing) fun _ => ?_
    exact takes_bind (ihRest hlast) fun _ => takes_pure

theorem workflow_sound {tokens rest : List Token} {x : WorkflowDef}
    (h : Takes (s.workflow tokens) x rest) :
    ∃ taken, tokens = taken ++ rest ∧
      ∀ {keyword : Token}, keyword.isWord "workflow" → IsWorkflow (keyword :: taken) x := by
  obtain ⟨name, _, _, hname, h⟩ := exists_of_takes_bind h
  obtain ⟨brace, _, _, hbrace, h⟩ := exists_of_takes_bind h
  obtain ⟨elements, _, _, hfound, h⟩ := exists_of_takes_bind h
  simp only [takes_pure_iff] at h
  obtain ⟨rfl, rfl⟩ := h
  obtain ⟨t, hkind, rfl, rfl⟩ := s.of_name hname
  obtain ⟨hopening, rfl⟩ := s.of_mark hbrace
  obtain ⟨body, last, hbody, hclosing, rfl⟩ := s.body_sound hfound
  exact ⟨t :: brace :: body ++ [last], by simp,
    fun hkeyword => .mk hkeyword hkind hopening hbody hclosing⟩

theorem workflow_complete (herror : s.error = none) {tokens : List Token} {x : WorkflowDef}
    (h : IsWorkflow tokens x) :
    ∃ keyword taken, tokens = keyword :: taken ∧ keyword.isWord "workflow" ∧
      ∀ rest, Takes (s.workflow (taken ++ rest)) x rest := by
  cases h with
  | @mk keyword name opening closing body elements hkeyword hname hopening hbody hclosing =>
    refine ⟨keyword, name :: opening :: body ++ [closing], rfl, hkeyword, fun rest => ?_⟩
    rw [show name :: opening :: body ++ [closing] ++ rest =
      name :: opening :: (body ++ closing :: rest) by simp]
    refine takes_bind (s.name_cons hname) fun _ => takes_bind (s.mark_cons hopening) fun _ => ?_
    exact takes_bind (s.body_complete herror hbody hclosing) fun _ => takes_pure

/-! ## Documents -/

/-- What comes after the keyword of a definition, as that definition. -/
theorem takes_definition_iff {α β : Type} {t : Token} {ts rest : List Token}
    {found : Result α ts} {f : α → β} {h : ts.length ≤ (t :: ts).length} {y : β} :
    Takes (Except.map (Reading.ofShorter h) (found.map (·.map f)) : Result β (t :: ts)) y rest ↔
      ∃ x, Takes found x rest ∧ f x = y := by
  cases found with
  | error e =>
    refine ⟨fun h => absurd h not_takes_error, ?_⟩
    rintro ⟨x, h, -⟩
    exact absurd h not_takes_error
  | ok r =>
    constructor
    · rintro ⟨_, h⟩
      cases h
      exact ⟨r.value, ⟨r.shorter, rfl⟩, rfl⟩
    · rintro ⟨x, ⟨_, h⟩, rfl⟩
      cases h
      exact ⟨by rw [List.length_cons]; omega, rfl⟩

theorem definition_sound : Sound s.definition (IsDefinition IsKind) := by
  intro tokens rest x h
  cases tokens with
  | nil => exact absurd h not_takes_error
  | cons t ts =>
    rw [definition] at h
    dsimp only at h
    split at h
    · next hword =>
      obtain ⟨a, ha, rfl⟩ := takes_definition_iff.mp h
      obtain ⟨taken, rfl, hphrase⟩ := s.action_sound ha
      exact ⟨t :: taken, .action (hphrase hword), rfl⟩
    split at h
    · next hword =>
      obtain ⟨e, he, rfl⟩ := takes_definition_iff.mp h
      obtain ⟨taken, rfl, hphrase⟩ := s.entity_sound he
      exact ⟨t :: taken, .entity (hphrase hword), rfl⟩
    split at h
    · next hword =>
      obtain ⟨w, hw, rfl⟩ := takes_definition_iff.mp h
      obtain ⟨taken, rfl, hphrase⟩ := s.workflow_sound hw
      exact ⟨t :: taken, .workflow (hphrase hword), rfl⟩
    split at h
    · next hword =>
      obtain ⟨r, hr, rfl⟩ := takes_definition_iff.mp h
      obtain ⟨taken, rfl, hphrase⟩ := s.role_sound hr
      exact ⟨t :: taken, .role (hphrase hword), rfl⟩
    · exact absurd h not_takes_error

theorem definition_complete (herror : s.error = none) :
    Complete s.definition (IsDefinition IsKind) fun _ => True := by
  intro taken rest x h _
  cases h with
  | action h =>
    obtain ⟨t, ts, rfl, hword, hread⟩ := s.action_complete h
    rw [List.cons_append, definition, if_pos hword]
    exact takes_definition_iff.mpr ⟨_, hread rest, rfl⟩
  | entity h =>
    obtain ⟨t, ts, rfl, hword, hread⟩ := s.entity_complete h
    rw [List.cons_append, definition, if_neg (t.not_isWord_of_isWord hword (by decide)),
      if_pos hword]
    exact takes_definition_iff.mpr ⟨_, hread rest, rfl⟩
  | role h =>
    obtain ⟨t, ts, rfl, hword, hread⟩ := s.role_complete h
    rw [List.cons_append, definition, if_neg (t.not_isWord_of_isWord hword (by decide)),
      if_neg (t.not_isWord_of_isWord hword (by decide)),
      if_neg (t.not_isWord_of_isWord hword (by decide)), if_pos hword]
    exact takes_definition_iff.mpr ⟨_, hread rest, rfl⟩
  | workflow h =>
    obtain ⟨t, ts, rfl, hword, hread⟩ := s.workflow_complete herror h
    rw [List.cons_append, definition, if_neg (t.not_isWord_of_isWord hword (by decide)),
      if_neg (t.not_isWord_of_isWord hword (by decide)), if_pos hword]
    exact takes_definition_iff.mpr ⟨_, hread rest, rfl⟩

theorem definitions_sound {tokens : List Token} {xs : List Definition}
    (h : (s.definitions tokens).value = .ok xs) : Many (IsDefinition IsKind) tokens xs := by
  induction hlen : tokens.length using Nat.strongRecOn generalizing tokens xs with
  | ind n ih =>
    subst hlen
    cases tokens with
    | nil =>
      rw [definitions] at h
      split at h
      · cases h
      · cases h
        exact .nil
    | cons t ts =>
      rw [definitions, Logged.value_bind] at h
      split at h
      · cases h
      · next found hfound =>
        obtain ⟨x, rest, hshorter⟩ := found
        obtain ⟨taken, hphrase, htokens⟩ := s.definition_sound ⟨hshorter, hfound⟩
        rw [Logged.value_bind, Logged.value_pure] at h
        cases hmore : (s.definitions rest).value with
        | error e =>
          rw [hmore] at h
          cases h
        | ok more =>
          rw [hmore] at h
          cases h
          have hmany := Many.cons hphrase (ih _ hshorter hmore rfl)
          rw [← htokens] at hmany
          exact hmany

/-- Where the definitions are read, no lexical error ended the tokens. -/
theorem error_eq_none_of_definitions {tokens : List Token} {xs : List Definition}
    (h : (s.definitions tokens).value = .ok xs) : s.error = none := by
  induction hlen : tokens.length using Nat.strongRecOn generalizing tokens xs with
  | ind n ih =>
    subst hlen
    cases tokens with
    | nil =>
      rw [definitions] at h
      split at h
      · cases h
      · assumption
    | cons t ts =>
      rw [definitions, Logged.value_bind] at h
      split at h
      · cases h
      · next found hfound =>
        rw [Logged.value_bind, Logged.value_pure] at h
        cases hmore : (s.definitions found.rest).value with
        | error e =>
          rw [hmore] at h
          cases h
        | ok more => exact ih _ found.shorter hmore rfl

theorem definitions_of_takes {tokens rest : List Token} {x : Definition}
    (h : Takes (s.definition tokens) x rest) :
    (s.definitions tokens).value = (s.definitions rest).value.map (x :: ·) := by
  cases tokens with
  | nil => exact absurd h not_takes_error
  | cons t ts =>
    obtain ⟨_, hread⟩ := h
    rw [definitions, Logged.value_bind]
    split
    · next hrefused =>
      rw [hread] at hrefused
      cases hrefused
    · next found hfound =>
      rw [hread] at hfound
      cases hfound
      rw [Logged.value_bind, Logged.value_pure]

theorem definitions_complete (herror : s.error = none) {tokens : List Token}
    {xs : List Definition} (h : Many (IsDefinition IsKind) tokens xs) :
    (s.definitions tokens).value = .ok xs := by
  induction h with
  | nil =>
    rw [definitions, herror]
    rfl
  | cons head tail ih =>
    rw [s.definitions_of_takes (s.definition_complete herror head trivial), ih]
    rfl

end Scan

theorem parse_value (document : String) :
    (parse document).value =
      ((scan (Source.buffer document.toList)).definitions
        (scan (Source.buffer document.toList)).tokens).value.map Program.ofDefinitions :=
  rfl

theorem exists_many_of_parse {document : String} {p : Program}
    (h : (parse document).value = .ok p) :
    ∃ ds, Program.ofDefinitions ds = p ∧
      Grammar.Many (Grammar.IsDefinition Grammar.IsKind)
        (scan (Source.buffer document.toList)).tokens ds := by
  rw [parse_value] at h
  cases hds : ((scan (Source.buffer document.toList)).definitions
      (scan (Source.buffer document.toList)).tokens).value with
  | error e =>
    rw [hds] at h
    cases h
  | ok ds =>
    rw [hds] at h
    cases h
    exact ⟨ds, rfl, Scan.definitions_sound _ hds⟩

theorem parse_of_many {document : String} {ds : List Definition}
    (herror : (scan (Source.buffer document.toList)).error = none)
    (h : Grammar.Many (Grammar.IsDefinition Grammar.IsKind)
      (scan (Source.buffer document.toList)).tokens ds) :
    (parse document).value = .ok (Program.ofDefinitions ds) := by
  rw [parse_value, Scan.definitions_complete _ herror h]
  rfl

/-- A document is read exactly if its buffer scans and its tokens are definitions. -/
theorem parse_eq_ok_iff {document : String} {p : Program} :
    (parse document).value = .ok p ↔
      (scan (Source.buffer document.toList)).error = none ∧
        ∃ ds, Program.ofDefinitions ds = p ∧
          Grammar.Many (Grammar.IsDefinition Grammar.IsKind)
            (scan (Source.buffer document.toList)).tokens ds := by
  constructor
  · intro h
    refine ⟨?_, exists_many_of_parse h⟩
    rw [parse_value] at h
    cases hds : ((scan (Source.buffer document.toList)).definitions
        (scan (Source.buffer document.toList)).tokens).value with
    | error e =>
      rw [hds] at h
      cases h
    | ok ds => exact Scan.error_eq_none_of_definitions _ hds
  · rintro ⟨herror, ds, rfl, hmany⟩
    exact parse_of_many herror hmany

/-- A document whose buffer scans is read as a program exactly if its tokens derive that program
in the grammar, where the type of a role is a kind of actor. -/
theorem parse_eq_ok_iff_isProgram {document : String} {p : Program}
    (herror : (scan (Source.buffer document.toList)).error = none) :
    (parse document).value = .ok p ↔
      Grammar.IsProgram Grammar.IsKind (scan (Source.buffer document.toList)).tokens p := by
  constructor
  · intro h
    obtain ⟨ds, rfl, hmany⟩ := exists_many_of_parse h
    exact .mk hmany
  · rintro ⟨h⟩
    exact parse_of_many herror h

theorem parse_eq_ok_iff_isProgram_nested :
    let document :=
      "workflow W \x7b if (a.b) \x7b x(n: 1); \x7d else \x7b if (true) \x7b \x7d \x7d " ++
      "else(\"t\"); \x7d"
    let scanned := scan (Source.buffer document.toList)
    let p : Program := ⟨[], [], [], [⟨"W", [.decision (.property "a" "b")
      [.call "x" [⟨some "n", .number ⟨false, Decimal.magnitude ⟨1, 0⟩⟩⟩]]
      [.decision (.boolean true) [] []], .call "else" [⟨none, .text "t"⟩]]⟩]⟩
    scanned.error = none ∧
      ((parse document).value = .ok p ↔ Grammar.IsProgram Grammar.IsKind scanned.tokens p) :=
  ⟨by decide +kernel, parse_eq_ok_iff_isProgram (by decide +kernel)⟩

/-- The type of a role is not any actor: a named role is refused there. -/
theorem parse_refuses_role_of_role :
    let document := "role R \x7b type: role X; \x7d"
    let scanned := scan (Source.buffer document.toList)
    let isRoleType := fun ts kind => ∃ name, Grammar.IsActor ts (kind, name)
    scanned.error = none ∧
      Grammar.IsProgram isRoleType scanned.tokens ⟨[], [], [⟨"R", "", some .role⟩], []⟩ ∧
      ∀ p, (parse document).value ≠ .ok p := by
  intro document scanned isRoleType
  refine ⟨by decide +kernel, ?_, ?_⟩
  · let keyword : Token := ⟨.word, "role".toList, 0, 4⟩
    let word : Token := ⟨.word, "type".toList, 9, 13⟩
    let opening : Token := ⟨.mark, ['\x7b'], 7, 8⟩
    let closing : Token := ⟨.mark, ['\x7d'], 23, 24⟩
    let actor : List Token := [⟨.word, "role".toList, 15, 19⟩, ⟨.word, ['X'], 20, 21⟩]
    let given : List Token :=
      word :: ⟨.mark, [':'], 13, 14⟩ :: actor ++ [⟨.mark, [';'], 21, 22⟩]
    have htokens : scanned.tokens =
        keyword :: ⟨.word, ['R'], 5, 6⟩ :: opening :: given ++ [closing] := by decide +kernel
    have hactor : isRoleType actor .role := ⟨_, .role (by decide) rfl⟩
    have hgiven : Grammar.IsAttribute "type" isRoleType given .role :=
      .mk (by decide) (by decide) hactor (by decide)
    have hrole : Grammar.IsRole isRoleType scanned.tokens ⟨"R", "", some .role⟩ := by
      rw [htokens]
      exact .mk (by decide) rfl (by decide) (.cons (.type hgiven) .nil) (by decide)
    have hmany := Grammar.Many.cons (Grammar.IsDefinition.role hrole) .nil
    rw [List.append_nil] at hmany
    exact .mk hmany
  · intro p hp
    have hrefused : (parse document).value.toBool = false := by decide +kernel
    rw [hp] at hrefused
    cases hrefused

end RoleFlow
