import RoleFlow.Proofs.Descents

/-!
# The parser always ends

The loops and the recursive calls of a descent are tested as they run, and so are its looks at the
current token and at numbers. No document makes a test fail: a descent over any stream ends with
what the reader of the tokens gives, and that is a program or a syntax error in the buffer.

Main definitions:
* `decision`, `step`: one pass over the body of a workflow.
* `definitionAfter`: one pass over a document.

Results:
* `reads_expression`, `reads_argument`: lookahead by three tokens and by two.
* `reads_body`: bodies, to any depth of decisions.
* `descend_ends_as_parse`: the descent over a document ends, and like its parse.
* `descend_stalls_at_empty_branch`: the call for an empty branch takes no token.
-/

namespace RoleFlow

namespace Scan

variable {s : Scan} {α : Type} {t : Token} {tokens rest : List Token}

/-! ## Expressions and calls -/

theorem reads_name_cons (h : (t.kind == .word) = true) (rest : List Token) :
    s.Reads .name (t :: rest) (.ok (t.text, rest)) :=
  mirrors_after (reads_take_cons h rest) mirrors_pure

theorem text_of_isWord {word : String} (h : t.isWord word = true) : t.text = word := by
  rw [Token.text, (Token.isWord_iff.mp h).2, String.ofList_toList]

theorem reads_simpleExpression (tokens : List Token) :
    s.Reads (.simpleExpression tokens.head?) tokens
      ((s.simpleExpression tokens).map Reading.ends) := by
  rw [Descent.simpleExpression]
  cases tokens with
  | nil =>
    rw [List.head?_nil, Option.any_none, Option.any_none, if_neg Bool.false_ne_true,
      if_neg Bool.false_ne_true]
    refine looks_nil looks_peekWord (raises_refuse _) fun _ => ?_
    rw [if_neg (by decide)]
    exact mirrors_of_error (reads_name [])
  | cons t rest =>
    simp only [List.head?_cons, Option.any_some, beq_iff_eq]
    rw [simpleExpression]
    cases hkind : t.kind with
    | text =>
      have htext : s.Reads .quotedText (t :: rest) (.ok (String.ofList (unescape t.chars), rest)) :=
        mirrors_after (reads_take_cons (by rw [hkind]; rfl) rest) mirrors_pure
      rw [if_pos rfl]
      exact mirrors_after htext mirrors_pure
    | number =>
      rw [if_neg (by decide), if_pos rfl]
      exact mirrors_after (reads_number hkind rest) mirrors_pure
    | word =>
      rw [if_neg (by decide), if_neg (by decide)]
      refine looks_cons looks_peekWord ?_
      simp only [wordOf_eq_iff (by decide : "true" ≠ ""), wordOf_eq_iff (by decide : "false" ≠ "")]
      by_cases hboolean : t.isWord "true" = true ∨ t.isWord "false" = true
      · rw [if_pos hboolean]
        refine mirrors_after (reads_advance t rest) ?_
        by_cases htrue : t.isWord "true" = true
        · rw [if_pos htrue, text_of_isWord htrue]
          exact mirrors_pure
        · have hfalse := hboolean.resolve_left htrue
          rw [if_neg htrue, if_pos hfalse, text_of_isWord hfalse]
          exact mirrors_pure
      · obtain ⟨htrue, hfalse⟩ := not_or.mp hboolean
        rw [if_neg hboolean, if_neg htrue, if_neg hfalse]
        exact mirrors_after (reads_name_cons (by rw [hkind]; rfl) rest) mirrors_pure
    | mark =>
      rw [if_neg (by decide), if_neg (by decide)]
      refine looks_cons looks_peekWord ?_
      have hword : Descent.wordOf (some t) = "" := if_neg (by rw [hkind]; decide)
      rw [hword, if_neg (by decide)]
      refine mirrors_of_error (mirrors_of_error (reads_take_refuse (fun _ h => by cases h) ?_ rest))
      rw [hkind]
      decide

theorem reads_expression (tokens : List Token) :
    s.Reads .expression tokens ((s.expression tokens).map Reading.ends) := by
  have hraises : ∀ offset ≤ 2, ∀ e, s.lookAhead offset tokens = .error e →
      (s.expression tokens).map Reading.ends = .error e := by
    intro offset hoffset e he
    rw [expression, lookAhead_error_le hoffset he]
    rfl
  refine mirrors_peek (hraises 0 (by decide)) fun _ => ?_
  refine mirrors_peek (hraises 1 (by decide)) fun _ => ?_
  refine mirrors_peek (hraises 2 (by decide)) fun hahead => ?_
  rw [expression, hahead]
  change s.Reads _ tokens ((s.propertyOrSimple tokens).map Reading.ends)
  rw [← List.head?_eq_getElem?]
  obtain _ | ⟨owner, _ | ⟨point, _ | ⟨part, rest⟩⟩⟩ := tokens
  · exact reads_simpleExpression []
  · exact reads_simpleExpression [owner]
  · exact reads_simpleExpression [owner, point]
  rw [propertyOrSimple]
  change s.Reads (ite (isPropertyAccess owner point part = true) _ _) _ _
  split
  · next haccess =>
    simp only [isPropertyAccess, Bool.and_eq_true] at haccess
    obtain ⟨⟨⟨⟨howner, hpoint⟩, hpart⟩, -⟩, -⟩ := haccess
    refine mirrors_after (reads_name_cons howner _) ?_
    refine mirrors_after (reads_take_cons hpoint _) ?_
    exact mirrors_after (reads_name_cons hpart rest) mirrors_pure
  · exact reads_simpleExpression (owner :: point :: part :: rest)

theorem reads_argument (tokens : List Token) :
    s.Reads .argument tokens ((s.argument tokens).map Reading.ends) := by
  have hraises : ∀ offset ≤ 1, ∀ e, s.lookAhead offset tokens = .error e →
      (s.argument tokens).map Reading.ends = .error e := by
    intro offset hoffset e he
    rw [argument, lookAhead_error_le hoffset he]
    rfl
  refine mirrors_peek (hraises 0 (by decide)) fun _ => ?_
  refine mirrors_peek (hraises 1 (by decide)) fun hahead => ?_
  rw [argument, hahead]
  change s.Reads _ tokens ((s.namedOrPositional tokens).map Reading.ends)
  have hpositional : ∀ tokens, s.Reads (do
      let value ← Descent.expression
      return ⟨none, value⟩) tokens ((s.positional tokens).map Reading.ends) :=
    fun tokens => reads_next (reads_expression tokens) fun _ => mirrors_pure
  obtain _ | ⟨name, _ | ⟨colon, rest⟩⟩ := tokens
  · exact hpositional []
  · change s.Reads (ite ((name.kind == .word && false) = true) _ _) _ _
    rw [Bool.and_false, if_neg Bool.false_ne_true]
    exact hpositional [name]
  rw [namedOrPositional]
  change s.Reads (ite ((name.kind == .word && colon.isMark ':') = true) _ _) _ _
  split
  · next hnamed =>
    obtain ⟨hname, hcolon⟩ := (Bool.and_eq_true _ _).mp hnamed
    refine mirrors_after (reads_name_cons hname _) ?_
    refine mirrors_after (reads_take_cons hcolon rest) ?_
    exact reads_next (reads_expression rest) fun _ => mirrors_pure
  · exact hpositional (name :: colon :: rest)

theorem raises_argument : s.Raises (s.argument []) := by
  intro e he
  rw [argument, lookAhead, he]
  rfl

theorem reads_call (tokens : List Token) :
    s.Reads .call tokens ((s.call tokens).map Reading.ends) := by
  refine reads_next (reads_name tokens) fun name => ?_
  refine mirrors_next_map (mirrors_parenthesized (fun tokens => (reads_argument tokens).mirrors)
    raises_argument name.rest) (fun args => ?_) fun _ args hrest => raises_bind (raises_mark hrest)
  exact reads_next (reads_mark ';' _) fun _ => mirrors_pure

theorem reads_condition (tokens : List Token) :
    s.Reads .condition tokens ((s.condition tokens).map Reading.ends) :=
  reads_next (reads_mark '(' tokens) fun paren => reads_next (reads_expression paren.rest)
    fun found => reads_next (reads_mark ')' found.rest) fun close =>
      reads_next (reads_mark '{' close.rest) fun _ => mirrors_pure

/-! ## Workflows -/

/-- A decision, from after its keyword. -/
def decision (s : Scan) (tokens : List Token) : Result Element tokens := do
  let found ← s.condition tokens
  let thenBody ← s.body found.rest
  have hthen := thenBody.shorter.trans found.shorter
  match h : thenBody.rest with
  | word :: afterElse =>
    if word.isWord "else" then do
      let brace ← s.mark '{' afterElse
      let elseBody ← s.body brace.rest
      return ⟨.decision found.value thenBody.value elseBody.value, elseBody.rest,
        (elseBody.shorter.trans (brace.shorter_cons word)).trans (h ▸ hthen)⟩
    else return ⟨.decision found.value thenBody.value [], word :: afterElse, h ▸ hthen⟩
  | [] => return ⟨.decision found.value thenBody.value [], [], h ▸ hthen⟩

/-- A step of a workflow, after those before it. -/
def step (s : Scan) (before : List Element) (tokens : List Token) :
    Result (List Element) tokens :=
  match tokens with
  | [] => .error (s.refuse .expectedName [])
  | token :: rest =>
    if token.isWord "if" then do
      let found ← s.decision rest
      return ⟨before ++ [found.value], found.rest, found.shorter_cons token⟩
    else do
      let found ← s.call (token :: rest)
      return found.map fun x => before ++ [x]

section Bodies

variable {inner : Descent (List Element)} {limit : Nat}

/-- A decision, where its branches are read right. -/
theorem mirrors_decision (ht : t.isWord "if" = true)
    (hinner : ∀ fewer, fewer.length < limit → s.Reads (.closed inner) fewer
      ((s.body fewer).map Reading.ends)) (hlimit : rest.length < limit) :
    s.Mirrors True (.decision inner) (t :: rest) ((s.decision rest).map Reading.ends) := by
  refine mirrors_after (reads_take_cons ht rest) ?_
  rw [decision]
  refine reads_next (reads_condition rest) fun found => ?_
  refine reads_next (hinner found.rest (found.shorter.trans hlimit)) fun thenBody => ?_
  obtain ⟨steps, after, hshorter⟩ := thenBody
  cases after with
  | nil => exact looks_nil_early looks_peekWord fun _ => mirrors_pure
  | cons word afterElse =>
    refine looks_cons looks_peekWord ?_
    simp only [wordOf_eq_iff (by decide : "else" ≠ "")]
    split
    · next helse =>
      refine mirrors_after (reads_take_cons helse afterElse) ?_
      rw [Descent.braced, bind_assoc]
      refine reads_next (reads_mark '{' afterElse) fun brace => ?_
      have hfewer : brace.rest.length < limit := by
        have := brace.shorter
        have := found.shorter
        simp only [List.length_cons] at hshorter
        omega
      exact mirrors_map (hinner brace.rest hfewer).mirrors fun _ => rfl
    · exact mirrors_pure

theorem mirrors_step (hinner : ∀ fewer, fewer.length < limit → s.Reads (.closed inner) fewer
    ((s.body fewer).map Reading.ends)) (before : List Element) (tokens : List Token)
    (hlimit : tokens.length ≤ limit) :
    s.Mirrors True (.step inner before) tokens ((s.step before tokens).map Reading.ends) := by
  cases tokens with
  | nil =>
    refine looks_nil looks_peekWord (raises_refuse _) fun _ => ?_
    rw [if_neg (by decide)]
    exact mirrors_of_error (mirrors_of_error (reads_name []))
  | cons t rest =>
    refine looks_cons looks_peekWord ?_
    rw [step]
    simp only [wordOf_eq_iff (by decide : "if" ≠ "")]
    split
    · next hif =>
      have hdecision := mirrors_decision hif hinner hlimit
      exact mirrors_map (mirrors_taking hdecision fun r => r.shorter_cons t) fun _ => rfl
    · exact mirrors_map (reads_call (t :: rest)).mirrors fun _ => rfl

end Bodies

/-- The steps from a decision on are that decision and the steps after it. -/
theorem body_of_decision (ht : t.isWord "if" = true) (before : List Element) :
    (s.body (t :: rest)).map (fun r => (before ++ r.value, r.rest)) =
      s.decision rest >>= fun found =>
        (s.body found.rest).map fun more => (before ++ [found.value] ++ more.value, more.rest) := by
  rw [body, if_neg (Token.not_isMark_of_isWord ht), if_pos ht, decision]
  cases s.condition rest with
  | error e => rfl
  | ok found =>
    change Except.map _ (s.body found.rest >>= _) = (s.body found.rest >>= _) >>= _
    cases s.body found.rest with
    | error e => rfl
    | ok thenBody =>
      obtain ⟨steps, after, hshorter⟩ := thenBody
      cases after with
      | nil =>
        change Except.error _ = (s.body []).map _
        rw [body]
        rfl
      | cons word afterElse =>
        change Except.map _ (ite _ _ _) = (ite _ _ _) >>= _
        split
        · cases s.mark '{' afterElse with
          | error e => rfl
          | ok brace =>
            change Except.map _ (s.body brace.rest >>= _) = (s.body brace.rest >>= _) >>= _
            cases s.body brace.rest with
            | error e => rfl
            | ok elseBody => exact map_cons_eq_append before _ (fun _ => rfl) fun _ => rfl
        · exact map_cons_eq_append before _ (fun _ => rfl) fun _ => rfl

theorem body_eq {before : List Element} {tokens : List Token}
    (h : ¬ tokens.head?.any (·.isMark '}') = true) :
    (s.body tokens).map (fun r => (before ++ r.value, r.rest)) =
      s.step before tokens >>= fun r =>
        (s.body r.rest).map fun more => (r.value ++ more.value, more.rest) := by
  cases tokens with
  | nil =>
    rw [body]
    rfl
  | cons t rest =>
    rw [step]
    split
    · next hif =>
      rw [body_of_decision hif]
      cases s.decision rest <;> rfl
    · next hif =>
      rw [body, if_neg (by simpa using h), if_neg hif]
      cases s.call (t :: rest) with
      | error e => rfl
      | ok found => exact map_cons_eq_append before found.value (fun _ => rfl) fun _ => rfl

theorem reads_body (tokens : List Token) :
    s.Reads (.closed (.bodyTesting .takingUnlessEmpty)) tokens
      ((s.body tokens).map Reading.ends) := by
  rw [Descent.bodyTesting_takingUnlessEmpty]
  refine mirrors_recursive (fun tokens => (s.body tokens).map Reading.ends)
    (fun inner tokens hinner => ?_) tokens
  refine reads_untilBrace s.step
    (fun before tokens => (s.body tokens).map fun r => (before ++ r.value, r.rest))
    (fun before fewer hlimit _ => mirrors_step hinner before fewer hlimit)
    (fun _ _ h => body_eq h) (fun before t hbrace rest => ?_) (fun before => ?_)
    [] tokens (Nat.le_refl _)
  · rw [body, if_pos hbrace]
    exact congrArg (fun xs => Except.ok (xs, rest)) (List.append_nil before)
  · rw [body]
    exact raises_map (raises_refuse _)

theorem reads_workflow (ht : t.isWord "workflow" = true) (rest : List Token) :
    s.Reads (.workflow (.bodyTesting .takingUnlessEmpty)) (t :: rest)
      ((s.workflow rest).map Reading.ends) := by
  refine mirrors_after (reads_take_cons ht rest) ?_
  refine reads_next (reads_name rest) fun name => ?_
  rw [Descent.braced, bind_assoc]
  exact reads_next (reads_mark '{' name.rest) fun brace =>
    mirrors_map (reads_body brace.rest) fun _ => rfl

/-! ## Documents -/

theorem reads_after_keyword {x : Result α rest} {reader : Descent α} {f : α → Definition}
    (h : s.Reads reader (t :: rest) (x.map Reading.ends)) :
    s.Reads (reader >>= fun found => pure (f found)) (t :: rest)
      (((x.map (·.map f)).map
        (Reading.ofShorter (by simp) : _ → Reading Definition (t :: rest))).map Reading.ends) := by
  have hmap : s.Reads (reader >>= fun found => pure (f found)) (t :: rest)
      ((x >>= fun r => pure (r.map f)).map Reading.ends) := mirrors_map h fun _ => rfl
  cases x <;> exact hmap

theorem reads_definition (tokens : List Token) :
    s.Reads (.definition (.bodyTesting .takingUnlessEmpty)) tokens
      ((s.definition tokens).map Reading.ends) := by
  cases tokens with
  | nil =>
    refine looks_nil looks_peekWord (raises_refuse _) fun _ => ?_
    refine looks_nil looks_offset (raises_refuse _) fun _ => ?_
    rw [if_neg (by decide), if_neg (by decide), if_neg (by decide), if_neg (by decide)]
    exact reads_refuse (fun _ => by nofun) []
  | cons t rest =>
    refine looks_cons looks_peekWord (looks_cons looks_offset ?_)
    rw [definition]
    simp only [wordOf_eq_iff (by decide : "action" ≠ ""), wordOf_eq_iff (by decide : "entity" ≠ ""),
      wordOf_eq_iff (by decide : "workflow" ≠ ""), wordOf_eq_iff (by decide : "role" ≠ "")]
    split
    · next hword => exact reads_after_keyword (reads_action hword rest)
    split
    · next hword => exact reads_after_keyword (reads_entity hword rest)
    split
    · next hword => exact reads_after_keyword (reads_workflow hword rest)
    split
    · next hword => exact reads_after_keyword (reads_role hword rest)
    · exact reads_refuse (fun _ => by nofun) (t :: rest)

/-- A definition, after those before it. -/
def definitionAfter (s : Scan) (before : List Definition) (tokens : List Token) :
    Result (List Definition) tokens := do
  let found ← s.definition tokens
  return found.map fun x => before ++ [x]

theorem definitions_eq (before : List Definition) (t : Token) (rest : List Token) :
    (s.definitions (t :: rest)).value.map (fun ds => (Program.ofDefinitions (before ++ ds), [])) =
      s.definitionAfter before (t :: rest) >>= fun r => (s.definitions r.rest).value.map fun ds =>
        (Program.ofDefinitions (r.value ++ ds), ([] : List Token)) := by
  rw [definitionAfter]
  cases hfound : s.definition (t :: rest) with
  | error e =>
    rw [definitions, Logged.value_bind, hfound]
    rfl
  | ok found =>
    rw [s.definitions_of_takes ⟨found.shorter, hfound⟩]
    change Except.map _ (Except.map _ (s.definitions found.rest).value) = Except.map (fun ds =>
      (Program.ofDefinitions (before ++ [found.value] ++ ds), [])) (s.definitions found.rest).value
    cases (s.definitions found.rest).value with
    | error e => rfl
    | ok ds => simp only [Except.map, List.append_assoc, List.singleton_append]

theorem reads_program (tokens : List Token) :
    s.Reads (.program (.bodyTesting .takingUnlessEmpty)) tokens
      ((s.definitions tokens).value.map fun ds => (Program.ofDefinitions ds, [])) := by
  refine mirrors_loop s.definitionAfter
    (fun before tokens => (s.definitions tokens).value.map fun ds =>
      (Program.ofDefinitions (before ++ ds), []))
    (looks_map (! ·) looks_atEnd) (fun before tokens _ _ => ?_) (fun before tokens hgo => ?_)
    (fun before tokens hplain hstop => ?_) (fun before => ?_) [] tokens (Nat.le_refl _)
  · exact mirrors_map (reads_definition tokens).mirrors fun _ => rfl
  · cases tokens with
    | nil => cases hgo
    | cons t rest => exact definitions_eq before t rest
  · cases tokens with
    | cons t rest => cases hstop
    | nil =>
      rw [definitions, hplain rfl]
      change s.Reads (pure (Program.ofDefinitions before)) []
        (.ok (Program.ofDefinitions (before ++ []), []))
      rw [List.append_nil]
      exact mirrors_pure
  · intro e he
    rw [definitions, he]
    rfl

end Scan

/-- A descent over a document always ends, with the program of the document or with the error that
the document is refused with, which lies in the buffer or at its end. So no test of the descent
fails. Every pass of a loop takes a token, and so does every recursive call but that for an empty
branch, which gives no steps; and every recursive call is made with a token taken since the call
around it. The current token always has a first character, and every text that is read as a number
is one. Nor is a token taken past the last one, for the error of that is never the error of a
document. -/
theorem descend_ends_as_parse (document : String) :
    (∃ p, descend document = .ok p ∧ (parse document).value = .ok p) ∨
      ∃ e, descend document = .error (.refused e) ∧ (parse document).value = .error e ∧
        e.position ≤ (Source.buffer document.toList).length ∧ e.fault ≠ .unexpectedEnd := by
  have hagrees := Scan.reads_program _ _ (Scan.stands_ofBuffer (Source.buffer document.toList))
  rw [descend, descendTesting, parse_value]
  generalize Descent.program _ _ = outcome at hagrees ⊢
  cases hvalue : ((scan (Source.buffer document.toList)).definitions
      (scan (Source.buffer document.toList)).tokens).value with
  | error e =>
    rw [hvalue] at hagrees
    cases hagrees with
    | error hrefusal => exact .inr ⟨e, rfl, rfl, hrefusal.position, hrefusal.fault⟩
  | ok ds =>
    rw [hvalue] at hagrees
    cases hagrees with
    | ok => exact .inl ⟨_, rfl, rfl⟩
    | early hearly => exact hearly.elim

/-- An empty branch is read without taking a token: a descent in which every call for a branch has
to take one stops there, and the parser makes a program of the document. -/
theorem descend_stalls_at_empty_branch :
    let document := "workflow W \x7b if (x) \x7b \x7d \x7d"
    descendTesting Descent.taking document = .error .stalled ∧
      (parse document).value = .ok ⟨[], [], [], [⟨"W", [.decision (.identifier "x") [] []]⟩]⟩ := by
  decide +kernel

end RoleFlow
