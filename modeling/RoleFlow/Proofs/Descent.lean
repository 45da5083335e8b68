import RoleFlow.Number.Text
import RoleFlow.Proofs.Cursors
import RoleFlow.Source.Parser

/-!
# A descent over a stream

The readers of `Source.Parser` take tokens from a list that is there as a whole. A descent has only
a stream, which it looks into and advances, and which raises a lexical error where the lookahead
meets it. It is written with loops, with recursion and with partial steps, and what these take for
granted is tested as it goes: a descent that would go round without taking a token, take the first
character of an empty token, or read a number from a text that is none stops there. The readers are
the methods of `_ParseState`, tests aside.

Main definitions:
* `Stop`: how a descent can end without a value.
* `Descent.passes`, `Descent.recursive`: loops and recursion, with their tests.
* `Descent.program`: the program of a stream.
* `descend`: the program of a document.

Results:
* `untilBrace_cases`: a loop up to a brace takes a token, or does nothing.
* `bodyTesting_takingUnlessEmpty`: the call for a branch takes a token unless the branch is empty.
-/

namespace RoleFlow

/-- How a descent ends without a value: with a syntax error, on a loop or a recursive call that has
taken no token, at a token without a first character, or with a text read as a number that is
none. -/
inductive Stop where
  | refused (e : SyntaxError)
  | stalled
  | emptyToken
  | unreadableNumber (text : String)
  deriving DecidableEq

/-- The number of tokens that a stream has left, those still to be scanned included. -/
def TokenStream.left (stream : TokenStream) : Nat := stream.cursor.remaining.length

/-- A reader of a stream. -/
abbrev Descent (α : Type) := StateT TokenStream (Except Stop) α

namespace Descent

variable {α β : Type}

/-! ## Calls of the stream -/

/-- The end of a descent. -/
def stop (cause : Stop) : Descent α := fun _ => .error cause

/-- A call of the stream. What the stream raises ends the descent. -/
def ask (call : TokenStream → Except SyntaxError α × TokenStream) : Descent α := fun stream =>
  match call stream with
  | (.ok x, after) => .ok (x, after)
  | (.error e, _) => .error (.refused e)

/-- The token `offset` places ahead. -/
def peek (offset : Nat) : Descent (Option Token) := ask (TokenStream.peek offset)

/-- The current token, which is consumed. -/
def advance : Descent Token := ask TokenStream.advance

/-- The refusal of the current token, or of the end. -/
def refuse (fault : Option Token → SyntaxFault) : Descent α := do
  let found ← peek 0
  let e ← ask (TokenStream.error (fault found))
  stop (.refused e)

/-- The text of a token if it is a word, else the empty text. -/
def wordOf : Option Token → String
  | some token => if token.kind = .word then token.text else ""
  | none => ""

/-- The current word, or the empty text if the current token is no word. Model of
`_ParseState.peek_word`. -/
def peekWord : Descent String := do
  let token? ← peek 0
  return wordOf token?

/-- The first character of the current token, none at the end. Model of `_ParseState.peek_char`. -/
def peekChar : Descent (Option Char) := do
  let token? ← peek 0
  match token? with
  | none => return none
  | some token =>
    match token.chars with
    | [] => stop .emptyToken
    | c :: _ => return some c

/-- Whether the current token begins with the given character. -/
def isAt (c : Char) : Descent Bool := do
  let found ← peekChar
  return found == some c

/-! ## Loops and recursion -/

/-- A loop that goes on while `again` says so. It stops after a pass that has taken no token. -/
def passes (again : Descent Bool) (pass : β → Descent β) (b : β) (stream : TokenStream) :
    Except Stop (β × TokenStream) := do
  let (more, looked) ← again stream
  if more then
    let (b, after) ← pass b looked
    if after.left < stream.left then passes again pass b after else .error .stalled
  else return (b, looked)
termination_by stream.left

/-- A reader that calls itself. It stops at a call with no token taken since the call around it. -/
def recursive (reader : Descent α → Descent α) (stream : TokenStream) :
    Except Stop (α × TokenStream) :=
  reader (fun deeper =>
    if deeper.left < stream.left then recursive reader deeper else .error .stalled) stream
termination_by stream.left

/-- A reader that stops if it has taken no token. -/
def taking (reader : Descent α) : Descent α := fun stream => do
  let (x, after) ← reader stream
  if after.left < stream.left then return (x, after) else .error .stalled

/-- A reader of a list that stops if it has taken no token, unless the list is empty. -/
def takingUnlessEmpty (reader : Descent (List α)) : Descent (List α) := fun stream => do
  let (xs, after) ← reader stream
  if xs.isEmpty || after.left < stream.left then return (xs, after) else .error .stalled

/-! ## Single tokens -/

/-- The current token, if it is acceptable. -/
def take (accepts : Token → Bool) (fault : Option Token → SyntaxFault) : Descent Token := do
  let token? ← peek 0
  if token?.any accepts then advance else refuse fault

/-- The given word. Model of `_ParseState.consume_word`. -/
def word (word : String) : Descent Token := take (·.isWord word) (.expected word)

/-- The given punctuation mark. Model of `_ParseState.consume_char`. -/
def mark (mark : Char) : Descent Token :=
  take (·.isMark mark) (.expected (String.singleton mark))

/-- A name, which may be any word. Model of `_ParseState.identifier`. -/
def name : Descent String := do
  let token ← take (·.kind == .word) .expectedName
  return token.text

/-- The value of a text in quotes. Model of `_ParseState.string_literal`. -/
def quotedText : Descent String := do
  let token ← take (·.kind == .text) .expectedText
  return String.ofList (unescape token.chars)

/-- The value of a number. -/
def number : Descent Double := do
  let token ← advance
  match doubleOfText? token.text with
  | some x => return x
  | none => stop (.unreadableNumber token.text)

/-! ## Lists and blocks -/

/-- The items so far, with one more after a comma. -/
def itemAfterComma (item : Descent α) (before : List α) : Descent (List α) := do
  let _ ← mark ','
  let x ← item
  return before ++ [x]

/-- Items with commas between them, perhaps none, up to where the closing mark comes. Model of
`_ParseState.identifier_list`. -/
def items (item : Descent α) (closing : Char) : Descent (List α) := do
  if ← isAt closing then return []
  else
    let first ← item
    passes (isAt ',') (itemAfterComma item) [first]

/-- A list between two marks. -/
def enclosed (opening closing : Char) (item : Descent α) : Descent (List α) := do
  let _ ← mark opening
  let found ← items item closing
  let _ ← mark closing
  return found

/-- The list between parentheses in front; none reads as the empty list. Model of
`_ParseState.parameters` and `_ParseState.arguments`. -/
def parenthesized (item : Descent α) : Descent (List α) := do
  if ← isAt '(' then enclosed '(' ')' item else return []

/-- A loop up to where a closing brace comes. -/
def untilBrace (pass : β → Descent β) (b : β) : Descent β :=
  passes (do return !(← isAt '}')) pass b

/-- What comes before a closing brace. -/
def closed (inner : Descent α) : Descent α := do
  let x ← inner
  let _ ← mark '}'
  return x

/-- What stands between braces. -/
def braced (inner : Descent α) : Descent α := do
  let _ ← mark '{'
  closed inner

/-! ## Types, parameters and actors -/

/-- A type: letters, perhaps with another type in angle brackets. Model of `_ParseState.type_`. -/
def typeText : Descent String :=
  recursive fun inner => do
    let letters ← take Token.isTypeName .expectedType
    if ← isAt '<' then
      let _ ← mark '<'
      let argument ← taking inner
      let _ ← mark '>'
      return letters.text ++ "<" ++ argument ++ ">"
    else return letters.text

/-- A name, a colon and a type. Model of `_ParseState.parameter`. -/
def typedName : Descent TypedName := do
  let name ← name
  let _ ← mark ':'
  let type ← typeText
  return ⟨name, type⟩

/-- The word of an AI or a human. Model of `_ParseState.actor_type`. -/
def actorKind : Descent ActorKind := do
  let token ← take (fun token => (Scan.actorOfWord? token).isSome) .expectedActor
  return (Scan.actorOfWord? token).getD .human

/-- Who performs an action: a named role, an AI or a human. -/
def performer : Descent (ActorKind × Option String) := do
  if (← peekWord) = "role" then
    let _ ← word "role"
    let owner ← name
    return (.role, some owner)
  else
    let kind ← actorKind
    return (kind, none)

/-! ## Actions, entities and roles -/

/-- An attribute: its keyword, a colon, the value, and a semicolon. -/
def attributeValue (keyword : String) (value : Descent α) : Descent α := do
  let _ ← word keyword
  let _ ← mark ':'
  let found ← value
  let _ ← mark ';'
  return found

/-- An attribute of an action. Model of one turn of `_ParseState.action_def`. -/
def actionAttribute (action : ActionDef) : Descent ActionDef := do
  let keyword ← peekWord
  if keyword = "description" then
    let found ← attributeValue "description" quotedText
    return { action with description := found }
  else if keyword = "inputs" then
    let found ← attributeValue "inputs" (enclosed '[' ']' name)
    return { action with inputs := found }
  else if keyword = "outputs" then
    let found ← attributeValue "outputs" (enclosed '[' ']' name)
    return { action with outputs := found }
  else refuse .unexpectedActionAttribute

/-- An action. Model of `_ParseState.action_def`. -/
def action : Descent ActionDef := do
  let _ ← word "action"
  let name ← name
  let _ ← word "by"
  let (actor, owner) ← performer
  let parameters ← parenthesized typedName
  braced (untilBrace actionAttribute ⟨name, actor, owner, parameters, "", [], []⟩)

/-- An attribute of an entity, after those before it. Model of one turn of
`_ParseState.entity_def`. -/
def entityAttribute (before : List TypedName) : Descent (List TypedName) := do
  let found ← typedName
  let _ ← mark ';'
  return before ++ [found]

/-- An entity. Model of `_ParseState.entity_def`. -/
def entity : Descent EntityDef := do
  let _ ← word "entity"
  let name ← name
  let attributes ← braced (untilBrace entityAttribute [])
  return ⟨name, attributes⟩

/-- An attribute of a role. Model of one turn of `_ParseState.role_def`. -/
def roleAttribute (role : RoleDef) : Descent RoleDef := do
  let keyword ← peekWord
  if keyword = "description" then
    let found ← attributeValue "description" quotedText
    return { role with description := found }
  else if keyword = "type" then
    let found ← attributeValue "type" actorKind
    return { role with kind := some found }
  else refuse .unexpectedRoleAttribute

/-- A role. Model of `_ParseState.role_def`. -/
def role : Descent RoleDef := do
  let _ ← word "role"
  let name ← name
  braced (untilBrace roleAttribute ⟨name, "", none⟩)

/-! ## Workflows -/

/-- A text, a number, a boolean or an identifier, where `first` is the current token. -/
def simpleExpression (first : Option Token) : Descent Expression := do
  if first.any (·.kind == .text) then
    let value ← quotedText
    return .text value
  else if first.any (·.kind == .number) then
    let value ← number
    return .number value
  else
    let keyword ← peekWord
    if keyword = "true" ∨ keyword = "false" then
      let token ← advance
      return .boolean (token.text == "true")
    else
      let reference ← name
      return .identifier reference

/-- Whether the three tokens ahead are a property access. Model of the test of
`_ParseState.expression`. -/
def isAccess : Option Token → Option Token → Option Token → Bool
  | some owner, some point, some part => Scan.isPropertyAccess owner point part
  | _, _, _ => false

/-- An expression, for which three tokens are looked at. Model of `_ParseState.expression`. -/
def expression : Descent Expression := do
  let first ← peek 0
  let second ← peek 1
  let third ← peek 2
  if isAccess first second third then
    let owner ← name
    let _ ← mark '.'
    let part ← name
    return .property owner part
  else simpleExpression first

/-- An argument, for which two tokens are looked at. Model of `_ParseState.argument`. -/
def argument : Descent Argument := do
  let first ← peek 0
  let second ← peek 1
  if first.any (·.kind == .word) && second.any (·.isMark ':') then
    let name ← name
    let _ ← mark ':'
    let value ← expression
    return ⟨some name, value⟩
  else
    let value ← expression
    return ⟨none, value⟩

/-- A call: the name of an action, its arguments, and a semicolon. Model of
`_ParseState.action_call`. -/
def call : Descent Element := do
  let name ← name
  let args ← parenthesized argument
  let _ ← mark ';'
  return .call name args

/-- The condition of a decision, from after its keyword up to the brace that opens its first
branch. -/
def condition : Descent Expression := do
  let _ ← mark '('
  let found ← expression
  let _ ← mark ')'
  let _ ← mark '{'
  return found

/-- A decision, whose branches `body` reads. Model of `_ParseState.decision`. -/
def decision (body : Descent (List Element)) : Descent Element := do
  let _ ← word "if"
  let found ← condition
  let thenBody ← closed body
  if (← peekWord) = "else" then
    let _ ← word "else"
    let elseBody ← braced body
    return .decision found thenBody elseBody
  else return .decision found thenBody []

/-- A step of a workflow, after those before it. Model of one turn of
`_ParseState.workflow_body`. -/
def step (body : Descent (List Element)) (before : List Element) : Descent (List Element) := do
  if (← peekWord) = "if" then
    let found ← taking (decision body)
    return before ++ [found]
  else
    let found ← call
    return before ++ [found]

/-- The steps up to where a closing brace comes, with `test` around each call for a branch. Model
of `_ParseState.workflow_body`. -/
def bodyTesting (test : Descent (List Element) → Descent (List Element)) :
    Descent (List Element) :=
  recursive fun inner => untilBrace (step (test inner)) []

/-- A workflow, whose steps `body` reads. Model of `_ParseState.workflow_def`. -/
def workflow (body : Descent (List Element)) : Descent WorkflowDef := do
  let _ ← word "workflow"
  let name ← name
  let elements ← braced body
  return ⟨name, elements⟩

/-! ## Documents -/

/-- The definition in front, told by its keyword. Its place is asked for, to be logged. Model of
`_ParseState.definition`. -/
def definition (body : Descent (List Element)) : Descent Definition := do
  let keyword ← peekWord
  let _ ← ask TokenStream.offset
  if keyword = "action" then return .action (← action)
  else if keyword = "entity" then return .entity (← entity)
  else if keyword = "workflow" then return .workflow (← workflow body)
  else if keyword = "role" then return .role (← role)
  else refuse .unexpectedDefinition

/-- A definition, after those before it. -/
def definitionAfter (body : Descent (List Element)) (before : List Definition) :
    Descent (List Definition) := do
  let found ← definition body
  return before ++ [found]

/-- The program of a stream: its definitions up to the end. Model of
`_ParseState.parse_program`. -/
def program (body : Descent (List Element)) : Descent Program := do
  let definitions ← passes (do return !(← ask TokenStream.atEnd)) (definitionAfter body) []
  return .ofDefinitions definitions

/-! ## Branches -/

theorem exists_of_bind_ok {reader : Descent α} {next : α → Descent β}
    {stream : TokenStream} {found : β × TokenStream} (h : (reader >>= next) stream = .ok found) :
    ∃ x between, reader stream = .ok (x, between) ∧ next x between = .ok found := by
  change (reader stream >>= fun r => next r.1 r.2) = .ok found at h
  cases hread : reader stream with
  | error cause =>
    rw [hread] at h
    cases h
  | ok taken =>
    rw [hread] at h
    exact ⟨taken.1, taken.2, rfl, h⟩

theorem left_of_peek {offset : Nat} {token? : Option Token} {stream looked : TokenStream}
    (h : peek offset stream = .ok (token?, looked)) : looked.left = stream.left := by
  have hcursor := TokenStream.peek_cursor offset stream
  rw [peek, ask] at h
  split at h
  · next hpeek =>
    cases h
    rw [hpeek, Cursor.peek] at hcursor
    split at hcursor
    · exact congrArg (·.2.remaining.length) hcursor.symm
    · cases congrArg Prod.fst hcursor
    · exact congrArg (·.2.remaining.length) hcursor.symm
  · cases h

theorem left_of_isAt {c : Char} {found : Bool} {stream looked : TokenStream}
    (h : isAt c stream = .ok (found, looked)) : looked.left = stream.left := by
  obtain ⟨letter?, looked, hletter, hfound⟩ := exists_of_bind_ok h
  cases hfound
  obtain ⟨token?, looked, htoken, hletter⟩ := exists_of_bind_ok hletter
  rw [← left_of_peek htoken]
  cases token? with
  | none =>
    cases hletter
    rfl
  | some token =>
    dsimp only at hletter
    cases hchars : token.chars with
    | nil =>
      rw [hchars] at hletter
      cases hletter
    | cons c cs =>
      rw [hchars] at hletter
      cases hletter
      rfl

/-- A loop up to a brace leaves its value as it is, or takes a token. -/
theorem untilBrace_cases {pass : β → Descent β} {b found : β}
    {stream after : TokenStream} (h : untilBrace pass b stream = .ok (found, after)) :
    found = b ∧ after.left = stream.left ∨ after.left < stream.left := by
  induction hleft : stream.left using Nat.strongRecOn generalizing stream b with
  | ind n ih =>
    subst hleft
    rw [untilBrace, passes] at h
    cases hlook : (do return !(← isAt '}') : Descent Bool) stream with
    | error cause =>
      rw [hlook] at h
      cases h
    | ok looked =>
      obtain ⟨more, looked⟩ := looked
      obtain ⟨closing, _, hclosing, hmore⟩ := exists_of_bind_ok hlook
      rw [hlook] at h
      cases hmore
      change (if (!closing) = true then pass b looked >>= _ else _) = _ at h
      split at h
      · cases hpass : pass b looked with
        | error cause =>
          rw [hpass] at h
          cases h
        | ok further =>
          rw [hpass] at h
          change (if further.2.left < stream.left then _ else _) = _ at h
          split at h
          · next hless =>
            rcases ih further.2.left hless h rfl with ⟨-, hsame⟩ | hmore
            · exact .inr (hsame ▸ hless)
            · exact .inr (Nat.lt_trans hmore hless)
          · cases h
      · cases h
        exact .inl ⟨rfl, left_of_isAt hclosing⟩

theorem takingUnlessEmpty_eq_self {reader : Descent (List α)}
    (h : ∀ {stream xs after}, reader stream = .ok (xs, after) →
      xs = [] ∨ after.left < stream.left) : takingUnlessEmpty reader = reader := by
  funext stream
  change (reader stream >>= _) = reader stream
  cases hread : reader stream with
  | error cause => rfl
  | ok taken =>
    obtain ⟨xs, after⟩ := taken
    refine if_pos ?_
    rcases h hread with rfl | hless
    · rfl
    · rw [decide_eq_true hless, Bool.or_true]

/-- The call for a branch passes its test: it takes a token unless the branch is empty. -/
theorem bodyTesting_takingUnlessEmpty :
    bodyTesting takingUnlessEmpty =
      recursive fun inner => untilBrace (step inner) [] := by
  funext stream
  induction hleft : stream.left using Nat.strongRecOn generalizing stream with
  | ind n ih =>
    subst hleft
    rw [bodyTesting, recursive, recursive]
    rw [takingUnlessEmpty_eq_self]
    · congr 3
      funext deeper
      split
      · next hless => exact ih deeper.left hless deeper rfl
      · rfl
    · intro deeper xs after hread
      split at hread
      · rw [recursive] at hread
        exact (untilBrace_cases hread).imp_left And.left
      · cases hread

end Descent

/-! ## The whole -/

/-- The program of a document, by a descent over the stream of its buffer with `test` around each
call for a branch. Model of `DSLParser.parse`. -/
def descendTesting (test : Descent (List Element) → Descent (List Element)) (document : String) :
    Except Stop Program := do
  let (p, _) ← Descent.program (.bodyTesting test) (.ofBuffer (Source.buffer document.toList))
  return p

/-- The program of a document, by a descent over the stream of its buffer. A call for a branch has
to take a token unless the branch is empty. -/
def descend (document : String) : Except Stop Program :=
  descendTesting Descent.takingUnlessEmpty document

end RoleFlow
