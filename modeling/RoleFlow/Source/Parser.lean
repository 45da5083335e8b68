import RoleFlow.Log
import RoleFlow.Number.Decimal
import RoleFlow.Program.Basic
import RoleFlow.Source.Buffer
import RoleFlow.Source.Lexer

/-!
# From tokens to programs

A document is a sequence of definitions. Every reader takes the tokens from the front of a list
and fails at the first token that does not fit. The readers are the methods of `_ParseState`.

A lexical error takes effect when the parser looks at the place where it arose. Readers look at
one token, except that an argument is recognised by two tokens and an expression by three.

Main definitions:
* `Scan.definition`: the definition in front.
* `parse`: the program of a document, or its syntax error, with the records of the parse.
-/

namespace RoleFlow

namespace Token

/-- Whether the token is the given word. -/
def isWord (token : Token) (word : String) : Bool :=
  token.kind == .word && token.chars == word.toList

/-- Whether the token is the given punctuation mark. Model of `_is_punct`. -/
def isMark (token : Token) (mark : Char) : Bool := token.kind == .mark && token.chars == [mark]

/-- Whether the token is a word of letters alone. -/
def isTypeName (token : Token) : Bool := token.kind == .word && token.chars.all isLetter

/-- The value of a number token: digits, with a point and more digits or without. -/
def number (token : Token) : Double :=
  let whole := token.chars.takeWhile isDigit
  let fraction := (token.chars.dropWhile isDigit).drop 1
  ⟨false, (Decimal.ofParts whole fraction 0).magnitude⟩

end Token

namespace Scan

variable (s : Scan)

/-! ## Single tokens -/

/-- The error where the remaining tokens begin. Where none is left, it is the lexical error that
ended them, if there is one. Model of `TokenStream.error`, raised by a reader. -/
def refuse (fault : Option Token → SyntaxFault) (tokens : List Token) : SyntaxError :=
  match tokens with
  | token :: _ => .ofFault (fault (some token)) s.buffer token.start
  | [] =>
    match s.error with
    | some e => e
    | none => .ofFault (fault none) s.buffer s.buffer.length

/-- What reading `α` from the front of `tokens` gives. -/
abbrev Result (α : Type) (tokens : List Token) := Except SyntaxError (Reading α tokens)

/-- The token in front, if it is acceptable. -/
def take (accepts : Token → Bool) (fault : Option Token → SyntaxFault) (tokens : List Token) :
    Result Token tokens :=
  match tokens with
  | [] => .error (s.refuse fault [])
  | token :: rest =>
    if accepts token then .ok ⟨token, rest, by simp⟩ else .error (s.refuse fault (token :: rest))

/-- The given word. Model of `_ParseState.consume_word`. -/
def word (word : String) (tokens : List Token) : Result Token tokens :=
  s.take (·.isWord word) (.expected word) tokens

/-- The given punctuation mark. Model of `_ParseState.consume_char`. -/
def mark (mark : Char) (tokens : List Token) : Result Token tokens :=
  s.take (·.isMark mark) (.expected (String.singleton mark)) tokens

/-- A name, which may be any word. Model of `_ParseState.identifier`. -/
def name (tokens : List Token) : Result String tokens := do
  let token ← s.take (·.kind == .word) .expectedName tokens
  return token.map Token.text

/-- The value of a text in quotes. Model of `_ParseState.string_literal`. -/
def quotedText (tokens : List Token) : Result String tokens := do
  let token ← s.take (·.kind == .text) .expectedText tokens
  return token.map fun token => String.ofList (unescape token.chars)

/-- Looks at the token `offset` places ahead: a lexical error up to there takes effect. Model of
`TokenStream.peek` in a reader. -/
def lookAhead (offset : Nat) (tokens : List Token) : Except SyntaxError Unit :=
  match tokens[offset]?, s.error with
  | none, some e => .error e
  | _, _ => .ok ()

/-! ## Lists -/

variable {α : Type}

/-- Items with commas between them, at least one, up to the closing mark. -/
def items (item : (tokens : List Token) → Result α tokens) (closing : Char)
    (tokens : List Token) : Result (List α) tokens := do
  let first ← item tokens
  have hfirst := first.shorter
  match h : first.rest with
  | [] => .error (s.refuse (.expected (String.singleton closing)) [])
  | token :: rest =>
    if token.isMark ',' then
      let more ← items item closing rest
      return ⟨first.value :: more.value, more.rest, by
        have := more.shorter; simp only [h, List.length_cons] at *; omega⟩
    else
      let close ← s.mark closing (token :: rest)
      return ⟨[first.value], close.rest, by have := close.shorter; rw [h] at hfirst; omega⟩
termination_by tokens.length
decreasing_by simp only [h, List.length_cons] at *; omega

/-- Items with commas between them, perhaps none, up to the closing mark. Model of
`_ParseState.identifier_list`, and of the inner part of `parameters` and `arguments`. -/
def list (item : (tokens : List Token) → Result α tokens) (closing : Char)
    (tokens : List Token) : Result (List α) tokens :=
  match tokens with
  | [] => s.items item closing []
  | token :: rest =>
    if token.isMark closing then .ok ⟨[], rest, by simp⟩ else s.items item closing (token :: rest)

/-- The list between parentheses in front; none reads as the empty list. Model of
`_ParseState.parameters` and `_ParseState.arguments`. -/
def parenthesized (item : (tokens : List Token) → Result α tokens) (tokens : List Token) :
    Except SyntaxError { found : List α × List Token // found.2.length ≤ tokens.length } :=
  match tokens with
  | [] => .ok ⟨([], []), by simp⟩
  | token :: rest =>
    if token.isMark '(' then do
      let found ← s.list item ')' rest
      return ⟨(found.value, found.rest), by
        have := found.shorter; simp only [List.length_cons]; omega⟩
    else .ok ⟨([], token :: rest), by simp⟩

/-! ## Types, parameters and actors -/

/-- A type: letters, perhaps with another type in angle brackets. Model of `_ParseState.type_`. -/
def typeText (tokens : List Token) : Result String tokens :=
  match tokens with
  | [] => .error (s.refuse .expectedType [])
  | token :: rest =>
    if token.isTypeName then
      match rest with
      | bracket :: inner =>
        if bracket.isMark '<' then do
          let argument ← typeText inner
          let close ← s.mark '>' argument.rest
          return ⟨token.text ++ "<" ++ argument.value ++ ">", close.rest, by
            have := argument.shorter; have := close.shorter; simp only [List.length_cons]; omega⟩
        else .ok ⟨token.text, bracket :: inner, by simp⟩
      | [] => .ok ⟨token.text, [], by simp⟩
    else .error (s.refuse .expectedType (token :: rest))

/-- A name, a colon and a type. Model of `_ParseState.parameter`; the attributes of entities are
read likewise. -/
def typedName (tokens : List Token) : Result TypedName tokens := do
  let name ← s.name tokens
  let colon ← s.mark ':' name.rest
  let type ← s.typeText colon.rest
  return ⟨⟨name.value, type.value⟩, type.rest, by
    have := name.shorter; have := colon.shorter; have := type.shorter; omega⟩

/-- The kind of actor that a word names; `Al` is read as `AI`. Model of `ACTOR_ALIASES`. -/
def actorOfWord? (token : Token) : Option ActorKind :=
  if token.isWord "AI" || token.isWord "Al" then some .ai
  else if token.isWord "Human" then some .human
  else none

/-- The word of an AI or a human. Model of `_ParseState.actor_type`. -/
def actorKind (tokens : List Token) : Result ActorKind tokens := do
  let token ← s.take (fun token => (actorOfWord? token).isSome) .expectedActor tokens
  return token.map fun token => (actorOfWord? token).getD .human

/-- Who performs an action: a named role, an AI or a human. -/
def performer (tokens : List Token) : Result (ActorKind × Option String) tokens :=
  match tokens with
  | [] => .error (s.refuse .expectedActor [])
  | token :: rest =>
    if token.isWord "role" then do
      let name ← s.name rest
      return ⟨(.role, some name.value), name.rest, by
        have := name.shorter; simp only [List.length_cons]; omega⟩
    else do
      let kind ← s.actorKind (token :: rest)
      return kind.map (·, none)

/-! ## Actions, entities and roles -/

/-- The value of an attribute: a colon, the value, and a semicolon. -/
def attributeValue (value : (tokens : List Token) → Result α tokens) (tokens : List Token) :
    Result α tokens := do
  let colon ← s.mark ':' tokens
  let found ← value colon.rest
  let semicolon ← s.mark ';' found.rest
  return ⟨found.value, semicolon.rest, by
    have := colon.shorter; have := found.shorter; have := semicolon.shorter; omega⟩

/-- Names in brackets. -/
def names (tokens : List Token) : Result (List String) tokens := do
  let bracket ← s.mark '[' tokens
  let found ← s.list s.name ']' bracket.rest
  return found.ofShorter (Nat.le_of_lt bracket.shorter)

/-- The attributes of an action up to the closing brace; of several of one name the last counts.
Model of the loop of `_ParseState.action_def`. -/
def actionAttributes (action : ActionDef) (tokens : List Token) : Result ActionDef tokens :=
  match tokens with
  | [] => .error (s.refuse .unexpectedActionAttribute [])
  | token :: rest =>
    if token.isMark '}' then .ok ⟨action, rest, by simp⟩
    else if token.isWord "description" then do
      let found ← s.attributeValue s.quotedText rest
      have := found.shorter
      let more ← actionAttributes { action with description := found.value } found.rest
      return more.ofShorter (by simp only [List.length_cons]; omega)
    else if token.isWord "inputs" then do
      let found ← s.attributeValue s.names rest
      have := found.shorter
      let more ← actionAttributes { action with inputs := found.value } found.rest
      return more.ofShorter (by simp only [List.length_cons]; omega)
    else if token.isWord "outputs" then do
      let found ← s.attributeValue s.names rest
      have := found.shorter
      let more ← actionAttributes { action with outputs := found.value } found.rest
      return more.ofShorter (by simp only [List.length_cons]; omega)
    else .error (s.refuse .unexpectedActionAttribute (token :: rest))
termination_by tokens.length
decreasing_by all_goals (simp only [List.length_cons]; omega)

/-- An action, from after its keyword. Model of `_ParseState.action_def`. -/
def action (tokens : List Token) : Result ActionDef tokens := do
  let name ← s.name tokens
  let byWord ← s.word "by" name.rest
  let actor ← s.performer byWord.rest
  let ⟨(parameters, afterParameters), hparameters⟩ ← s.parenthesized s.typedName actor.rest
  let brace ← s.mark '{' afterParameters
  let start : ActionDef :=
    ⟨name.value, actor.value.1, actor.value.2, parameters, "", [], []⟩
  let found ← s.actionAttributes start brace.rest
  return found.ofShorter (by
    have := name.shorter; have := byWord.shorter; have := actor.shorter; have := brace.shorter
    simp only at hparameters
    omega)

/-- The attributes of an entity up to the closing brace. Model of the loop of
`_ParseState.entity_def`. -/
def entityAttributes (tokens : List Token) : Result (List TypedName) tokens :=
  match tokens with
  | [] => .error (s.refuse .expectedName [])
  | token :: rest =>
    if token.isMark '}' then .ok ⟨[], rest, by simp⟩
    else do
      let found ← s.typedName (token :: rest)
      let semicolon ← s.mark ';' found.rest
      have := found.shorter
      have := semicolon.shorter
      let more ← entityAttributes semicolon.rest
      return ⟨found.value :: more.value, more.rest, by have := more.shorter; omega⟩
termination_by tokens.length
decreasing_by omega

/-- An entity, from after its keyword. Model of `_ParseState.entity_def`. -/
def entity (tokens : List Token) : Result EntityDef tokens := do
  let name ← s.name tokens
  let brace ← s.mark '{' name.rest
  let found ← s.entityAttributes brace.rest
  return ⟨⟨name.value, found.value⟩, found.rest, by
    have := name.shorter; have := brace.shorter; have := found.shorter; omega⟩

/-- The attributes of a role up to the closing brace; of several of one name the last counts. Model
of the loop of `_ParseState.role_def`. -/
def roleAttributes (role : RoleDef) (tokens : List Token) : Result RoleDef tokens :=
  match tokens with
  | [] => .error (s.refuse .unexpectedRoleAttribute [])
  | token :: rest =>
    if token.isMark '}' then .ok ⟨role, rest, by simp⟩
    else if token.isWord "description" then do
      let found ← s.attributeValue s.quotedText rest
      have := found.shorter
      let more ← roleAttributes { role with description := found.value } found.rest
      return more.ofShorter (by simp only [List.length_cons]; omega)
    else if token.isWord "type" then do
      let found ← s.attributeValue s.actorKind rest
      have := found.shorter
      let more ← roleAttributes { role with kind := some found.value } found.rest
      return more.ofShorter (by simp only [List.length_cons]; omega)
    else .error (s.refuse .unexpectedRoleAttribute (token :: rest))
termination_by tokens.length
decreasing_by all_goals (simp only [List.length_cons]; omega)

/-- A role, from after its keyword. Model of `_ParseState.role_def`. -/
def role (tokens : List Token) : Result RoleDef tokens := do
  let name ← s.name tokens
  let brace ← s.mark '{' name.rest
  let found ← s.roleAttributes ⟨name.value, "", none⟩ brace.rest
  return found.ofShorter (by have := name.shorter; have := brace.shorter; omega)

/-! ## Workflows -/

/-- A text, a number, a boolean or an identifier. -/
def simpleExpression (tokens : List Token) : Result Expression tokens :=
  match tokens with
  | [] => .error (s.refuse .expectedName [])
  | token :: rest =>
    match token.kind with
    | .text => .ok ⟨.text (String.ofList (unescape token.chars)), rest, by simp⟩
    | .number => .ok ⟨.number token.number, rest, by simp⟩
    | .word =>
      if token.isWord "true" then .ok ⟨.boolean true, rest, by simp⟩
      else if token.isWord "false" then .ok ⟨.boolean false, rest, by simp⟩
      else .ok ⟨.identifier token.text, rest, by simp⟩
    | .mark => .error (s.refuse .expectedName (token :: rest))

/-- Whether three tokens are a property access: two words with a point between them and nothing
else. -/
def isPropertyAccess (owner point part : Token) : Bool :=
  owner.kind == .word && point.isMark '.' && part.kind == .word &&
    owner.stop == point.start && point.stop == part.start

/-- A property access, or a simple expression if there is none. -/
def propertyOrSimple (tokens : List Token) : Result Expression tokens :=
  match tokens with
  | owner :: point :: part :: rest =>
    if isPropertyAccess owner point part then
      .ok ⟨.property owner.text part.text, rest, by simp only [List.length_cons]; omega⟩
    else s.simpleExpression (owner :: point :: part :: rest)
  | [] => s.simpleExpression []
  | [first] => s.simpleExpression [first]
  | [first, second] => s.simpleExpression [first, second]

/-- An expression, for which three tokens are looked at. Model of `_ParseState.expression`. -/
def expression (tokens : List Token) : Result Expression tokens := do
  s.lookAhead 2 tokens
  s.propertyOrSimple tokens

/-- An argument by position. -/
def positional (tokens : List Token) : Result Argument tokens := do
  let value ← s.expression tokens
  return value.map (⟨none, ·⟩)

/-- An argument with a name and a colon in front, or one by position. -/
def namedOrPositional (tokens : List Token) : Result Argument tokens :=
  match tokens with
  | name :: colon :: rest =>
    if name.kind == .word && colon.isMark ':' then do
      let value ← s.expression rest
      return ⟨⟨some name.text, value.value⟩, value.rest, by
        have := value.shorter; simp only [List.length_cons]; omega⟩
    else s.positional (name :: colon :: rest)
  | [] => s.positional []
  | [first] => s.positional [first]

/-- An argument, for which two tokens are looked at. Model of `_ParseState.argument`. -/
def argument (tokens : List Token) : Result Argument tokens := do
  s.lookAhead 1 tokens
  s.namedOrPositional tokens

/-- A call: the name of an action, its arguments, and a semicolon. Model of
`_ParseState.action_call`. -/
def call (tokens : List Token) : Result Element tokens := do
  let name ← s.name tokens
  let ⟨(args, afterArgs), hargs⟩ ← s.parenthesized s.argument name.rest
  let semicolon ← s.mark ';' afterArgs
  return ⟨.call name.value args, semicolon.rest, by
    have := name.shorter; have := semicolon.shorter; simp only at hargs; omega⟩

/-- The condition of a decision, from after its keyword up to the brace that opens its first
branch. Model of the first half of `_ParseState.decision`. -/
def condition (tokens : List Token) : Result Expression tokens := do
  let paren ← s.mark '(' tokens
  let found ← s.expression paren.rest
  let close ← s.mark ')' found.rest
  let brace ← s.mark '{' close.rest
  return ⟨found.value, brace.rest, by
    have := paren.shorter; have := found.shorter; have := close.shorter; have := brace.shorter
    omega⟩

/-- The steps of a body up to the closing brace. A step that begins with the word `if` is a
decision, and the word `else` after its first branch belongs to it. Model of
`_ParseState.workflow_body` and `_ParseState.decision`. -/
def body (tokens : List Token) : Result (List Element) tokens :=
  match tokens with
  | [] => .error (s.refuse .expectedName [])
  | token :: rest =>
    if token.isMark '}' then .ok ⟨[], rest, by simp⟩
    else if token.isWord "if" then do
      let found ← s.condition rest
      have hfound := found.shorter
      let thenBody ← body found.rest
      have hthen := thenBody.shorter
      match h : thenBody.rest with
      | word :: afterElse =>
        if word.isWord "else" then
          let brace ← s.mark '{' afterElse
          have hbrace := brace.shorter
          let elseBody ← body brace.rest
          have helse := elseBody.shorter
          let more ← body elseBody.rest
          return ⟨.decision found.value thenBody.value elseBody.value :: more.value, more.rest, by
            have := more.shorter; simp only [h, List.length_cons] at *; omega⟩
        else
          let more ← body (word :: afterElse)
          return ⟨.decision found.value thenBody.value [] :: more.value, more.rest, by
            have := more.shorter; simp only [h, List.length_cons] at *; omega⟩
      | [] => .error (s.refuse .expectedName [])
    else do
      let found ← s.call (token :: rest)
      have hfound := found.shorter
      let more ← body found.rest
      return ⟨found.value :: more.value, more.rest, by have := more.shorter; omega⟩
termination_by tokens.length
decreasing_by all_goals (simp_all only [List.length_cons] <;> omega)

/-- A workflow, from after its keyword. Model of `_ParseState.workflow_def`. -/
def workflow (tokens : List Token) : Result WorkflowDef tokens := do
  let name ← s.name tokens
  let brace ← s.mark '{' name.rest
  let found ← s.body brace.rest
  return ⟨⟨name.value, found.value⟩, found.rest, by
    have := name.shorter; have := brace.shorter; have := found.shorter; omega⟩

/-! ## Documents -/

/-- The definition in front, told by its keyword. Model of `_ParseState.definition`. -/
def definition (tokens : List Token) : Result Definition tokens :=
  match tokens with
  | [] => .error (s.refuse .unexpectedDefinition [])
  | token :: rest =>
    let after (found : Result Definition rest) : Result Definition (token :: rest) :=
      found.map (Reading.ofShorter (by simp))
    if token.isWord "action" then after ((s.action rest).map (·.map .action))
    else if token.isWord "entity" then after ((s.entity rest).map (·.map .entity))
    else if token.isWord "workflow" then after ((s.workflow rest).map (·.map .workflow))
    else if token.isWord "role" then after ((s.role rest).map (·.map .role))
    else .error (s.refuse .unexpectedDefinition (token :: rest))

/-- The record of the definition that begins at a token. -/
def definitionRecord (token : Token) : Record :=
  let keyword := if token.kind == .word then token.text else ""
  ⟨.debug, .parser,
    "Parsing '" ++ keyword ++ "' definition at position " ++ digitsOf token.start⟩

/-- The definitions up to the end, with a record for each one begun. Model of
`_ParseState.parse_program`. -/
def definitions (tokens : List Token) : Logged (Except SyntaxError (List Definition)) :=
  match tokens with
  | [] =>
    match s.error with
    | some e => pure (.error e)
    | none => pure (.ok [])
  | token :: rest => do
    Logged.log [definitionRecord token]
    match s.definition (token :: rest) with
    | .error e => pure (.error e)
    | .ok found =>
      have := found.shorter
      let more ← definitions found.rest
      pure (more.map (found.value :: ·))
termination_by tokens.length
decreasing_by simpa using this

end Scan

/-- The record of the outcome of a parse. -/
def outcomeRecord : Except SyntaxError Program → Record
  | .error e => ⟨.debug, .parser, "Parse error: " ++ e.located⟩
  | .ok p =>
    ⟨.debug, .parser,
      "Parsed " ++ digitsOf p.actions.length ++ " actions, " ++ digitsOf p.entities.length ++
        " entities, " ++ digitsOf p.roles.length ++ " roles, " ++ digitsOf p.workflows.length ++
        " workflows"⟩

/-- The program of a document, or the syntax error that it is refused with. Model of
`DSLParser.parse`. -/
def parse (document : String) : Logged (Except SyntaxError Program) := do
  Logged.log (Source.bufferRecords document.toList)
  let scanned := scan (Source.buffer document.toList)
  let definitions ← scanned.definitions scanned.tokens
  let outcome := definitions.map Program.ofDefinitions
  Logged.log [outcomeRecord outcome]
  pure outcome

theorem parse_of_toOption {document : String} {p : Program}
    (h : (parse document).value.toOption = some p) : (parse document).value = .ok p := by
  cases hvalue : (parse document).value with
  | error e =>
    rw [hvalue] at h
    cases h
  | ok q =>
    rw [hvalue] at h
    exact congrArg Except.ok (Option.some.inj h)

/-- The program of a document that is read from a file, where every line end is a line feed. Model
of `DSLParser.parse_file`. -/
def parseFile (contents : String) : Logged (Except SyntaxError Program) :=
  parse (String.ofList (Source.normalizeLineEnds contents.toList))

end RoleFlow
