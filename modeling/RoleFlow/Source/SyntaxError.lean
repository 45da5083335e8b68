import RoleFlow.Number.Spelling

/-!
# Syntax errors

A document is refused at the first character or token that does not fit. The error keeps the
cause, the position in the buffer, and the characters around it. Models of `DSLSyntaxError` and
`error_context`.
-/

namespace RoleFlow

/-- The kind of a token. -/
inductive TokenKind where
  | word
  | number
  | text
  | mark
  deriving DecidableEq

/-- A token of the buffer: the characters from `start` up to `stop`, which is excluded. Model of
`Token`. -/
structure Token where
  kind : TokenKind
  chars : List Char
  start : Nat
  stop : Nat
  deriving DecidableEq

/-- The characters of a token as a text. -/
def Token.text (token : Token) : String := String.ofList token.chars

/-- What is wrong with a document. `found` is the token met, none at the end of the buffer. -/
inductive SyntaxFault where
  | unexpectedCharacter (c : Char)
  | unclosedText
  | expected (wanted : String) (found : Option Token)
  | expectedName (found : Option Token)
  | expectedText (found : Option Token)
  | expectedActor (found : Option Token)
  | expectedType (found : Option Token)
  | unexpectedDefinition (found : Option Token)
  | unexpectedActionAttribute (found : Option Token)
  | unexpectedRoleAttribute (found : Option Token)
  | unexpectedEnd
  | other (message : String)
  deriving DecidableEq

/-- A token in a message. Model of `_ParseState._describe`. -/
def describeToken : Option Token → String
  | none => "EOF"
  | some token => "\"" ++ token.text ++ "\""

/-- The wording of a fault. -/
def SyntaxFault.message : SyntaxFault → String
  | .unexpectedCharacter c => "Unexpected character '" ++ String.singleton c ++ "'"
  | .unclosedText => "Expected \"\\\"\", got EOF"
  | .expected wanted found => "Expected \"" ++ wanted ++ "\", got " ++ describeToken found
  | .expectedName found => "Expected identifier, got " ++ describeToken found
  | .expectedText found => "Expected \"\\\"\", got " ++ describeToken found
  | .expectedActor found => "Expected actor type (AI or Human), got " ++ describeToken found
  | .expectedType found => "Expected type name, got " ++ describeToken found
  | .unexpectedDefinition found => "Unexpected keyword: " ++ describeToken found
  | .unexpectedActionAttribute found => "Unexpected action attribute: " ++ describeToken found
  | .unexpectedRoleAttribute found => "Unexpected role attribute: " ++ describeToken found
  | .unexpectedEnd => "Unexpected end of input"
  | .other message => message

/-! ## The characters around a position -/

/-- How many characters on each side of a position an error shows. Model of `CONTEXT_RADIUS`. -/
def contextRadius : Nat := 20

/-- A context: the characters before a position, the one at it between brackets, and those
after it. Past the end there is none at the position. -/
def bracketed (before : List Char) (here : Option Char) (after : List Char) : String :=
  let middle := match here with
    | some c => [c]
    | none => "EOF".toList
  String.ofList (before ++ '[' :: middle ++ ']' :: after)

/-- The characters up to `radius` places around a position of the buffer. -/
def contextAround (buffer : List Char) (position radius : Nat) : String :=
  bracketed ((buffer.take position).drop (position - radius)) buffer[position]?
    ((buffer.drop (position + 1)).take radius)

/-- The members of a list from `start` up to `stop`, which is excluded; negative bounds count
from the end. -/
def slice {α : Type} (xs : List α) (start stop : Int) : List α :=
  let clamp (i : Int) : Nat := if i < 0 then (i + xs.length).toNat else i.toNat
  (xs.take (clamp stop)).drop (clamp start)

/-- `contextAround` for bounds of any sign. A negative position counts from the end, and there is
no context around one that lies before the beginning. Model of `error_context`. -/
def contextAround? (buffer : List Char) (position radius : Int) : Option String :=
  let size : Int := buffer.length
  let before := slice buffer (max 0 (position - radius)) position
  let after := slice buffer (position + 1) (min size (position + radius + 1))
  if position < -size then none
  else if position < 0 then some (bracketed before buffer[(position + size).toNat]? after)
  else some (bracketed before buffer[position.toNat]? after)

/-- An error message with its position and, unless it is empty, its context. Model of
`DSLSyntaxError.__str__`. -/
def locate (message : String) (position : Int) (context : String) : String :=
  message ++ " at position " ++ intText position ++
    (if context.isEmpty then "" else " (context: \"" ++ context ++ "\")")

/-- A refusal of a document. Model of `DSLSyntaxError`. -/
structure SyntaxError where
  fault : SyntaxFault
  position : Nat
  context : String
  deriving DecidableEq

namespace SyntaxError

/-- The error with the given fault at a position of the buffer. Model of `DSLSyntaxError.at`. -/
def ofFault (fault : SyntaxFault) (buffer : List Char) (position : Nat) : SyntaxError :=
  ⟨fault, position, contextAround buffer position contextRadius⟩

/-- The wording of the fault alone. -/
def message (e : SyntaxError) : String := e.fault.message

/-- The message with its position and context. -/
def located (e : SyntaxError) : String := locate e.message e.position e.context

end SyntaxError

end RoleFlow
