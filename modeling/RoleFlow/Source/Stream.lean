import RoleFlow.Source.Lexer

/-!
# A cursor over a buffer that is scanned on demand

The stream scans no further than it is asked to look, so a lexical error shows only when the
lookahead reaches it, and then once: after it the stream is at its end. This is `TokenStream`.
-/

namespace RoleFlow

/-- A cursor over the tokens of a buffer. `unread` begins at `next`; `lookahead` holds the tokens
scanned and not yet consumed; `position` is the end of the last consumed token. Model of
`TokenStream`. -/
structure TokenStream where
  buffer : List Char
  unread : List Char
  next : Nat
  lookahead : List Token
  position : Nat

namespace TokenStream

/-- The stream at the beginning of a buffer. -/
def ofBuffer (buffer : List Char) : TokenStream := ⟨buffer, buffer, 0, [], 0⟩

/-- The stream without anything left to scan. -/
def exhaust (s : TokenStream) : TokenStream := { s with unread := [] }

/-- Scans up to `count` more tokens, fewer at the end of the buffer or at a lexical error. Model of
`TokenStream._fill`. -/
def fill : (count : Nat) → TokenStream → Except SyntaxError Unit × TokenStream
  | 0, s => (.ok (), s)
  | count + 1, s =>
    match scanNext s.unread s.next with
    | .token token rest _ =>
      fill count { s with unread := rest, next := token.stop, lookahead := s.lookahead ++ [token] }
    | .fault fault position => (.error (.ofFault fault s.buffer position), s.exhaust)
    | .finished => (.ok (), s.exhaust)

/-- The token `offset` places ahead, or none past the end. Model of `TokenStream.peek`. -/
def peek (offset : Nat) (s : TokenStream) : Except SyntaxError (Option Token) × TokenStream :=
  match s.fill (offset + 1 - s.lookahead.length) with
  | (.ok (), s) => (.ok s.lookahead[offset]?, s)
  | (.error e, s) => (.error e, s)

/-- The token `offset` places before the last one scanned; nothing is scanned for it. -/
def scannedFromEnd? (offset : Nat) (s : TokenStream) : Option Token := s.lookahead.reverse[offset]?

/-- Where the current token begins, or where the buffer ends. Model of `TokenStream.offset`. -/
def offset (s : TokenStream) : Except SyntaxError Nat × TokenStream :=
  match s.peek 0 with
  | (.ok (some token), s) => (.ok token.start, s)
  | (.ok none, s) => (.ok s.buffer.length, s)
  | (.error e, s) => (.error e, s)

/-- Whether no token is left. Model of `TokenStream.at_end`. -/
def atEnd (s : TokenStream) : Except SyntaxError Bool × TokenStream :=
  match s.peek 0 with
  | (.ok token?, s) => (.ok token?.isNone, s)
  | (.error e, s) => (.error e, s)

/-- The error with the given fault at the current token. Model of `TokenStream.error`. -/
def error (fault : SyntaxFault) (s : TokenStream) : Except SyntaxError SyntaxError × TokenStream :=
  match s.offset with
  | (.ok position, s) => (.ok (.ofFault fault s.buffer position), s)
  | (.error e, s) => (.error e, s)

/-- Consumes the current token. Model of `TokenStream.advance`. -/
def advance (s : TokenStream) : Except SyntaxError Token × TokenStream :=
  match s.peek 0 with
  | (.ok (some token), s) =>
    (.ok token, { s with lookahead := s.lookahead.drop 1, position := token.stop })
  | (.ok none, s) =>
    match s.error .unexpectedEnd with
    | (.ok e, s) => (.error e, s)
    | (.error e, s) => (.error e, s)
  | (.error e, s) => (.error e, s)

end TokenStream

end RoleFlow
