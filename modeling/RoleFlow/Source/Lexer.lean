import RoleFlow.Reading
import RoleFlow.Source.SyntaxError

/-!
# Tokens of a buffer

Four kinds of token tile a buffer, with only spaces between them: words, numbers, texts in
double quotes, and single punctuation marks. The first character of a token decides its kind.
Models of `Lexer.tokenize`, with the terminals `WORD`, `NUMBER`, `STRING` and `PUNCT` of its
grammar, and of `unescape_string`.

Main definitions:
* `scanNext`: the next token of the buffer, a fault, or the end.
* `scan`: all tokens up to the end or the first fault.
-/

namespace RoleFlow

/-! ## Classes of characters -/

/-- The letters that names are made of. -/
def isLetter (c : Char) : Bool := ('a' ≤ c && c ≤ 'z') || ('A' ≤ c && c ≤ 'Z')

/-- The digits that numbers are made of. -/
def isDigit (c : Char) : Bool := '0' ≤ c && c ≤ '9'

/-- The characters that a word goes on with. -/
def isWordChar (c : Char) : Bool := isLetter c || isDigit c || c == '_'

/-- The punctuation marks. -/
def isMark (c : Char) : Bool := "\x7b\x7d()[]<>:;,.".toList.contains c

/-! ## The extent of a token -/

/-- The characters of a number after its first digit, and the rest: digits, then a point with or
without digits after it. -/
def splitNumber (input : List Char) : List Char × List Char :=
  let whole := input.takeWhile isDigit
  match input.dropWhile isDigit with
  | '.' :: rest => (whole ++ '.' :: rest.takeWhile isDigit, rest.dropWhile isDigit)
  | rest => (whole, rest)

/-- The characters of a text from after its opening quote up to its closing one, that quote
included, and the rest. A backslash takes the character after it along, which must not be a line
feed. -/
def splitText : List Char → Option (List Char × List Char)
  | [] => none
  | '"' :: rest => some (['"'], rest)
  | '\\' :: c :: rest =>
    if c = '\n' then none
    else (splitText rest).map fun (text, after) => ('\\' :: c :: text, after)
  | '\\' :: [] => none
  | c :: rest => (splitText rest).map fun (text, after) => (c :: text, after)

theorem splitNumber_append (input : List Char) :
    (splitNumber input).1 ++ (splitNumber input).2 = input := by
  unfold splitNumber
  split
  · next rest h =>
    simp only [List.append_assoc, List.cons_append, List.takeWhile_append_dropWhile, ← h]
  · simp only [List.takeWhile_append_dropWhile]

theorem splitText_append {input text rest : List Char} (h : splitText input = some (text, rest)) :
    text ++ rest = input := by
  fun_induction splitText input generalizing text rest with
  | case1 => cases h
  | case2 => cases h; rfl
  | case3 => cases h
  | case4 c cs hc ih =>
    obtain ⟨⟨text, rest⟩, ht, he⟩ := Option.map_eq_some_iff.mp h
    cases he
    simp [ih ht]
  | case5 => cases h
  | case6 c cs _ _ _ ih =>
    obtain ⟨⟨text, rest⟩, ht, he⟩ := Option.map_eq_some_iff.mp h
    cases he
    simp [ih ht]

/-! ## Scanning -/

/-- What the scanner meets next: a token and the characters after it, a character that begins no
token or a text without an end, or the end of the buffer. -/
inductive Scanned (input : List Char) where
  | token (token : Token) (rest : List Char) (shorter : rest.length < input.length)
  | fault (fault : SyntaxFault) (position : Nat)
  | finished

/-- The token that is made of `first` and the characters that `more` takes from `input`. -/
def Scanned.ofSplit (kind : TokenKind) (position : Nat) (first : Char) (input : List Char)
    (more : List Char × List Char) (h : more.1 ++ more.2 = input) : Scanned (first :: input) :=
  .token ⟨kind, first :: more.1, position, position + (more.1.length + 1)⟩ more.2 (by
    have := congrArg List.length h
    simp only [List.length_append, List.length_cons] at *
    omega)

/-- The token in front of `input`, which begins with a character other than a space. -/
def scanToken (first : Char) (input : List Char) (position : Nat) : Scanned (first :: input) :=
  if isLetter first then
    .ofSplit .word position first input (input.takeWhile isWordChar, input.dropWhile isWordChar)
      List.takeWhile_append_dropWhile
  else if isDigit first then
    .ofSplit .number position first input (splitNumber input) (splitNumber_append input)
  else if first = '"' then
    match h : splitText input with
    | some more => .ofSplit .text position first input more (splitText_append h)
    | none => .fault .unclosedText (position + (input.length + 1))
  else if isMark first then .ofSplit .mark position first input ([], input) rfl
  else .fault (.unexpectedCharacter first) position

/-- What stands in front of `input`, which begins at `position`, once spaces are skipped. Model of
one turn of `Lexer.tokenize`. -/
def scanNext (input : List Char) (position : Nat) : Scanned input :=
  match input with
  | [] => .finished
  | c :: cs =>
    if c = ' ' then
      match scanNext cs (position + 1) with
      | .token token rest shorter => .token token rest (Nat.lt_succ_of_lt shorter)
      | .fault fault position => .fault fault position
      | .finished => .finished
    else scanToken c cs position

/-- The tokens of `input`, which begins at `position`, and the fault that ends them if one
does. -/
def scanFrom (input : List Char) (position : Nat) :
    List Token × Option (SyntaxFault × Nat) :=
  match scanNext input position with
  | .token token rest _ =>
    let (tokens, fault?) := scanFrom rest token.stop
    (token :: tokens, fault?)
  | .fault fault position => ([], some (fault, position))
  | .finished => ([], none)
termination_by input.length

/-- The tokens of a buffer and the lexical error that ends them, if one does. -/
structure Scan where
  buffer : List Char
  tokens : List Token
  error : Option SyntaxError

/-- The tokens of a buffer. Model of `Lexer.tokenize`. -/
def scan (buffer : List Char) : Scan :=
  let (tokens, fault?) := scanFrom buffer 0
  ⟨buffer, tokens, fault?.map fun (fault, position) => .ofFault fault buffer position⟩

/-! ## The value of a text -/

/-- The characters with every backslash before another character dropped; a lone backslash at the
end stays. Model of `_ESCAPE`. -/
def dropEscapes : List Char → List Char
  | [] => []
  | '\\' :: c :: cs => c :: dropEscapes cs
  | c :: cs => c :: dropEscapes cs

/-- The value of a text token: without its first and last character and its escapes. Model of
`unescape_string`. -/
def unescape (text : List Char) : List Char := dropEscapes (text.drop 1).dropLast

end RoleFlow
