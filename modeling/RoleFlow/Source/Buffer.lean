import RoleFlow.Log
import RoleFlow.Text.Blank

/-!
# From a document to the buffer that is scanned

A document loses a leading byte-order mark, its control characters and its comments, and every
run of blanks becomes one space. Comments go before texts in quotes are recognised, so two
slashes inside such a text cut off the rest of the line. This is `preprocess`.
-/

namespace RoleFlow

namespace Source

/-- The byte-order mark. Model of `BOM`. -/
def byteOrderMark : Char := '\uFEFF'

/-- Whether a character is a control character other than the tab, the line feed and the carriage
return. Model of `_CONTROL_CHARS`. -/
def isStrayControl (c : Char) : Bool := c.toNat < 0x20 && c != '\t' && c != '\n' && c != '\r'

/-- The document without a byte-order mark in front. -/
def dropMark : List Char → List Char
  | [] => []
  | c :: cs => if c = byteOrderMark then cs else c :: cs

/-- The document without comments, which run from two slashes up to the next line feed. `inComment`
says that one has begun. Model of `_LINE_COMMENT`. -/
def dropComments : (inComment : Bool) → List Char → List Char
  | _, [] => []
  | true, c :: cs => if c = '\n' then c :: dropComments false cs else dropComments true cs
  | false, '/' :: '/' :: cs => dropComments true cs
  | false, c :: cs => c :: dropComments false cs

/-- The buffer of a document. Model of `preprocess`. -/
def buffer (document : List Char) : List Char :=
  collapseBlanks false
    (dropComments false ((dropMark document).filter fun c => !isStrayControl c))

/-- What preparing a document logs. Model of the log of `preprocess`. -/
def bufferRecords (document : List Char) : List Record :=
  if document.head? = some byteOrderMark then
    [⟨.debug, .lexer, "Byte-order mark detected, removing"⟩]
  else []

/-- The text with every line end, a carriage return with or without a line feed, as a line feed:
how text files are read. -/
def normalizeLineEnds : List Char → List Char
  | [] => []
  | '\r' :: '\n' :: cs => '\n' :: normalizeLineEnds cs
  | c :: cs => (if c = '\r' then '\n' else c) :: normalizeLineEnds cs

end Source

end RoleFlow
