import RoleFlow.Json.Basic
import RoleFlow.Number.Spelling
import RoleFlow.Text.Quoted

/-!
# Writing JSON text

`Json.indented` writes one item or member a line, two spaces deeper per level, in ASCII alone.
An empty list or object stays on one line. An infinite number is written `Infinity`.
-/

namespace RoleFlow

namespace Json

/-- The UTF-16 code units of a character. -/
def codeUnits (c : Char) : List Nat :=
  if c.toNat < 0x10000 then [c.toNat]
  else [0xD800 + (c.toNat - 0x10000) / 0x400, 0xDC00 + (c.toNat - 0x10000) % 0x400]

/-- How a character is written in a text: as itself if it is printable ASCII. -/
def escapeChar (c : Char) : List Char :=
  if c = '"' ∨ c = '\\' then ['\\', c]
  else if c = '\n' then ['\\', 'n']
  else if c = '\r' then ['\\', 'r']
  else if c = '\t' then ['\\', 't']
  else if c = '\x08' then ['\\', 'b']
  else if c = '\x0c' then ['\\', 'f']
  else if ' ' ≤ c ∧ c ≤ '~' then [c]
  else (codeUnits c).flatMap fun unit => '\\' :: 'u' :: hexDigits 4 unit

/-- A text between double quotes. -/
def textLiteral (s : String) : String :=
  String.ofList ('"' :: s.toList.flatMap escapeChar ++ ['"'])

/-- A number with a fraction, an exponent or neither bound. -/
def floatLiteral (x : Double) : String :=
  if x.isFinite then x.shown else if x.negative then "-Infinity" else "Infinity"

/-- The name that a value is written as where a member is named; lists and objects name none. -/
def memberName? : Json → Option String
  | .null => some "null"
  | .bool value => some (if value then "true" else "false")
  | .int value => some (intText value)
  | .float value => some (floatLiteral value)
  | .str value => some value
  | _ => none

/-- The start of a line at a depth. -/
def newLine (depth : Nat) : String := "\n" ++ String.ofList (List.replicate (2 * depth) ' ')

mutual

/-- A value as text; `depth` is that of the line it starts on. -/
def write (depth : Nat) : Json → String
  | .null => "null"
  | .bool value => if value then "true" else "false"
  | .int value => intText value
  | .float value => floatLiteral value
  | .str value => textLiteral value
  | .list [] => "[]"
  | .list (item :: items) =>
    "[" ++ newLine (depth + 1) ++ item.write (depth + 1) ++ writeItems (depth + 1) items ++
      newLine depth ++ "]"
  | .object [] => "\x7b\x7d"
  | .object ((name, value) :: fields) =>
    "\x7b" ++ newLine (depth + 1) ++ textLiteral name ++ ": " ++ value.write (depth + 1) ++
      writeFields (depth + 1) fields ++ newLine depth ++ "\x7d"

/-- The items after the first, each on a line of its own. -/
def writeItems (depth : Nat) : List Json → String
  | [] => ""
  | item :: items => "," ++ newLine depth ++ item.write depth ++ writeItems depth items

/-- The members after the first, each on a line of its own. -/
def writeFields (depth : Nat) : List (String × Json) → String
  | [] => ""
  | (name, value) :: fields =>
    "," ++ newLine depth ++ textLiteral name ++ ": " ++ value.write depth ++
      writeFields depth fields

end

/-- A value as indented text, without a line end after it. -/
def indented (json : Json) : String := json.write 0

end Json

end RoleFlow
