import RoleFlow.Number.Decimal
import RoleFlow.Reading
import RoleFlow.Text.Blank
import RoleFlow.Text.DecimalDigit

/-!
# Numbers given as texts

Readers for numbers that come as whole texts: real numbers with an optional fraction and power
of ten, and integers in the digits of any script. Both allow blanks around the number, a sign,
and single underscores between characters.
-/

namespace RoleFlow

/-- The power of ten in front: the letter, a sign or none, and at least one digit. -/
def splitExponent (input : List Char) : Option Int × List Char :=
  match input with
  | letter :: rest =>
    if letter = 'e' ∨ letter = 'E' then
      let negative := rest.head? = some '-'
      let unsigned := if rest.head? = some '-' ∨ rest.head? = some '+' then rest.drop 1 else rest
      let digits := unsigned.takeWhile Char.isDigit
      if digits.isEmpty then (none, input)
      else
        let size : Int := natOfDigits digits
        (some (if negative then -size else size), unsigned.dropWhile Char.isDigit)
    else (none, input)
  | [] => (none, input)

theorem length_splitExponent_le (input : List Char) :
    (splitExponent input).2.length ≤ input.length := by
  have := length_dropWhile_le Char.isDigit
  unfold splitExponent
  split <;> grind

/-- The characters without underscores, if each of these stands alone between other characters.
`atStart` says that an underscore here would have none before it. -/
def dropUnderscores? : (atStart : Bool) → List Char → Option (List Char)
  | atStart, [] => if atStart then none else some []
  | atStart, c :: cs =>
    if c = '_' then (if atStart then none else dropUnderscores? true cs)
    else (dropUnderscores? false cs).map (c :: ·)

/-- Whether the text starts with a minus sign, and the text without its sign. -/
def splitSign : List Char → Bool × List Char
  | [] => (false, [])
  | c :: cs => if c = '-' then (true, cs) else if c = '+' then (false, cs) else (false, c :: cs)

/-! ## Real numbers -/

/-- Whether a character is a blank around a real number: any blank but the four separators of
records. -/
def isSpacing (c : Char) : Bool := isBlank c && !(0x1C ≤ c.toNat && c.toNat ≤ 0x1F)

/-- The magnitude of an unsigned real number: digits with or without a point among or beside
them, then a power of ten or none; or the word for infinity. -/
def magnitudeOfText? (text : List Char) : Option Magnitude :=
  let lower := text.map Char.toLower
  if lower = "inf".toList ∨ lower = "infinity".toList then some .infinite
  else
    let whole := text.takeWhile Char.isDigit
    let afterWhole := text.dropWhile Char.isDigit
    let hasPoint := afterWhole.head? = some '.'
    let afterPoint := afterWhole.drop 1
    let fraction := if hasPoint then afterPoint.takeWhile Char.isDigit else []
    let afterFraction := if hasPoint then afterPoint.dropWhile Char.isDigit else afterWhole
    let power := splitExponent afterFraction
    if (whole ++ fraction).isEmpty ∨ !power.2.isEmpty then none
    else some (Decimal.ofParts whole fraction (power.1.getD 0)).magnitude

/-- The double that a signed real number without blanks or underscores is nearest to. -/
def signedDouble? (text : List Char) : Option Double :=
  let (negative, unsigned) := splitSign text
  (magnitudeOfText? unsigned).map (⟨negative, ·⟩)

/-- The double that a text is nearest to, if it is a real number. A number has blanks around it or
underscores in it, but not both. -/
def doubleOfText? (text : String) : Option Double :=
  match signedDouble? (trimEnds isSpacing text.toList) with
  | some x => some x
  | none => (dropUnderscores? true text.toList).bind signedDouble?

/-! ## Integers -/

/-- Whether a character is a blank of ASCII around an integer. -/
def isAsciiSpacing (c : Char) : Bool := c == ' ' || (0x09 ≤ c.toNat && c.toNat ≤ 0x0D)

/-- A character of an integer with its blanks and digits brought to ASCII; other characters
outside ASCII become a question mark. -/
def foldToAscii (c : Char) : Char :=
  if c.toNat < 0x7F then c
  else if isBlank c then ' '
  else
    match decimalDigitValue? c with
    | some value => Char.ofNat ('0'.toNat + value)
    | none => '?'

/-- Why a text gives no integer. -/
inductive IntTextError where
  | malformed
  | tooManyDigits (count : Nat)
  deriving DecidableEq

/-- The most digits that an integer may be written with, zeros in front included. -/
def maxIntDigits : Nat := 4300

/-- The integer that a text is. The digits are counted before the text after them is looked at. -/
def intOfText (text : String) : Except IntTextError Int :=
  let start := (text.toList.map foldToAscii).dropWhile isAsciiSpacing
  let (negative, unsigned) := splitSign start
  let isPart (c : Char) : Bool := c.isDigit || c == '_'
  match dropUnderscores? true (unsigned.takeWhile isPart) with
  | none => .error .malformed
  | some digits =>
    let size : Int := natOfDigits digits
    if maxIntDigits < digits.length then .error (.tooManyDigits digits.length)
    else if (unsigned.dropWhile isPart).all isAsciiSpacing then
      .ok (if negative then -size else size)
    else .error .malformed

end RoleFlow
