import RoleFlow.Text.CharSet

/-!
# Blank characters

The characters that count as blank between tokens and around names, and what removing or
collapsing them leaves.

Main definitions:
* `isBlank`: the blank characters.
* `trimBlanks`: a text without the blanks at its ends.
* `collapseBlanks`: every run of blanks as one space.
-/

namespace RoleFlow

/-- The blank characters: the ASCII controls that move the writing position or separate
records, the space, and the blank characters of other scripts. -/
def blanks : CharSet :=
  [(0x09, 0x0D), (0x1C, 0x20), (0x85, 0x85), (0xA0, 0xA0), (0x1680, 0x1680), (0x2000, 0x200A),
    (0x2028, 0x2029), (0x202F, 0x202F), (0x205F, 0x205F), (0x3000, 0x3000)]

/-- Whether a character is blank. -/
def isBlank (c : Char) : Bool := blanks.contains c

/-- The list without the members at either end that satisfy `p`. -/
def trimEnds {α : Type} (p : α → Bool) (xs : List α) : List α :=
  ((xs.dropWhile p).reverse.dropWhile p).reverse

/-- A text without the blanks at its ends. -/
def trimBlanks (s : String) : String := String.ofList (trimEnds isBlank s.toList)

/-- Every run of blanks as one space. `afterBlank` says that the character before was one. Model of
`_WHITESPACE`. -/
def collapseBlanks : (afterBlank : Bool) → List Char → List Char
  | _, [] => []
  | afterBlank, c :: cs =>
    if isBlank c then
      if afterBlank then collapseBlanks true cs else ' ' :: collapseBlanks true cs
    else c :: collapseBlanks false cs

end RoleFlow
