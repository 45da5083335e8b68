import RoleFlow.Json.Basic
import RoleFlow.Number.Text
import RoleFlow.Reading

/-!
# Reading JSON text

`Json.parse` accepts JSON text, and `Infinity` as a number. Of several members of one name the
last value counts, in the place of the first.
-/

namespace RoleFlow

namespace Json

/-- The characters allowed between the tokens of JSON text. -/
def isSeparator (c : Char) : Bool := c = ' ' || c = '\t' || c = '\n' || c = '\r'

/-- The text without the separators in front. -/
def skipSeparators (input : List Char) : List Char := input.dropWhile isSeparator

theorem length_skipSeparators_le (input : List Char) :
    (skipSeparators input).length ≤ input.length :=
  length_dropWhile_le ..

/-! ## Texts -/

/-- The value of a hexadecimal digit. -/
def hexValue? (c : Char) : Option Nat :=
  if '0' ≤ c ∧ c ≤ '9' then some (c.toNat - '0'.toNat)
  else if 'a' ≤ c ∧ c ≤ 'f' then some (c.toNat - 'a'.toNat + 10)
  else if 'A' ≤ c ∧ c ≤ 'F' then some (c.toNat - 'A'.toNat + 10)
  else none

/-- The four hexadecimal digits in front. -/
def readUnit (input : List Char) : Option (Reading Nat input) :=
  match input with
  | a :: b :: c :: d :: rest => do
    let a ← hexValue? a
    let b ← hexValue? b
    let c ← hexValue? c
    let d ← hexValue? d
    some ⟨((a * 16 + b) * 16 + c) * 16 + d, rest, by simp only [List.length_cons]; omega⟩
  | _ => none

/-- The character that a code unit stands for alone; half of a surrogate pair stands for none,
and is replaced. -/
def charOfUnit (unit : Nat) : Char :=
  if 0xD800 ≤ unit ∧ unit < 0xE000 then '\uFFFD' else .ofNat unit

/-- The character that the two halves of a surrogate pair stand for. -/
def charOfPair (high low : Nat) : Char :=
  .ofNat (0x10000 + (high - 0xD800) * 0x400 + (low - 0xDC00))

/-- The character that an escape stands for, from after the backslash. Two escaped halves of a
surrogate pair stand for one character. -/
def readEscape (input : List Char) : Option (Reading Char input) :=
  match input with
  | [] => none
  | 'u' :: rest => do
    let high ← readUnit rest
    have hhigh := high.shorter
    let alone : Reading Char ('u' :: rest) :=
      ⟨charOfUnit high.value, high.rest, by simp only [List.length_cons]; omega⟩
    if 0xD800 ≤ high.value ∧ high.value < 0xDC00 then
      match hr : high.rest with
      | '\\' :: 'u' :: more =>
        let low ← readUnit more
        have hlow := low.shorter
        if 0xDC00 ≤ low.value ∧ low.value < 0xE000 then
          some ⟨charOfPair high.value low.value, low.rest,
            by rw [hr] at hhigh; simp only [List.length_cons] at *; omega⟩
        else some alone
      | _ => some alone
    else some alone
  | c :: rest =>
    let plain (decoded : Char) : Option (Reading Char (c :: rest)) :=
      some ⟨decoded, rest, by simp⟩
    if c = '"' ∨ c = '\\' ∨ c = '/' then plain c
    else if c = 'b' then plain '\x08'
    else if c = 'f' then plain '\x0c'
    else if c = 'n' then plain '\n'
    else if c = 'r' then plain '\r'
    else if c = 't' then plain '\t'
    else none

/-- The characters of a text up to its closing quote, from after the opening one. -/
def readText (input : List Char) : Option (Reading (List Char) input) :=
  match input with
  | [] => none
  | c :: rest =>
    if c = '"' then some ⟨[], rest, Nat.lt_add_one _⟩
    else if c = '\\' then
      match readEscape rest with
      | none => none
      | some escape =>
        (readText escape.rest).map fun text =>
          ⟨escape.value :: text.value, text.rest, Nat.lt_trans text.shorter (escape.shorter_cons c)⟩
    else if c.toNat < 0x20 then none
    else
      (readText rest).map fun text => ⟨c :: text.value, text.rest, text.shorter_cons c⟩
termination_by input.length
decreasing_by
  · exact escape.shorter_cons c
  · exact Nat.lt_add_one _

/-! ## Numbers -/

/-- The fraction in front: a point and at least one digit. -/
def splitFraction (input : List Char) : List Char × List Char :=
  match input with
  | '.' :: rest =>
    let digits := rest.takeWhile Char.isDigit
    if digits.isEmpty then ([], input) else (digits, rest.dropWhile Char.isDigit)
  | _ => ([], input)

theorem length_splitFraction_le (input : List Char) :
    (splitFraction input).2.length ≤ input.length := by
  have := length_dropWhile_le Char.isDigit
  unfold splitFraction
  split <;> grind

/-- A number without its sign: no zero stands in front of another digit, and a whole number has not
too many digits. -/
def readUnsigned (negative : Bool) (input : List Char) : Option (Reading Json input) :=
  match input with
  | [] => none
  | first :: rest =>
    if first.isDigit then
      let more := if first = '0' then [] else rest.takeWhile Char.isDigit
      let afterWhole := if first = '0' then rest else rest.dropWhile Char.isDigit
      let fraction := splitFraction afterWhole
      let power := splitExponent fraction.2
      let digits := first :: more
      let isWhole := fraction.1.isEmpty && power.1.isNone
      let size : Int := natOfDigits digits
      let value : Json :=
        if isWhole then .int (if negative then -size else size)
        else .float ⟨negative, (Decimal.ofParts digits fraction.1 (power.1.getD 0)).magnitude⟩
      if isWhole && maxIntDigits < digits.length then none
      else
        some ⟨value, power.2, by
          have h₁ := length_splitExponent_le fraction.2
          have h₂ := length_splitFraction_le afterWhole
          have h₃ : afterWhole.length ≤ rest.length := by
            have := length_dropWhile_le Char.isDigit rest
            simp only [afterWhole]
            split <;> omega
          simp only [List.length_cons, power, fraction] at *
          omega⟩
    else none

/-- The input after a word, if it starts with that word. -/
def readWord (word : String) (value : Json) (input : List Char) : Option (Reading Json input) :=
  if h : word.toList.isPrefixOf input ∧ word.length ≠ 0 then
    some ⟨value, input.drop word.length, by
      have := (List.isPrefixOf_iff_prefix.mp h.1).length_le
      simp only [String.length_toList, List.length_drop] at *
      omega⟩
  else none

/-! ## Values -/

mutual

/-- The value in front, which starts with the first character. -/
def readValue (input : List Char) : Option (Reading Json input) :=
  match input with
  | [] => none
  | '"' :: rest =>
    (readText rest).map fun text =>
      ⟨.str (String.ofList text.value), text.rest,
        by have := text.shorter; simp only [List.length_cons]; omega⟩
  | '[' :: rest =>
    have hle := length_skipSeparators_le rest
    match h : skipSeparators rest with
    | ']' :: after => some ⟨.list [], after, by grind⟩
    | start =>
      (readItems start).map fun items =>
        ⟨.list items.value, items.rest, by have := items.shorter; grind⟩
  | '{' :: rest =>
    have hle := length_skipSeparators_le rest
    match h : skipSeparators rest with
    | '}' :: after => some ⟨.object [], after, by grind⟩
    | start =>
      (readMembers start).map fun members =>
        ⟨.object (Fields.ofList members.value), members.rest, by have := members.shorter; grind⟩
  | '-' :: 'I' :: rest => readWord "-Infinity" (.float ⟨true, .infinite⟩) ('-' :: 'I' :: rest)
  | '-' :: rest => (readUnsigned true rest).map (Reading.ofShorter (by simp))
  | c :: rest =>
    if c.isDigit then readUnsigned false (c :: rest)
    else
      (readWord "null" .null (c :: rest)).orElse fun _ =>
      (readWord "true" (.bool true) (c :: rest)).orElse fun _ =>
      (readWord "false" (.bool false) (c :: rest)).orElse fun _ =>
      readWord "Infinity" (.float ⟨false, .infinite⟩) (c :: rest)
termination_by (input.length, 0)
decreasing_by all_goals (apply Prod.Lex.left; grind)

/-- The items of a list up to its closing bracket, the first of them in front. -/
def readItems (input : List Char) : Option (Reading (List Json) input) :=
  match readValue input with
  | none => none
  | some item =>
    have hitem := item.shorter
    have hle := length_skipSeparators_le item.rest
    match h : skipSeparators item.rest with
    | ']' :: after => some ⟨[item.value], after, by grind⟩
    | ',' :: after =>
      have hafter := length_skipSeparators_le after
      (readItems (skipSeparators after)).map fun items =>
        ⟨item.value :: items.value, items.rest, by have := items.shorter; grind⟩
    | _ => none
termination_by (input.length, 1)
decreasing_by
  · apply Prod.Lex.right; decide
  · apply Prod.Lex.left; grind

/-- The members of an object up to its closing brace, the first of them in front. -/
def readMembers (input : List Char) : Option (Reading (List (String × Json)) input) :=
  match input with
  | '"' :: start =>
    match readText start with
    | none => none
    | some name =>
      have hname := name.shorter
      have hle := length_skipSeparators_le name.rest
      match h : skipSeparators name.rest with
      | ':' :: afterColon =>
        have hcolon := length_skipSeparators_le afterColon
        match readValue (skipSeparators afterColon) with
        | none => none
        | some value =>
          have hvalue := value.shorter
          have hend := length_skipSeparators_le value.rest
          let member := (String.ofList name.value, value.value)
          match h' : skipSeparators value.rest with
          | '}' :: after => some ⟨[member], after, by grind⟩
          | ',' :: after =>
            have hafter := length_skipSeparators_le after
            (readMembers (skipSeparators after)).map fun members =>
              ⟨member :: members.value, members.rest, by have := members.shorter; grind⟩
          | _ => none
      | _ => none
  | _ => none
termination_by (input.length, 1)
decreasing_by all_goals (apply Prod.Lex.left; grind)

end

/-- The value of a JSON text, with separators before and after it. -/
def parse (text : String) : Option Json :=
  match readValue (skipSeparators text.toList) with
  | some reading => if (skipSeparators reading.rest).isEmpty then some reading.value else none
  | none => none

end Json

end RoleFlow
