import RoleFlow.Number.Shortest

/-!
# How numbers are written

Two spellings of a double. The workflow language has no exponents, so there a number is
written in full: a whole number with all its digits, any other with the shortest digits that
read back. In values that are shown, the shortest digits are used throughout, with an exponent
where the number is very large or very small.
-/

namespace RoleFlow

/-- A text of `count` zeros. -/
def zeros (count : Nat) : String := String.ofList (List.replicate count '0')

/-- The decimal digits of a natural number. -/
def digitsOf (n : Nat) : String := String.ofList (Nat.toDigits 10 n)

/-- The text of an integer. -/
def intText (i : Int) : String :=
  if i < 0 then "-" ++ digitsOf i.natAbs else digitsOf i.natAbs

namespace Decimal

/-- The text without an exponent; a point is written only before a fraction. -/
def positional (d : Decimal) : String :=
  match d.exponent with
  | .ofNat e => digitsOf d.digits ++ zeros e
  | .negSucc e =>
    let digits := Nat.toDigits 10 d.digits
    let padded := List.replicate (e + 2 - digits.length) '0' ++ digits
    let whole := padded.length - (e + 1)
    String.ofList (padded.take whole) ++ "." ++ String.ofList (padded.drop whole)

/-- The text with one digit before the point and a signed exponent of two digits or more. -/
def scientific (d : Decimal) : String :=
  let digits := Nat.toDigits 10 d.digits
  let exponent := d.exponent + digits.length - 1
  let fraction := digits.drop 1
  let mantissa :=
    String.ofList (digits.take 1 ++ (if fraction.isEmpty then [] else '.' :: fraction))
  let power := digitsOf exponent.natAbs
  mantissa ++ "e" ++ (if exponent < 0 then "-" else "+") ++ zeros (2 - power.length) ++ power

/-- The text of a shown number: an exponent is written below `10 ^ (-4)` and from `10 ^ 16` on,
and a whole number ends in a point and a zero. -/
def shown (d : Decimal) : String :=
  let leading := d.exponent + digitCount d.digits - 1
  if leading < -4 ∨ 16 ≤ leading then d.scientific
  else if 0 ≤ d.exponent then d.positional ++ ".0"
  else d.positional

end Decimal

namespace Double

/-- The text of a number in the workflow language. The zero of either sign is `0`. Model of
`NumberLiteral.__str__`. -/
def literal (x : Double) : String :=
  match x.magnitude with
  | .infinite => if x.negative then "-Infinity" else "Infinity"
  | .finite m =>
    let sign := if x.negative && !x.isZero then "-" else ""
    sign ++ (if m.isIntegral then digitsOf m.floor else m.shortest.positional)

/-- The text of a shown number. -/
def shown (x : Double) : String :=
  let sign := if x.negative then "-" else ""
  match x.magnitude with
  | .infinite => sign ++ "inf"
  | .finite m => sign ++ m.shortest.shown

end Double

end RoleFlow
