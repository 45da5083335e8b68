import RoleFlow.Number.Double

/-!
# Decimal numbers

A decimal is an integer of decimal digits times a power of ten. `Decimal.magnitude` is the
double nearest to it.
-/

namespace RoleFlow

-- Powers are the core library's, whatever other instances are in scope: they are evaluated as one
-- operation.
attribute [local instance (2000)] instPowNat

/-- The number `digits · 10 ^ exponent`. -/
structure Decimal where
  digits : Nat
  exponent : Int
  deriving DecidableEq

/-- The value of a run of decimal digits, most significant first. -/
def natOfDigits (digits : List Char) : Nat :=
  digits.foldl (fun value c => 10 * value + (c.toNat - '0'.toNat)) 0

/-- The number of decimal digits of a natural number; zero has one. -/
def digitCount (n : Nat) : Nat := (Nat.toDigits 10 n).length

namespace Decimal

/-- The decimal written as a whole part, a fraction and a power of ten. -/
def ofParts (whole fraction : List Char) (exponent : Int) : Decimal :=
  ⟨natOfDigits (whole ++ fraction), exponent - fraction.length⟩

/-- The double nearest to the decimal. A decimal at `10 ^ 400` or above, or below
`10 ^ (-400)`, is decided without computing its power of ten. -/
def magnitude (d : Decimal) : Magnitude :=
  let top := (digitCount d.digits : Int) + d.exponent
  if d.digits = 0 then .zero
  else if 400 < top then .infinite
  else if top < -400 then .zero
  else
    match d.exponent with
    | .ofNat e => .ofRatio (d.digits * 10 ^ e) 1
    | .negSucc e => .ofRatio d.digits (10 ^ (e + 1))

/-- The same number without trailing zeros among its digits, at most `limit` of them
removed. -/
def dropZeros : (limit : Nat) → Decimal → Decimal
  | 0, d => d
  | limit + 1, d =>
    if d.digits ≠ 0 ∧ d.digits % 10 = 0 then
      dropZeros limit ⟨d.digits / 10, d.exponent + 1⟩
    else d

end Decimal

end RoleFlow
