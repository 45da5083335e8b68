/-!
# Numbers of double precision

A finite magnitude is `significand · 2 ^ scale` in units of `2 ^ (-1074)`, the
smallest positive double. The proof fields admit one pair per value, so equality of
doubles is equality of the data.

Main definitions:
* `roundHalfEven`: a quotient rounded to the nearest integer, ties to the even one.
* `Magnitude.ofRatio`: the double nearest to a quotient of natural numbers.
-/

namespace RoleFlow

-- Powers are the core library's, whatever other instances are in scope: they are evaluated as one
-- operation.
attribute [local instance (2000)] instPowNat

/-- A finite non-negative double in normal form: the significand has 53 bits unless the
scale is the smallest one. -/
structure Finite64 where
  significand : Nat
  scale : Nat
  significand_lt : significand < 2 ^ (53 : Nat)
  normal : scale = 0 ∨ 2 ^ (52 : Nat) ≤ significand
  scale_le : scale ≤ 2045
  deriving DecidableEq

/-- The size of a double, its sign aside. -/
inductive Magnitude where
  | finite (size : Finite64)
  | infinite
  deriving DecidableEq

/-- A double that is a number: both zeros and both infinities are values of their own. -/
structure Double where
  negative : Bool
  magnitude : Magnitude
  deriving DecidableEq

/-! ## Rounding -/

/-- `num / den` rounded to the nearest integer; of two equally near ones the even one. -/
def roundHalfEven (num den : Nat) : Nat :=
  let quotient := num / den
  let remainder := num % den
  if 2 * remainder < den then quotient
  else if den < 2 * remainder then quotient + 1
  else quotient + quotient % 2

namespace Finite64

/-- The number of smallest positive doubles that make up the value. -/
def units (m : Finite64) : Nat := m.significand * 2 ^ m.scale

/-- Units per one. -/
def one : Nat := 2 ^ (1074 : Nat)

/-- The value zero. -/
def zero : Finite64 := ⟨0, 0, by decide, .inl rfl, by decide⟩

/-- Whether the value is a whole number. -/
def isIntegral (m : Finite64) : Bool := m.units % one == 0

/-- The whole part of the value. -/
def floor (m : Finite64) : Nat := m.units / one

end Finite64

namespace Magnitude

/-- Zero. -/
def zero : Magnitude := .finite .zero

/-- The magnitude with the given significand and scale. A significand of `2 ^ 53`, which
rounding up can produce, is half of it at the next scale; past the largest scale the
magnitude is infinite. -/
def ofParts (significand scale : Nat) : Magnitude :=
  if h : significand < 2 ^ (53 : Nat) ∧ (scale = 0 ∨ 2 ^ (52 : Nat) ≤ significand) ∧
      scale ≤ 2045 then
    .finite ⟨significand, scale, h.1, h.2.1, h.2.2⟩
  else if h : significand = 2 ^ (53 : Nat) ∧ scale + 1 ≤ 2045 then
    .finite ⟨2 ^ (52 : Nat), scale + 1, by decide, .inr (Nat.le_refl _), h.2⟩
  else .infinite

/-- The magnitude nearest to `num / den`, ties to the even significand. The scale is the
one that leaves 53 bits before the point, or the smallest. -/
def ofRatio (num den : Nat) : Magnitude :=
  let units := num * Finite64.one
  let scale := Nat.log2 (units / den) - 52
  ofParts (roundHalfEven units (den * 2 ^ scale)) scale

end Magnitude

namespace Double

/-- Positive zero. -/
def zero : Double := ⟨false, .zero⟩

/-- One. -/
def one : Double := ⟨false, .ofRatio 1 1⟩

/-- The double nearest to an integer. -/
def ofInt (i : Int) : Double := ⟨decide (i < 0), .ofRatio i.natAbs 1⟩

/-- Whether the double is zero, of either sign. -/
def isZero (x : Double) : Bool :=
  match x.magnitude with
  | .finite m => m.significand == 0
  | .infinite => false

/-- Whether the double is a number between the infinities. -/
def isFinite (x : Double) : Bool :=
  match x.magnitude with
  | .finite _ => true
  | .infinite => false

/-- The integer that the double is, if it is one. -/
def toInt? (x : Double) : Option Int :=
  match x.magnitude with
  | .finite m =>
    if m.isIntegral then some (if x.negative then -(m.floor : Int) else (m.floor : Int)) else none
  | .infinite => none

end Double

end RoleFlow
