import RoleFlow.Number.Decimal

/-!
# The shortest decimal that reads back

`Finite64.shortest` is the decimal with the fewest digits whose nearest double is the given
one, and of those the one nearest to it. It tries one digit, two digits and so on; on the
grid of a given number of digits only the two neighbours of the value can qualify.
-/

namespace RoleFlow

-- Powers are the core library's, whatever other instances are in scope: they are evaluated as one
-- operation.
attribute [local instance (2000)] instPowNat

namespace Finite64

/-- The power of ten of the leading digit of a non-zero value. -/
def leadingExponent (m : Finite64) : Int :=
  (digitCount (m.units * 10 ^ (400 : Nat) / one) : Int) - 401

/-- The value in units of `10 ^ exponent`, as a quotient. -/
def inGrid (m : Finite64) (exponent : Int) : Nat × Nat :=
  match exponent with
  | .ofNat e => (m.units, one * 10 ^ e)
  | .negSucc e => (m.units * 10 ^ (e + 1), one)

/-- The two neighbours of the value among the multiples of `10 ^ exponent`, the nearer one
first; of two equally near ones the even one is first. -/
def neighbours (m : Finite64) (exponent : Int) : List Decimal :=
  let (num, den) := m.inGrid exponent
  let below := num / den
  if roundHalfEven num den = below then [⟨below, exponent⟩, ⟨below + 1, exponent⟩]
  else [⟨below + 1, exponent⟩, ⟨below, exponent⟩]

/-- The decimal with `count` digits that reads back as the value, if there is one. -/
def shortestAt? (m : Finite64) (count : Nat) : Option Decimal :=
  (m.neighbours (m.leadingExponent - count + 1)).find? (·.magnitude = .finite m)

/-- The exact decimal expansion of the value, which reads back in any case. -/
def exact (m : Finite64) : Decimal := ⟨m.units * 5 ^ (1074 : Nat), -1074⟩

/-- The decimal with the fewest digits that reads back as the value; 17 digits suffice. -/
def shortest (m : Finite64) : Decimal :=
  if m.significand = 0 then ⟨0, 0⟩
  else (((List.range' 1 17).findSome? m.shortestAt?).getD m.exact).dropZeros 20

end Finite64

end RoleFlow
