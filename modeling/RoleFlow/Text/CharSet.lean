/-!
# Sets of characters

A set of characters is given by ranges of code points, both ends included.
-/

namespace RoleFlow

/-- Ranges of code points, each with its first and its last member. -/
abbrev CharSet := List (Nat × Nat)

namespace CharSet

/-- Whether a character lies in one of the ranges. -/
def contains (set : CharSet) (c : Char) : Bool :=
  set.any fun (first, last) => first ≤ c.toNat && c.toNat ≤ last

/-- The range that a character lies in. -/
def rangeOf? (set : CharSet) (c : Char) : Option (Nat × Nat) :=
  set.find? fun (first, last) => first ≤ c.toNat && c.toNat ≤ last

end CharSet

end RoleFlow
