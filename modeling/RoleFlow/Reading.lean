/-!
# Reading from the front of a list

What a reader returns carries the proof that it took something, so readers that call each
other end without a bound being counted down.
-/

namespace RoleFlow

/-- A value read from the front of `input`, and the members after it, which are fewer. -/
structure Reading {τ : Type} (α : Type) (input : List τ) where
  value : α
  rest : List τ
  shorter : rest.length < input.length

namespace Reading

variable {τ α β : Type} {input : List τ}

/-- The same reading with its value changed. -/
def map (f : α → β) (r : Reading α input) : Reading β input := ⟨f r.value, r.rest, r.shorter⟩

/-- A reading of a shorter list as a reading of a longer one. -/
def ofShorter {tail : List τ} (h : tail.length ≤ input.length) (r : Reading α tail) :
    Reading α input :=
  ⟨r.value, r.rest, Nat.lt_of_lt_of_le r.shorter h⟩

theorem shorter_cons (r : Reading α input) (x : τ) : r.rest.length < (x :: input).length :=
  Nat.lt_succ_of_lt r.shorter

end Reading

theorem length_dropWhile_le {τ : Type} (p : τ → Bool) (xs : List τ) :
    (xs.dropWhile p).length ≤ xs.length :=
  (List.dropWhile_sublist p).length_le

end RoleFlow
