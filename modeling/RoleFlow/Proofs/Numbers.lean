import Mathlib.Data.Nat.Log
import Mathlib.Tactic.Ring
import RoleFlow.Number.Spelling
import RoleFlow.Source.Lexer

/-!
# Written numbers read back

A finite double is written as a decimal that denotes it or whose nearest double it is, and
trailing zeros, leading zeros and the place of the point do not change what a decimal denotes.

Results:
* `ofRatio_of_units`: a quotient that is a double is read as that double.
* `magnitude_mul_pow`: zeros at the end of the digits count in the exponent.
* `magnitude_shortest`: the shortest digits read back.
* `literal_spells`: what the text of a finite number denotes.
* `literal_reads_back`: that text reads back.
-/

namespace RoleFlow

/-! ## Rounding -/

theorem roundHalfEven_mul_left {k num den : Nat} (hk : 0 < k) :
    roundHalfEven (k * num) (k * den) = roundHalfEven num den := by
  unfold roundHalfEven
  simp only [Nat.mul_div_mul_left num den hk, Nat.mul_mod_mul_left]
  have hleft : 2 * (k * (num % den)) < k * den ↔ 2 * (num % den) < den := by
    rw [Nat.mul_left_comm, Nat.mul_lt_mul_left hk]
  have hright : k * den < 2 * (k * (num % den)) ↔ den < 2 * (num % den) := by
    rw [Nat.mul_left_comm, Nat.mul_lt_mul_left hk]
  simp only [hleft, hright]

theorem roundHalfEven_of_dvd {num den : Nat} (hden : 0 < den) :
    roundHalfEven (den * num) den = num := by
  have hquotient : den * num / den = num := Nat.mul_div_cancel_left num hden
  simp [roundHalfEven, hquotient, hden]

namespace Magnitude

theorem ofParts_finite (m : Finite64) : ofParts m.significand m.scale = .finite m :=
  dif_pos ⟨m.significand_lt, m.normal, m.scale_le⟩

theorem log2_units (m : Finite64) : Nat.log2 m.units - 52 = m.scale := by
  by_cases hzero : m.significand < 2 ^ 52
  · have hscale : m.scale = 0 := m.normal.resolve_right (by omega)
    have hunits : m.units = m.significand := by rw [Finite64.units, hscale, pow_zero, mul_one]
    by_cases hnil : m.significand = 0
    · rw [hunits, hscale, hnil]
      decide
    · have := (Nat.log2_lt hnil).mpr hzero
      rw [hunits, hscale]
      omega
  · have hpos : m.units ≠ 0 := by
      unfold Finite64.units
      have := Nat.two_pow_pos m.scale
      intro h
      rcases Nat.mul_eq_zero.mp h with h | h <;> omega
    have hlog : Nat.log2 m.units = m.scale + 52 := by
      rw [Nat.log2_eq_iff hpos]
      have := m.significand_lt
      constructor
      · calc 2 ^ (m.scale + 52) = 2 ^ 52 * 2 ^ m.scale := by ring
          _ ≤ m.significand * 2 ^ m.scale := Nat.mul_le_mul_right _ (by omega)
      · calc m.significand * 2 ^ m.scale < 2 ^ 53 * 2 ^ m.scale :=
              Nat.mul_lt_mul_of_pos_right this (Nat.two_pow_pos _)
          _ = 2 ^ (m.scale + 52 + 1) := by ring
    omega

/-- A quotient that is a double is read as that double. -/
theorem ofRatio_of_units {m : Finite64} {num den : Nat} (hden : 0 < den)
    (h : num * Finite64.one = den * m.units) : ofRatio num den = .finite m := by
  unfold ofRatio
  simp only [h, Nat.mul_div_cancel_left m.units hden, log2_units]
  have hround : roundHalfEven (den * m.units) (den * 2 ^ m.scale) = m.significand := by
    rw [roundHalfEven_mul_left hden, Finite64.units, Nat.mul_comm]
    exact roundHalfEven_of_dvd (Nat.two_pow_pos _)
  rw [hround, ofParts_finite]

theorem ofRatio_mul_left {k num den : Nat} (hk : 0 < k) :
    ofRatio (k * num) (k * den) = ofRatio num den := by
  unfold ofRatio
  simp only [Nat.mul_assoc k, Nat.mul_div_mul_left _ den hk, roundHalfEven_mul_left hk]

end Magnitude

/-! ## Decimals -/

theorem natOfDigits_eq (digits : List Char) : natOfDigits digits = Nat.ofDigitChars 10 digits 0 :=
  rfl

theorem digitCount_le_iff {n k : Nat} (hk : 0 < k) : digitCount n ≤ k ↔ n < 10 ^ k :=
  Nat.length_toDigits_le_iff (by decide) hk

theorem digitCount_mul_ten {n : Nat} (h : n ≠ 0) : digitCount (10 * n) = digitCount n + 1 := by
  have hdigits : Nat.toDigits 10 n ++ Nat.toDigits 10 0 = Nat.toDigits 10 (10 * n + 0) :=
    Nat.toDigits_append_toDigits (by decide) (Nat.pos_of_ne_zero h) (by decide)
  unfold digitCount
  rw [← Nat.add_zero (10 * n), ← hdigits, List.length_append, Nat.toDigits_zero]
  rfl

namespace Finite64

theorem units_lt (m : Finite64) : m.units < 2 ^ 1024 * one := by
  calc m.units < 2 ^ 53 * 2 ^ m.scale :=
        Nat.mul_lt_mul_of_pos_right m.significand_lt (Nat.two_pow_pos _)
    _ ≤ 2 ^ 53 * 2 ^ 2045 := Nat.mul_le_mul_left _ (Nat.pow_le_pow_right (by decide) m.scale_le)
    _ = 2 ^ 1024 * one := by rw [one, ← Nat.pow_add, ← Nat.pow_add]

theorem one_le : one ≤ 10 ^ 358 := by
  calc one = (2 ^ 3) ^ 358 := by rw [one, ← Nat.pow_mul]
    _ ≤ 10 ^ 358 := Nat.pow_le_pow_left (by decide) 358

theorem two_pow_1024_lt : 2 ^ 1024 < 10 ^ 400 := by
  calc 2 ^ 1024 = (2 ^ 8) ^ 128 := by rw [← Nat.pow_mul]
    _ < (10 ^ 3) ^ 128 := Nat.pow_lt_pow_left (by decide) (by decide)
    _ ≤ 10 ^ 400 := by rw [← Nat.pow_mul]; exact Nat.pow_le_pow_right (by decide) (by decide)

end Finite64

namespace Decimal

theorem magnitude_of_top {a : Nat} {exponent : Int} (ha : a ≠ 0) :
    (digitCount a : Int) + exponent ≤ 400 → -400 ≤ (digitCount a : Int) + exponent →
      (⟨a, exponent⟩ : Decimal).magnitude =
        match exponent with
        | .ofNat e => .ofRatio (a * 10 ^ e) 1
        | .negSucc e => .ofRatio a (10 ^ (e + 1)) := by
  intro hupper hlower
  have htop : ¬ 400 < (digitCount a : Int) + exponent := by omega
  have hbottom : ¬ (digitCount a : Int) + exponent < -400 := by omega
  cases exponent with
  | ofNat e => exact (if_neg ha).trans ((if_neg htop).trans (if_neg hbottom))
  | negSucc e => exact (if_neg ha).trans ((if_neg htop).trans (if_neg hbottom))

theorem magnitude_of_nonneg {a e : Nat} (ha : a ≠ 0) (hupper : a * 10 ^ e < 10 ^ 400) :
    (⟨a, .ofNat e⟩ : Decimal).magnitude = .ofRatio (a * 10 ^ e) 1 := by
  have he : e < 400 := by
    have : 10 ^ e ≤ a * 10 ^ e := Nat.le_mul_of_pos_left _ (Nat.pos_of_ne_zero ha)
    exact (Nat.pow_lt_pow_iff_right (by decide)).mp (Nat.lt_of_le_of_lt this hupper)
  have hdigits : digitCount a ≤ 400 - e := by
    rw [digitCount_le_iff (by omega)]
    refine Nat.lt_of_mul_lt_mul_right (a := 10 ^ e) ?_
    rw [← Nat.pow_add, Nat.sub_add_cancel (Nat.le_of_lt he)]
    exact hupper
  have hint : Int.ofNat e = (e : Int) := rfl
  rw [magnitude_of_top ha (by omega) (by omega)]

theorem magnitude_of_neg {a e : Nat} (ha : a ≠ 0) (hupper : a < 10 ^ (400 + (e + 1)))
    (hlower : 10 ^ (e + 1) ≤ a * 10 ^ 400) :
    (⟨a, .negSucc e⟩ : Decimal).magnitude = .ofRatio a (10 ^ (e + 1)) := by
  have hmost : digitCount a ≤ 400 + (e + 1) := (digitCount_le_iff (by omega)).mpr hupper
  have hleast : e + 1 ≤ digitCount a + 400 := by
    by_contra hless
    have hfew : a < 10 ^ (e + 1 - 400) := by
      have hown : a < 10 ^ digitCount a :=
        (digitCount_le_iff Nat.length_toDigits_pos).mp (Nat.le_refl _)
      refine Nat.lt_of_lt_of_le hown ?_
      exact Nat.pow_le_pow_right (by decide) (by omega)
    have : a * 10 ^ 400 < 10 ^ (e + 1 - 400) * 10 ^ 400 :=
      Nat.mul_lt_mul_of_pos_right hfew (Nat.pow_pos (by decide))
    rw [← Nat.pow_add, Nat.sub_add_cancel (by omega)] at this
    omega
  have hint : Int.negSucc e = -((e : Int) + 1) := rfl
  rw [magnitude_of_top ha (by omega) (by omega)]

theorem eq_zero_of_units {m : Finite64} (h : m.units = 0) : m = .zero := by
  obtain ⟨significand, scale, hlt, hnormal, hscale⟩ := m
  rcases Nat.mul_eq_zero.mp h with hzero | hpow
  · subst hzero
    have : scale = 0 := hnormal.resolve_right (by decide)
    subst this
    rfl
  · exact absurd hpow (Nat.two_pow_pos scale).ne'

/-- A decimal that denotes a double is read as it, if it has no fraction. -/
theorem magnitude_of_units {m : Finite64} {a : Nat} (h : a * Finite64.one = m.units) :
    (⟨a, 0⟩ : Decimal).magnitude = .finite m := by
  by_cases ha : a = 0
  · rw [ha, Nat.zero_mul] at h
    rw [ha, eq_zero_of_units h.symm]
    rfl
  · have hupper : a * 10 ^ 0 < 10 ^ 400 := by
      have hunits : a * Finite64.one < 2 ^ 1024 * Finite64.one := by
        rw [h]
        exact m.units_lt
      rw [Nat.pow_zero, Nat.mul_one]
      exact Nat.lt_trans (Nat.lt_of_mul_lt_mul_right hunits) Finite64.two_pow_1024_lt
    rw [show (0 : Int) = .ofNat 0 from rfl, magnitude_of_nonneg ha hupper]
    refine Magnitude.ofRatio_of_units Nat.one_pos ?_
    rw [Nat.pow_zero, Nat.mul_one, Nat.one_mul, h]

/-- A decimal that denotes a double is read as it. -/
theorem magnitude_of_units_mul {m : Finite64} {a e : Nat} (hm : m.units ≠ 0)
    (h : a * Finite64.one = m.units * 10 ^ (e + 1)) :
    (⟨a, .negSucc e⟩ : Decimal).magnitude = .finite m := by
  have hpow : 0 < 10 ^ (e + 1) := Nat.pow_pos (by decide)
  have ha : a ≠ 0 := by
    rintro rfl
    rw [Nat.zero_mul] at h
    rcases Nat.mul_eq_zero.mp h.symm with hzero | hzero
    · exact hm hzero
    · omega
  have hupper : a < 10 ^ (400 + (e + 1)) := by
    have hunits : a * Finite64.one < 2 ^ 1024 * 10 ^ (e + 1) * Finite64.one := by
      rw [h, Nat.mul_right_comm]
      exact Nat.mul_lt_mul_of_pos_right m.units_lt hpow
    refine Nat.lt_trans (Nat.lt_of_mul_lt_mul_right hunits) ?_
    rw [Nat.pow_add 10 400 (e + 1)]
    exact Nat.mul_lt_mul_of_pos_right Finite64.two_pow_1024_lt hpow
  have hlower : 10 ^ (e + 1) ≤ a * 10 ^ 400 := by
    calc 10 ^ (e + 1) ≤ m.units * 10 ^ (e + 1) :=
          Nat.le_mul_of_pos_left _ (Nat.pos_of_ne_zero hm)
      _ = a * Finite64.one := h.symm
      _ ≤ a * 10 ^ 358 := Nat.mul_le_mul_left a Finite64.one_le
      _ ≤ a * 10 ^ 400 := Nat.mul_le_mul_left a (Nat.pow_le_pow_right (by decide) (by decide))
  rw [magnitude_of_neg ha hupper hlower]
  refine Magnitude.ofRatio_of_units hpow ?_
  rw [h, Nat.mul_comm]

theorem magnitude_mul_ten {a : Nat} (ha : a ≠ 0) (e : Int) :
    (⟨10 * a, e⟩ : Decimal).magnitude = (⟨a, e + 1⟩ : Decimal).magnitude := by
  have hten : 10 * a ≠ 0 := by omega
  have htop : (digitCount (10 * a) : Int) + e = (digitCount a : Int) + (e + 1) := by
    rw [digitCount_mul_ten ha]
    omega
  unfold magnitude
  simp only [htop]
  rw [if_neg hten, if_neg ha]
  refine if_congr Iff.rfl rfl (if_congr Iff.rfl rfl ?_)
  cases e with
  | ofNat k =>
    show Magnitude.ofRatio (10 * a * 10 ^ k) 1 = .ofRatio (a * 10 ^ (k + 1)) 1
    rw [Nat.pow_succ, Nat.mul_comm 10 a, Nat.mul_assoc, Nat.mul_comm 10]
  | negSucc k =>
    cases k with
    | zero =>
      show Magnitude.ofRatio (10 * a) (10 * 1) = .ofRatio (a * 10 ^ 0) 1
      rw [Magnitude.ofRatio_mul_left (by decide), Nat.pow_zero, Nat.mul_one]
    | succ k =>
      show Magnitude.ofRatio (10 * a) (10 ^ (k + 1 + 1)) = .ofRatio a (10 ^ (k + 1))
      rw [Nat.pow_succ 10 (k + 1), Nat.mul_comm _ 10, Magnitude.ofRatio_mul_left (by decide)]

/-- Zeros at the end of the digits count in the exponent. -/
theorem magnitude_mul_pow (a k : Nat) (e : Int) :
    (⟨a * 10 ^ k, e⟩ : Decimal).magnitude = (⟨a, e + k⟩ : Decimal).magnitude := by
  by_cases ha : a = 0
  · rw [ha, Nat.zero_mul]
    rfl
  · induction k generalizing e with
    | zero => rw [Nat.pow_zero, Nat.mul_one, Int.natCast_zero, Int.add_zero]
    | succ k ih =>
      have hne : a * 10 ^ k ≠ 0 := Nat.mul_ne_zero ha (Nat.pow_pos (by decide)).ne'
      rw [show a * 10 ^ (k + 1) = 10 * (a * 10 ^ k) by ring, magnitude_mul_ten hne, ih]
      congr 2
      omega

/-- The same number with zeros put at the end of its digits. -/
def withZeros (d : Decimal) (count : Nat) : Decimal := ⟨d.digits * 10 ^ count, d.exponent - count⟩

theorem magnitude_withZeros (d : Decimal) (count : Nat) :
    (d.withZeros count).magnitude = d.magnitude := by
  rw [withZeros, magnitude_mul_pow, Int.sub_add_cancel]

theorem withZeros_zero (d : Decimal) : d.withZeros 0 = d := by
  rw [withZeros, Nat.pow_zero, Nat.mul_one, Int.natCast_zero, Int.sub_zero]

theorem magnitude_dropZeros (limit : Nat) (d : Decimal) :
    (d.dropZeros limit).magnitude = d.magnitude := by
  induction limit generalizing d with
  | zero => rfl
  | succ limit ih =>
    rw [dropZeros]
    split
    · next h =>
      rw [ih, ← magnitude_mul_ten (by omega)]
      congr 2
      omega
    · rfl

end Decimal

namespace Finite64

theorem magnitude_exact {m : Finite64} (hm : m.units ≠ 0) : m.exact.magnitude = .finite m := by
  refine Decimal.magnitude_of_units_mul hm ?_
  rw [one, Nat.mul_assoc, ← Nat.mul_pow]

theorem magnitude_of_shortestAt? {m : Finite64} {count : Nat} {d : Decimal}
    (h : m.shortestAt? count = some d) : d.magnitude = .finite m := by
  simpa using List.find?_some h

/-- The shortest digits read back. -/
theorem magnitude_shortest {m : Finite64} (hm : m.units ≠ 0) :
    m.shortest.magnitude = .finite m := by
  have hsignificand : m.significand ≠ 0 := by
    intro h
    exact hm (by rw [units, h, Nat.zero_mul])
  rw [shortest, if_neg hsignificand, Decimal.magnitude_dropZeros]
  cases hfound : (List.range' 1 17).findSome? m.shortestAt? with
  | none => exact magnitude_exact hm
  | some d =>
    obtain ⟨count, -, hcount⟩ := List.exists_of_findSome?_eq_some hfound
    exact magnitude_of_shortestAt? hcount

theorem magnitude_shortest_eq (m : Finite64) : m.shortest.magnitude = .finite m := by
  by_cases hm : m.units = 0
  · rw [Decimal.eq_zero_of_units hm]
    rfl
  · exact magnitude_shortest hm

theorem digits_shortest {m : Finite64} (h : m.shortest.digits = 0) : m.shortest.exponent = 0 := by
  have hread := magnitude_shortest_eq m
  rw [Decimal.magnitude, if_pos h] at hread
  obtain rfl : .zero = m := Magnitude.finite.inj hread
  rfl

end Finite64

/-! ## Texts -/

/-- Digits, perhaps with a point and more digits after it. -/
def IsNumeral (chars whole fraction : List Char) : Prop :=
  whole ≠ [] ∧ (∀ c ∈ whole, isDigit c = true) ∧ (∀ c ∈ fraction, isDigit c = true) ∧
    chars = whole ++ (if fraction = [] then [] else '.' :: fraction)

theorem isDigit_of_mem_toDigits {n : Nat} {c : Char} (h : c ∈ Nat.toDigits 10 n) :
    isDigit c = true := by
  have hdigit := Nat.isDigit_of_mem_toDigits (by decide) (by decide) h
  rw [Char.isDigit, Bool.and_eq_true, decide_eq_true_eq, decide_eq_true_eq] at hdigit
  rw [isDigit, Bool.and_eq_true, decide_eq_true_eq, decide_eq_true_eq]
  exact hdigit

theorem natOfDigits_toDigits (n : Nat) : natOfDigits (Nat.toDigits 10 n) = n :=
  Nat.ofDigitChars_ten_toDigits

theorem natOfDigits_replicate_append (k n : Nat) :
    natOfDigits (List.replicate k '0' ++ Nat.toDigits 10 n) = n := by
  rw [natOfDigits_eq, Nat.ofDigitChars_append, Nat.ofDigitChars_replicate_zero, Nat.mul_zero]
  exact natOfDigits_toDigits n

theorem isDigit_of_mem_replicate {k : Nat} {c : Char} (h : c ∈ List.replicate k '0') :
    isDigit c = true := by
  rw [(List.mem_replicate.mp h).2]
  decide

theorem head?_toDigits {n : Nat} (hn : n ≠ 0) : (Nat.toDigits 10 n).head? ≠ some '0' := by
  induction n using Nat.strongRecOn with
  | ind n ih =>
    rw [Nat.toDigits_eq_if (by decide)]
    split
    · simpa [Nat.digitChar_eq_zero] using hn
    · have hfront := ih (n / 10) (by omega) (by omega)
      have hne : Nat.toDigits 10 (n / 10) ≠ [] := Nat.toDigits_ne_nil
      cases hdigits : Nat.toDigits 10 (n / 10) with
      | nil => exact absurd hdigits hne
      | cons c digits =>
        rw [hdigits] at hfront
        exact hfront

/-- Zeros in front are there only to have a digit before the point. -/
theorem take_padded {n e : Nat} {padded : List Char}
    (hpadded : padded = List.replicate (e + 2 - (Nat.toDigits 10 n).length) '0' ++
      Nat.toDigits 10 n)
    (hzero : (padded.take (padded.length - (e + 1))).head? = some '0') :
    padded.take (padded.length - (e + 1)) = ['0'] := by
  have hlength : padded.length = e + 2 - (Nat.toDigits 10 n).length +
      (Nat.toDigits 10 n).length := by
    rw [hpadded, List.length_append, List.length_replicate]
  by_cases hfew : (Nat.toDigits 10 n).length ≤ e + 1
  · obtain ⟨k, hk⟩ : ∃ k, e + 2 - (Nat.toDigits 10 n).length = k + 1 :=
      Nat.exists_eq_succ_of_ne_zero (by omega)
    rw [show padded.length - (e + 1) = 1 by omega, hpadded, hk]
    rfl
  · have hn : n ≠ 0 := by
      rintro rfl
      rw [Nat.toDigits_zero, List.length_singleton] at hfew
      omega
    have hdigits : padded = Nat.toDigits 10 n := by
      rw [hpadded, show e + 2 - (Nat.toDigits 10 n).length = 0 by omega]
      rfl
    rw [List.head?_take, if_neg (by omega), hdigits] at hzero
    exact absurd hzero (head?_toDigits hn)

theorem positional_whole (digits e : Nat) :
    ∃ whole, IsNumeral (⟨digits, e⟩ : Decimal).positional.toList whole [] ∧
      Decimal.ofParts whole [] 0 = (⟨digits, e⟩ : Decimal).withZeros e ∧
      ((digits = 0 → e = 0) → whole.head? = some '0' → whole = ['0']) := by
  refine ⟨Nat.toDigits 10 digits ++ List.replicate e '0', ⟨?_, ?_, by simp, ?_⟩, ?_, ?_⟩
  · simp
  · intro c hc
    rcases List.mem_append.mp hc with h | h
    · exact isDigit_of_mem_toDigits h
    · exact isDigit_of_mem_replicate h
  · simp [Decimal.positional, digitsOf, zeros]
  · have hvalue : natOfDigits (Nat.toDigits 10 digits ++ List.replicate e '0') =
        digits * 10 ^ e := by
      rw [natOfDigits_eq, Nat.ofDigitChars_append, Nat.ofDigitChars_replicate_zero,
        Nat.ofDigitChars_ten_toDigits, Nat.mul_comm]
    rw [Decimal.ofParts, List.append_nil, hvalue, Decimal.withZeros, Int.sub_self]
    rfl
  · intro hnone hzero
    by_cases hdigits : digits = 0
    · rw [hdigits, hnone hdigits, Nat.toDigits_zero]
      rfl
    · rw [List.head?_append, Option.or_eq_some_iff] at hzero
      rcases hzero with hzero | ⟨hnil, -⟩
      · exact absurd hzero (head?_toDigits hdigits)
      · exact absurd (List.head?_eq_none_iff.mp hnil) Nat.toDigits_ne_nil

theorem positional_fraction (digits e : Nat) :
    ∃ whole fraction, IsNumeral (⟨digits, .negSucc e⟩ : Decimal).positional.toList whole fraction ∧
      Decimal.ofParts whole fraction 0 = ⟨digits, .negSucc e⟩ ∧
      fraction ≠ [] ∧ (whole.head? = some '0' → whole = ['0']) := by
  let padded := List.replicate (e + 2 - (Nat.toDigits 10 digits).length) '0' ++
    Nat.toDigits 10 digits
  have hlength : e + 2 ≤ padded.length := by
    simp only [padded, List.length_append, List.length_replicate]
    omega
  have hdigit : ∀ c ∈ padded, isDigit c = true := by
    intro c hc
    rcases List.mem_append.mp hc with h | h
    · exact isDigit_of_mem_replicate h
    · exact isDigit_of_mem_toDigits h
  have hdrop : (padded.drop (padded.length - (e + 1))).length = e + 1 := by
    rw [List.length_drop]
    omega
  have hfraction : padded.drop (padded.length - (e + 1)) ≠ [] := by
    intro hnil
    rw [hnil] at hdrop
    cases hdrop
  refine ⟨padded.take (padded.length - (e + 1)), padded.drop (padded.length - (e + 1)),
    ⟨?_, fun c hc => hdigit c (List.mem_of_mem_take hc),
      fun c hc => hdigit c (List.mem_of_mem_drop hc), ?_⟩, ?_, hfraction, take_padded rfl⟩
  · intro hnil
    have := congrArg List.length hnil
    rw [List.length_take, List.length_nil] at this
    omega
  · rw [if_neg hfraction]
    simp [Decimal.positional, padded]
  · rw [Decimal.ofParts, List.take_append_drop, hdrop, natOfDigits_replicate_append]
    rfl

/-- A decimal in full denotes the decimal, perhaps with zeros at the end. It has a fraction if its
power of ten is negative, and a zero in front of other digits only if it is zero. -/
theorem positional_spells (d : Decimal) :
    ∃ whole fraction, IsNumeral d.positional.toList whole fraction ∧
      (∃ count, Decimal.ofParts whole fraction 0 = d.withZeros count) ∧
      (fraction = [] ↔ 0 ≤ d.exponent) ∧
      ((d.digits = 0 → d.exponent ≤ 0) → whole.head? = some '0' → whole = ['0']) := by
  obtain ⟨digits, exponent⟩ := d
  cases exponent with
  | ofNat e =>
    obtain ⟨whole, hnumeral, hvalue, hzero⟩ := positional_whole digits e
    refine ⟨whole, [], hnumeral, ⟨e, hvalue⟩, iff_of_true rfl (Int.natCast_nonneg e),
      fun hnone => ?_⟩
    exact hzero fun hdigits => Int.ofNat_eq_zero.mp (Int.le_antisymm (hnone hdigits) (by simp))
  | negSucc e =>
    obtain ⟨whole, fraction, hnumeral, hvalue, hfraction, hzero⟩ := positional_fraction digits e
    have hnegative : ¬ 0 ≤ Int.negSucc e := Int.not_le.mpr (Int.negSucc_lt_zero e)
    exact ⟨whole, fraction, hnumeral, ⟨0, hvalue.trans (Decimal.withZeros_zero _).symm⟩,
      iff_of_false hfraction hnegative, fun _ => hzero⟩

theorem floor_mul_one {m : Finite64} (h : m.isIntegral = true) :
    m.floor * Finite64.one = m.units :=
  Nat.div_mul_cancel (Nat.dvd_of_mod_eq_zero (by simpa [Finite64.isIntegral] using h))

/-- The text of a finite number denotes its whole part if the number is whole, and otherwise its
shortest digits. -/
theorem literal_spells (m : Finite64) :
    ∃ whole fraction, IsNumeral (⟨false, .finite m⟩ : Double).literal.toList whole fraction ∧
      if m.isIntegral then Decimal.ofParts whole fraction 0 = ⟨m.floor, 0⟩
      else ∃ count, Decimal.ofParts whole fraction 0 = m.shortest.withZeros count := by
  by_cases hintegral : m.isIntegral = true
  · refine ⟨Nat.toDigits 10 m.floor, [], ⟨Nat.toDigits_ne_nil, ?_, by simp, ?_⟩, ?_⟩
    · exact fun c hc => isDigit_of_mem_toDigits hc
    · simp [Double.literal, hintegral, digitsOf]
    · rw [if_pos hintegral, Decimal.ofParts, List.append_nil, natOfDigits_toDigits]
      rfl
  · obtain ⟨whole, fraction, hnumeral, hvalue, -⟩ := positional_spells m.shortest
    refine ⟨whole, fraction, ?_, by rwa [if_neg hintegral]⟩
    simpa [Double.literal, hintegral] using hnumeral

/-- The text of a finite number reads back. -/
theorem literal_reads_back (m : Finite64) :
    ∃ whole fraction, IsNumeral (⟨false, .finite m⟩ : Double).literal.toList whole fraction ∧
      (Decimal.ofParts whole fraction 0).magnitude = .finite m := by
  obtain ⟨whole, fraction, hnumeral, hvalue⟩ := literal_spells m
  refine ⟨whole, fraction, hnumeral, ?_⟩
  split at hvalue
  · next hintegral =>
    rw [hvalue]
    exact Decimal.magnitude_of_units (floor_mul_one hintegral)
  · obtain ⟨count, hvalue⟩ := hvalue
    rw [hvalue, Decimal.magnitude_withZeros, Finite64.magnitude_shortest_eq]

end RoleFlow
