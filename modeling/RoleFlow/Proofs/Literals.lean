import Mathlib.Data.Rat.Floor
import Mathlib.Tactic.FieldSimp
import RoleFlow.Proofs.JsonLiterals
import RoleFlow.Proofs.Parsing
import RoleFlow.Proofs.Phrases

/-!
# Literals are tokens that read back

A text in quotes is scanned as one token whatever comes after it, and its value is the text. A
finite number without a sign is written as one number token. What the token denotes is the number
itself if that is whole, and otherwise the number that is shown, which is close enough to be read as
it.

Main definitions:
* `Decimal.value`, `Finite64.value`: decimals and doubles as rational numbers.
* `Denotes`: the rational number that a text of digits stands for.

Results:
* `scan_quoteText`: texts are scanned and read as what they were written for.
* `Denotes.unique`: no text denotes two numbers.
* `literal_denotes`: numbers are scanned as what they were written for, and what their texts denote.
-/

namespace RoleFlow

/-! ## Texts -/

/-- A text in quotes is the first token, whatever comes after it, and its value is the text. -/
theorem scan_quoteText (value : String) (rest : List Char) :
    let token : Token := ⟨.text, (quoteText value).toList, 0, (quoteText value).length⟩
    (scan (token.chars ++ rest)).tokens = token :: (scanFrom rest token.stop).1 ∧
      String.ofList (unescape token.chars) = value := by
  have hends : EndsToken .text rest := trivial
  have hscan := Piece.scanFrom_lexeme (isLexeme_quoteText value) hends 0
  rw [Nat.zero_add, String.length_toList] at hscan
  dsimp only
  exact ⟨by rw [scan, hscan], unescape_quoteText value⟩

-- the quote and the backslash that follow do not take part in it
example : (scan "\"\\\\\"\"\\".toList).tokens.map (·.chars) = ["\"\\\\\"".toList] := by
  decide +kernel

/-! ## Numbers -/

namespace Decimal

/-- The rational number that the decimal is. -/
def value (d : Decimal) : ℚ := d.digits * 10 ^ d.exponent

theorem value_withZeros (d : Decimal) (count : Nat) : (d.withZeros count).value = d.value := by
  have hpow : (10 : ℚ) ^ count ≠ 0 := pow_ne_zero count (by decide)
  rw [value, value, withZeros, Nat.cast_mul, Nat.cast_pow, zpow_sub₀ (by decide), zpow_natCast]
  field_simp
  norm_num

end Decimal

namespace Finite64

variable {m : Finite64}

/-- The rational number that the double is. -/
def value (m : Finite64) : ℚ := m.units / one

theorem one_units_ne_zero : one ≠ 0 := (Nat.two_pow_pos 1074).ne'

theorem isInt_value (m : Finite64) : m.value.isInt = m.isIntegral := by
  rw [Bool.eq_iff_iff, Rat.isInt, beq_iff_eq, value,
    Rat.den_div_natCast_eq_one_iff _ _ one_units_ne_zero, isIntegral, beq_iff_eq,
    Nat.dvd_iff_mod_eq_zero]

theorem value_of_isIntegral (h : m.isIntegral = true) :
    (⟨m.floor, 0⟩ : Decimal).value = m.value := by
  have hone : (one : ℚ) ≠ 0 := Nat.cast_ne_zero.mpr one_units_ne_zero
  rw [Decimal.value, zpow_zero, mul_one, value, eq_div_iff hone, ← Nat.cast_mul, floor_mul_one h]

end Finite64

open Json (fractionText powerText isDigit_eq)
open Grammar (IsExpression)

/-- The text stands for the number: digits, perhaps a point and more digits, perhaps a power of
ten. -/
def Denotes (chars : List Char) (q : ℚ) : Prop :=
  ∃ whole fraction power, whole ≠ [] ∧ (∀ c ∈ whole, c.isDigit = true) ∧
    (∀ c ∈ fraction, c.isDigit = true) ∧
    chars = whole ++ (fractionText fraction ++ powerText power) ∧
    (Decimal.ofParts whole fraction (power.getD 0)).value = q

/-- What stands for a number falls into its parts in one way. -/
theorem parts_of_numberText {whole fraction : List Char} (power : Option Int)
    (hwhole : ∀ c ∈ whole, c.isDigit = true) (hfraction : ∀ c ∈ fraction, c.isDigit = true) :
    let chars := whole ++ (fractionText fraction ++ powerText power)
    chars.takeWhile Char.isDigit = whole ∧
      Json.splitFraction (chars.dropWhile Char.isDigit) = (fraction, powerText power) ∧
      splitExponent (powerText power) = (power, []) := by
  have hends : Json.Ends [] := by simp [Json.Ends]
  obtain ⟨hdigit, hpoint⟩ := Json.head_powerText power hends
  have hpower := Json.splitExponent_powerText power hends
  rw [List.append_nil] at hdigit hpoint hpower
  obtain ⟨htake, hdrop⟩ :=
    Json.takeWhile_digits hwhole (Json.isDigit_head_fractionText fraction hdigit)
  refine ⟨htake, ?_, hpower⟩
  rw [hdrop]
  exact Json.splitFraction_fractionText hfraction hdigit hpoint

/-- No text denotes two numbers. -/
theorem Denotes.unique {chars : List Char} {q r : ℚ} (hq : Denotes chars q) (hr : Denotes chars r) :
    q = r := by
  obtain ⟨whole, fraction, power, -, hwhole, hfraction, hchars, rfl⟩ := hq
  obtain ⟨whole', fraction', power', -, hwhole', hfraction', hchars', rfl⟩ := hr
  obtain ⟨htake, hsplit, hpower⟩ := parts_of_numberText power hwhole hfraction
  obtain ⟨htake', hsplit', hpower'⟩ := parts_of_numberText power' hwhole' hfraction'
  rw [← hchars] at htake hsplit
  rw [← hchars'] at htake' hsplit'
  obtain rfl : whole = whole' := htake.symm.trans htake'
  obtain ⟨rfl, hsame⟩ := Prod.mk.inj (hsplit.symm.trans hsplit')
  rw [hsame, hpower'] at hpower
  rw [(Prod.mk.inj hpower).1]

theorem Json.Spells.denotes {chars : List Char} {d : Decimal} (h : Json.Spells chars d) :
    Denotes chars d.value := by
  obtain ⟨whole, fraction, power, hwhole, hfraction, -, hchars, count, hvalue⟩ := h
  refine ⟨whole, fraction, power, hwhole.ne_nil, hwhole.isDigit, hfraction, hchars, ?_⟩
  rw [hvalue, Decimal.value_withZeros]

theorem IsNumeral.denotes {chars whole fraction : List Char} (h : IsNumeral chars whole fraction) :
    Denotes chars (Decimal.ofParts whole fraction 0).value := by
  obtain ⟨hne, hwhole, hfraction, hchars⟩ := h
  simp only [isDigit_eq] at hwhole hfraction
  refine ⟨whole, fraction, none, hne, hwhole, hfraction, ?_, rfl⟩
  rw [hchars, powerText, List.append_nil, fractionText]

/-- The text of a finite number denotes the number itself if that is whole, and otherwise what the
shortest digits denote. -/
theorem denotes_literal (m : Finite64) :
    Denotes (⟨false, .finite m⟩ : Double).literal.toList
      (if m.value.isInt then m.value else m.shortest.value) := by
  obtain ⟨whole, fraction, hnumeral, hspells⟩ := literal_spells m
  have hdenotes := hnumeral.denotes
  rw [Finite64.isInt_value]
  split at hspells
  · next hintegral =>
    rwa [if_pos hintegral, ← Finite64.value_of_isIntegral hintegral, ← hspells]
  · next hfraction =>
    obtain ⟨count, hspells⟩ := hspells
    rwa [if_neg hfraction, ← Decimal.value_withZeros _ count, ← hspells]

/-- The number token of the text of a finite number has the number as its value. -/
theorem number_literal (m : Finite64) (start stop : Nat) :
    (⟨.number, (⟨false, .finite m⟩ : Double).literal.toList, start, stop⟩ : Token).number =
      ⟨false, .finite m⟩ := by
  obtain ⟨whole, fraction, hnumeral, hread⟩ := literal_reads_back m
  rw [number_of_isNumeral hnumeral, hread]

theorem scan_of_isNumeral {chars whole fraction : List Char} (h : IsNumeral chars whole fraction) :
    scan chars = ⟨chars, [⟨.number, chars, 0, chars.length⟩], none⟩ := by
  have hends : EndsToken .number [] := fun c hc => by cases hc
  have hnil (position : Nat) : scanFrom [] position = ([], none) := by
    rw [scanFrom]
    rfl
  have hscan := Piece.scanFrom_lexeme (isLexeme_of_isNumeral h) hends 0
  rw [List.append_nil, Nat.zero_add, hnil] at hscan
  rw [scan, hscan]
  rfl

/-- A finite number without a sign is written as a single number token: digits, perhaps with a point
and more digits. What the token denotes is the number itself if that is whole, and otherwise what
the shortest digits denote, as the shown text does. It is read as the number. -/
theorem literal_denotes (m : Finite64) :
    let x : Double := ⟨false, .finite m⟩
    let token : Token := ⟨.number, x.literal.toList, 0, x.literal.length⟩
    (∃ whole fraction, IsNumeral token.chars whole fraction) ∧
      scan token.chars = ⟨token.chars, [token], none⟩ ∧
      Denotes x.shown.toList m.shortest.value ∧
      (∀ q, Denotes token.chars q ↔ q = if m.value.isInt then m.value else m.shortest.value) ∧
      Scan.Takes ((scan token.chars).expression [token]) (.number x) [] := by
  intro x token
  obtain ⟨whole, fraction, hnumeral, -⟩ := literal_spells m
  have hscan : scan token.chars = ⟨token.chars, [token], none⟩ := by
    rw [scan_of_isNumeral hnumeral, String.length_toList]
  have hshown : Denotes x.shown.toList m.shortest.value :=
    Json.Spells.denotes (Json.spells_shown Finite64.digits_shortest)
  have hliteral : Denotes token.chars (if m.value.isInt then m.value else m.shortest.value) :=
    denotes_literal m
  have hread : IsExpression [token] (.number token.number) := .number rfl
  rw [number_literal m] at hread
  refine ⟨⟨whole, fraction, hnumeral⟩, hscan, hshown, fun q => ?_, ?_⟩
  · exact ⟨fun hq => hq.unique hliteral, fun hq => hq ▸ hliteral⟩
  · exact Scan.expression_complete _ (by rw [hscan]) hread (by simp [Scan.Ends])

-- the point of the shortest digits is moved, or all digits are written
example :
    let x : Double := ⟨false, .ofRatio 3 2000000000⟩
    let y : Double := ⟨false, .ofRatio (2 ^ 80) 1⟩
    x.shown = "1.5e-09" ∧ x.literal = "0.0000000015" ∧
      y.shown = "1.2089258196146292e+24" ∧ y.literal = "1208925819614629174706176" := by
  decide +kernel

end RoleFlow
