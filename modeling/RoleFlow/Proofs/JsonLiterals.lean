import RoleFlow.Json.Printer
import RoleFlow.Json.Reader
import RoleFlow.Proofs.Numbers

/-!
# Literals of JSON text

A text is written in ASCII: a character outside it stands there by its code units, a pair of them if
one does not suffice. A number is written with the fewest digits that read back. Each literal is
read as what it was written for, and what follows it is left.

Main definitions:
* `Gives`: what a reader makes of its input.
* `Spells`: a text of digits that denotes a decimal.

Results:
* `gives_readText`: texts, from after the opening quote.
* `gives_readValue_int`, `gives_readValue_float`: numbers.
* `gives_readValue_null`, `gives_readValue_true`, `gives_readValue_false`: words.
-/

namespace RoleFlow

/-- The outcome is a value read from the front, with the rest that is left. -/
def Gives {τ α : Type} {input : List τ} (outcome : Option (Reading α input)) (value : α)
    (rest : List τ) : Prop :=
  ∃ shorter, outcome = some ⟨value, rest, shorter⟩

namespace Json

/-! ## Escapes -/

theorem hexValue?_digitChar : ∀ d < 16, hexValue? (Nat.digitChar d) = some d := by decide

theorem hexDigits_four {n : Nat} (h : n < 65536) :
    hexDigits 4 n = [Nat.digitChar (n / 4096), Nat.digitChar (n / 256 % 16),
      Nat.digitChar (n / 16 % 16), Nat.digitChar (n % 16)] := by
  unfold hexDigits
  rw [Nat.toDigits_eq_if (by decide)]
  split
  · next h1 =>
    simp [Nat.div_eq_of_lt, h1, Nat.mod_eq_of_lt, show n < 4096 by omega, show n < 256 by omega]
  · rw [Nat.toDigits_eq_if (by decide)]
    split
    · next h1 h2 =>
      have h3 : n / 256 = 0 := by omega
      have h4 : n / 4096 = 0 := by omega
      simp [h3, h4, Nat.mod_eq_of_lt h2]
    · rw [Nat.toDigits_eq_if (by decide)]
      split
      · next h1 h2 h3 =>
        have h4 : n / 4096 = 0 := by omega
        have h5 : n / 256 % 16 = n / 256 := by omega
        simp [Nat.div_div_eq_div_mul, h4, h5]
      · rw [Nat.toDigits_of_lt_base (by omega)]
        simp [Nat.div_div_eq_div_mul]

theorem gives_readUnit {n : Nat} (h : n < 65536) (rest : List Char) :
    Gives (readUnit (hexDigits 4 n ++ rest)) n rest := by
  rw [hexDigits_four h]
  simp only [List.cons_append, List.nil_append, readUnit,
    hexValue?_digitChar (n / 4096) (by omega), hexValue?_digitChar _ (Nat.mod_lt _ (by decide)),
    Option.bind_eq_bind, Option.bind_some]
  refine ⟨by simp only [List.length_cons]; omega, ?_⟩
  congr 2
  omega

theorem gives_readEscape_unit {n : Nat} (h : n < 65536) (hhalf : ¬ (0xD800 ≤ n ∧ n < 0xE000))
    (rest : List Char) :
    Gives (readEscape ('u' :: (hexDigits 4 n ++ rest))) (Char.ofNat n) rest := by
  obtain ⟨hshorter, hunit⟩ := gives_readUnit h rest
  have halone : charOfUnit n = Char.ofNat n := if_neg hhalf
  have hhigh : ¬ (0xD800 ≤ n ∧ n < 0xDC00) := by omega
  refine ⟨Nat.lt_succ_of_lt hshorter, ?_⟩
  simp only [readEscape, hunit, Option.bind_eq_bind, Option.bind_some, if_neg hhigh, halone]

theorem gives_readEscape_pair {high low : Nat} (hhigh : 0xD800 ≤ high ∧ high < 0xDC00)
    (hlow : 0xDC00 ≤ low ∧ low < 0xE000) (rest : List Char) :
    Gives (readEscape ('u' :: (hexDigits 4 high ++ '\\' :: 'u' :: (hexDigits 4 low ++ rest))))
      (charOfPair high low) rest := by
  obtain ⟨hshorter, hunit⟩ :=
    gives_readUnit (n := high) (by omega) ('\\' :: 'u' :: (hexDigits 4 low ++ rest))
  obtain ⟨hshorter', hunit'⟩ := gives_readUnit (n := low) (by omega) rest
  have hlonger := Nat.lt_succ_of_lt (Nat.lt_succ_of_lt hshorter')
  refine ⟨Nat.lt_succ_of_lt (Nat.lt_trans hlonger hshorter), ?_⟩
  simp only [readEscape, hunit, hunit', Option.bind_eq_bind, Option.bind_some, if_pos hhigh,
    if_pos hlow]

theorem gives_readText_nil (rest : List Char) : Gives (readText ('"' :: rest)) [] rest := by
  rw [readText]
  exact ⟨_, rfl⟩

theorem gives_readText_plain {c : Char} {input text rest : List Char} (hquote : c ≠ '"')
    (hslash : c ≠ '\\') (hc : 0x20 ≤ c.toNat) (h : Gives (readText input) text rest) :
    Gives (readText (c :: input)) (c :: text) rest := by
  obtain ⟨hshorter, htext⟩ := h
  rw [readText, if_neg hquote, if_neg hslash, if_neg (by omega), htext]
  exact ⟨Nat.lt_succ_of_lt hshorter, rfl⟩

theorem gives_readText_escape {c : Char} {input middle text rest : List Char}
    (hescape : Gives (readEscape input) c middle) (h : Gives (readText middle) text rest) :
    Gives (readText ('\\' :: input)) (c :: text) rest := by
  obtain ⟨hshorter, hescape⟩ := hescape
  obtain ⟨hshorter', htext⟩ := h
  rw [readText, if_neg (by decide), if_pos rfl, hescape]
  simp only [htext]
  exact ⟨Nat.lt_trans hshorter' (Nat.lt_succ_of_lt hshorter), rfl⟩

/-- The characters that have escapes of their own. -/
def escaped : List Char := ['"', '\\', '\n', '\r', '\t', '\x08', '\x0c']

theorem escapeChar_of_notMem {c : Char} (h : c ∉ escaped) :
    escapeChar c =
      if ' ' ≤ c ∧ c ≤ '~' then [c]
      else (codeUnits c).flatMap fun unit => '\\' :: 'u' :: hexDigits 4 unit := by
  simp only [escaped, List.mem_cons, List.not_mem_nil, or_false, not_or] at h
  obtain ⟨hquote, hslash, hline, hreturn, htab, hback, hfeed⟩ := h
  simp [escapeChar, hquote, hslash, hline, hreturn, htab, hback, hfeed]

theorem toNat_cases (c : Char) :
    c.toNat < 0xD800 ∨ 0xE000 ≤ c.toNat ∧ c.toNat < 0x110000 := by
  have hvalid := c.valid
  rcases hvalid with h | h
  · exact .inl h
  · exact .inr ⟨Nat.succ_le_of_lt h.1, h.2⟩

/-- The two halves that a character outside the first plane is written as make up the character. -/
theorem charOfPair_halves {c : Char} (h : 0x10000 ≤ c.toNat) :
    charOfPair (0xD800 + (c.toNat - 0x10000) / 0x400) (0xDC00 + (c.toNat - 0x10000) % 0x400) =
      c := by
  have hvalue : 0x10000 + (0xD800 + (c.toNat - 0x10000) / 0x400 - 0xD800) * 0x400 +
      (0xDC00 + (c.toNat - 0x10000) % 0x400 - 0xDC00) = c.toNat := by omega
  rw [charOfPair, hvalue, Char.ofNat_toNat]

theorem gives_readText_units {c : Char} {input text rest : List Char}
    (h : Gives (readText input) text rest) :
    Gives (readText (((codeUnits c).flatMap fun unit => '\\' :: 'u' :: hexDigits 4 unit) ++ input))
      (c :: text) rest := by
  have hc := toNat_cases c
  by_cases hbase : c.toNat < 0x10000
  · have hread := gives_readEscape_unit hbase (by omega) input
    rw [Char.ofNat_toNat] at hread
    rw [codeUnits, if_pos hbase, List.flatMap_singleton, List.cons_append, List.cons_append]
    exact gives_readText_escape hread h
  · have hhigh : 0xD800 ≤ 0xD800 + (c.toNat - 0x10000) / 0x400 ∧
        0xD800 + (c.toNat - 0x10000) / 0x400 < 0xDC00 := by omega
    have hlow : 0xDC00 ≤ 0xDC00 + (c.toNat - 0x10000) % 0x400 ∧
        0xDC00 + (c.toNat - 0x10000) % 0x400 < 0xE000 := by omega
    have hpair := gives_readEscape_pair hhigh hlow input
    rw [charOfPair_halves (Nat.le_of_not_lt hbase)] at hpair
    rw [codeUnits, if_neg hbase, List.flatMap_cons, List.flatMap_singleton, List.append_assoc,
      List.cons_append, List.cons_append, List.cons_append, List.cons_append]
    exact gives_readText_escape hpair h

theorem gives_readText_escaped {c : Char} {input text rest : List Char} (hc : c ∈ escaped)
    (h : Gives (readText input) text rest) :
    Gives (readText (escapeChar c ++ input)) (c :: text) rest := by
  simp only [escaped, List.mem_cons, List.not_mem_nil, or_false] at hc
  rcases hc with rfl | rfl | rfl | rfl | rfl | rfl | rfl <;>
    exact gives_readText_escape ⟨Nat.lt_add_one _, rfl⟩ h

/-- What a character is written as is read as the character. -/
theorem gives_readText_escapeChar (c : Char) {input text rest : List Char}
    (h : Gives (readText input) text rest) :
    Gives (readText (escapeChar c ++ input)) (c :: text) rest := by
  by_cases hescaped : c ∈ escaped
  · exact gives_readText_escaped hescaped h
  rw [escapeChar_of_notMem hescaped]
  by_cases hprintable : ' ' ≤ c ∧ c ≤ '~'
  · have hquote : c ≠ '"' := fun hc => hescaped (hc ▸ by decide)
    have hslash : c ≠ '\\' := fun hc => hescaped (hc ▸ by decide)
    rw [if_pos hprintable]
    exact gives_readText_plain hquote hslash (Char.le_def.mp hprintable.1) h
  · rw [if_neg hprintable]
    exact gives_readText_units h

/-- A text between quotes is read back, from after the opening quote. -/
theorem gives_readText (text rest : List Char) :
    Gives (readText (text.flatMap escapeChar ++ '"' :: rest)) text rest := by
  induction text with
  | nil => exact gives_readText_nil rest
  | cons c text ih =>
    rw [List.flatMap_cons, List.append_assoc]
    exact gives_readText_escapeChar c ih

/-! ## Numbers -/

/-- The digits of a whole number: no zero stands in front of another digit. -/
structure IsWholeNumber (digits : List Char) : Prop where
  ne_nil : digits ≠ []
  isDigit : ∀ c ∈ digits, c.isDigit = true
  zero : digits.head? = some '0' → digits = ['0']

theorem isWholeNumber_toDigits (n : Nat) : IsWholeNumber (Nat.toDigits 10 n) where
  ne_nil := Nat.toDigits_ne_nil
  isDigit _ hc := Nat.isDigit_of_mem_toDigits (by decide) (by decide) hc
  zero h := by
    by_cases hn : n = 0
    · rw [hn, Nat.toDigits_zero]
    · exact absurd h (head?_toDigits hn)

/-- A fraction behind its point, if there is one. -/
def fractionText (fraction : List Char) : List Char :=
  if fraction = [] then [] else '.' :: fraction

/-- A power of ten behind its letter, if there is one: a sign and at least two digits. -/
def powerText : Option Int → List Char
  | none => []
  | some power =>
    let digits := Nat.toDigits 10 power.natAbs
    'e' :: (if power < 0 then '-' else '+') :: (List.replicate (2 - digits.length) '0' ++ digits)

/-- No number goes on into the text. -/
def Ends (rest : List Char) : Prop := rest.head? ∈ [none, some ',', some '\n']

theorem Ends.head_ne {c : Char} {rest : List Char} (h : Ends (c :: rest)) :
    c.isDigit = false ∧ c ≠ '.' ∧ c ≠ 'e' ∧ c ≠ 'E' := by
  simp only [Ends, List.head?_cons, List.mem_cons, List.not_mem_nil, or_false, Option.some.injEq,
    reduceCtorEq, false_or] at h
  rcases h with rfl | rfl
  · decide
  · decide

theorem Ends.isDigit_head {rest : List Char} (h : Ends rest) :
    ∀ c ∈ rest.head?, c.isDigit = false := by
  intro c hc
  obtain ⟨more, rfl⟩ := List.head?_eq_some_iff.mp hc
  exact h.head_ne.1

theorem takeWhile_digits {digits rest : List Char} (h : ∀ c ∈ digits, c.isDigit = true)
    (hrest : ∀ c ∈ rest.head?, c.isDigit = false) :
    (digits ++ rest).takeWhile Char.isDigit = digits ∧
      (digits ++ rest).dropWhile Char.isDigit = rest := by
  rw [List.takeWhile_append_of_pos h, List.dropWhile_append_of_pos h]
  cases rest with
  | nil => simp
  | cons c rest =>
    have hc : c.isDigit = false := hrest c rfl
    simp [hc]

theorem splitExponent_of_ends {rest : List Char} (h : Ends rest) :
    splitExponent rest = (none, rest) := by
  cases rest with
  | nil => rfl
  | cons c rest =>
    obtain ⟨-, -, he, hE⟩ := h.head_ne
    rw [splitExponent, if_neg (by simp [he, hE])]

theorem splitExponent_signed (sign : Char) {digits rest : List Char}
    (hsign : sign = '-' ∨ sign = '+') (hne : digits ≠ [])
    (hdigits : ∀ c ∈ digits, c.isDigit = true) (hrest : ∀ c ∈ rest.head?, c.isDigit = false) :
    splitExponent ('e' :: sign :: (digits ++ rest)) =
      (some (if sign = '-' then -(natOfDigits digits : Int) else natOfDigits digits), rest) := by
  obtain ⟨htake, hdrop⟩ := takeWhile_digits hdigits hrest
  have hempty : digits.isEmpty = false := by simpa using hne
  simp only [splitExponent, List.head?_cons, Option.some.injEq, true_or, if_true, if_pos hsign,
    List.drop_one, List.tail_cons, htake, hdrop, hempty, Bool.false_eq_true, if_false]

theorem splitExponent_powerText (power : Option Int) {rest : List Char} (h : Ends rest) :
    splitExponent (powerText power ++ rest) = (power, rest) := by
  cases power with
  | none => exact splitExponent_of_ends h
  | some power =>
    let digits := List.replicate (2 - (Nat.toDigits 10 power.natAbs).length) '0' ++
      Nat.toDigits 10 power.natAbs
    have hne : digits ≠ [] := by simp [digits]
    have hdigits : ∀ c ∈ digits, c.isDigit = true := by
      intro c hc
      rcases List.mem_append.mp hc with hc | hc
      · rw [(List.mem_replicate.mp hc).2]
        decide
      · exact (isWholeNumber_toDigits _).isDigit c hc
    have hvalue : natOfDigits digits = power.natAbs := natOfDigits_replicate_append _ _
    by_cases hneg : power < 0
    · have hsplit := splitExponent_signed '-' (.inl rfl) hne hdigits h.isDigit_head
      rw [hvalue, if_pos rfl, show -(power.natAbs : Int) = power by omega] at hsplit
      simp only [powerText, if_pos hneg]
      exact hsplit
    · have hsplit := splitExponent_signed '+' (.inr rfl) hne hdigits h.isDigit_head
      rw [hvalue, if_neg (by decide), show (power.natAbs : Int) = power by omega] at hsplit
      simp only [powerText, if_neg hneg]
      exact hsplit

theorem splitFraction_fractionText {fraction rest : List Char}
    (hfraction : ∀ c ∈ fraction, c.isDigit = true) (hdigit : ∀ c ∈ rest.head?, c.isDigit = false)
    (hpoint : rest.head? ≠ some '.') :
    splitFraction (fractionText fraction ++ rest) = (fraction, rest) := by
  unfold fractionText
  split
  · next hnil =>
    subst hnil
    cases rest with
    | nil => rfl
    | cons c rest =>
      unfold splitFraction
      split
      · next heq =>
        cases heq
        exact absurd rfl hpoint
      · rfl
  · next hne =>
    obtain ⟨htake, hdrop⟩ := takeWhile_digits hfraction hdigit
    have hempty : fraction.isEmpty = false := by simpa using hne
    simp only [splitFraction, List.cons_append, htake, hdrop, hempty, Bool.false_eq_true, if_false]

theorem isDigit_head_fractionText (fraction : List Char) {rest : List Char}
    (hrest : ∀ c ∈ rest.head?, c.isDigit = false) :
    ∀ c ∈ (fractionText fraction ++ rest).head?, c.isDigit = false := by
  unfold fractionText
  split
  · exact hrest
  · intro c hc
    cases hc
    decide

theorem head_powerText (power : Option Int) {rest : List Char} (h : Ends rest) :
    (∀ c ∈ (powerText power ++ rest).head?, c.isDigit = false) ∧
      (powerText power ++ rest).head? ≠ some '.' := by
  cases power with
  | none =>
    refine ⟨h.isDigit_head, fun hpoint => ?_⟩
    obtain ⟨more, rfl⟩ := List.head?_eq_some_iff.mp hpoint
    exact h.head_ne.2.1 rfl
  | some power =>
    refine ⟨fun c hc => ?_, by simp [powerText]⟩
    obtain rfl : c = 'e' := by simpa [powerText] using hc.symm
    decide

/-- The digits of a whole number are taken off, a zero alone. -/
theorem takeWhole_digits {first : Char} {more rest : List Char}
    (h : IsWholeNumber (first :: more)) (hrest : ∀ c ∈ rest.head?, c.isDigit = false) :
    (if first = '0' then [] else (more ++ rest).takeWhile Char.isDigit) = more ∧
      (if first = '0' then more ++ rest else (more ++ rest).dropWhile Char.isDigit) = rest := by
  by_cases hzero : first = '0'
  · have hmore : more = [] := (List.cons.inj (h.zero (by rw [hzero]; rfl))).2
    rw [if_pos hzero, if_pos hzero, hmore]
    exact ⟨rfl, rfl⟩
  · rw [if_neg hzero, if_neg hzero]
    exact takeWhile_digits (fun c hc => h.isDigit c (List.mem_cons_of_mem _ hc)) hrest

/-- A number is read back: its whole digits, its fraction and its power of ten. -/
theorem gives_readUnsigned {whole fraction rest : List Char} {power : Option Int} (negative : Bool)
    (hwhole : IsWholeNumber whole) (hfraction : ∀ c ∈ fraction, c.isDigit = true)
    (hsize : fraction = [] → power = none → whole.length ≤ maxIntDigits) (h : Ends rest) :
    Gives (readUnsigned negative (whole ++ (fractionText fraction ++ (powerText power ++ rest))))
      (if fraction = [] ∧ power = none then
        .int (if negative then -(natOfDigits whole : Int) else natOfDigits whole)
      else .float ⟨negative, (Decimal.ofParts whole fraction (power.getD 0)).magnitude⟩) rest := by
  obtain ⟨hdigit, hpoint⟩ := head_powerText power h
  have hpower := splitExponent_powerText power h
  have htail := splitFraction_fractionText hfraction hdigit hpoint
  have hlength : rest.length ≤ (fractionText fraction ++ (powerText power ++ rest)).length := by
    rw [List.length_append, List.length_append]
    omega
  generalize powerText power ++ rest = afterFraction at *
  have hafter := isDigit_head_fractionText fraction hdigit
  generalize fractionText fraction ++ afterFraction = afterWhole at *
  cases whole with
  | nil => exact absurd rfl hwhole.ne_nil
  | cons first more =>
    have hfirst : first.isDigit = true := hwhole.isDigit first List.mem_cons_self
    obtain ⟨hdigits, hrest⟩ := takeWhole_digits hwhole hafter
    refine ⟨?_, ?_⟩
    · rw [List.length_append, List.length_cons]
      omega
    · simp only [List.cons_append, readUnsigned, hfirst, if_true, hdigits, hrest, htail, hpower]
      by_cases hint : fraction = [] ∧ power = none
      · obtain ⟨rfl, rfl⟩ := hint
        simpa using hsize rfl rfl
      · have hfloat : (fraction.isEmpty && power.isNone) = false :=
          Bool.eq_false_iff.mpr fun h => hint (by simpa using h)
        simp [hfloat, hint]

/-! ## Spellings of numbers -/

/-- A text of digits with a fraction or a power of ten, that denotes a decimal. -/
def Spells (chars : List Char) (d : Decimal) : Prop :=
  ∃ whole fraction power, IsWholeNumber whole ∧ (∀ c ∈ fraction, c.isDigit = true) ∧
    ¬ (fraction = [] ∧ power = none) ∧
    chars = whole ++ (fractionText fraction ++ powerText power) ∧
    ∃ count, Decimal.ofParts whole fraction (power.getD 0) = d.withZeros count

theorem isDigit_eq (c : Char) : RoleFlow.isDigit c = c.isDigit := by
  simp only [RoleFlow.isDigit, Char.isDigit, Char.le_def]

theorem spells_scientific (d : Decimal) : Spells d.scientific.toList d := by
  have hdigits := isWholeNumber_toDigits d.digits
  have hread := natOfDigits_toDigits d.digits
  unfold Decimal.scientific
  generalize Nat.toDigits 10 d.digits = digits at *
  obtain ⟨first, more, rfl⟩ := List.exists_cons_of_ne_nil hdigits.ne_nil
  refine ⟨[first], more, some (d.exponent + (first :: more).length - 1), ⟨by simp, ?_, ?_⟩,
    fun c hc => hdigits.isDigit c (List.mem_cons_of_mem _ hc), by simp, ?_, ?_⟩
  · intro c hc
    rw [List.mem_singleton.mp hc]
    exact hdigits.isDigit first (by simp)
  · intro hzero
    rw [Option.some.inj hzero]
  · dsimp only
    generalize d.exponent + (first :: more).length - 1 = power
    have hsign : (if power < 0 then "-" else "+").toList = [if power < 0 then '-' else '+'] := by
      split
      · rfl
      · rfl
    cases more with
    | nil => simp [zeros, fractionText, powerText, digitsOf, hsign]
    | cons c more => simp [zeros, fractionText, powerText, digitsOf, hsign]
  · refine ⟨0, ?_⟩
    rw [Decimal.withZeros_zero, Decimal.ofParts, List.singleton_append, hread, Option.getD_some,
      List.length_cons]
    congr 1
    omega

theorem spells_positional {d : Decimal} (h : d.exponent < 0) : Spells d.positional.toList d := by
  obtain ⟨whole, fraction, ⟨hne, hwhole, hfraction, hchars⟩, hread, hnil, hzero⟩ :=
    positional_spells d
  simp only [isDigit_eq] at hwhole hfraction
  have hsome : fraction ≠ [] := fun hf => by
    have := hnil.mp hf
    omega
  refine ⟨whole, fraction, none, ⟨hne, hwhole, hzero fun _ => by omega⟩, hfraction,
    fun hboth => hsome hboth.1, ?_, hread⟩
  rw [hchars, if_neg hsome, fractionText, if_neg hsome, powerText, List.append_nil]

theorem spells_positional_point {d : Decimal} (h : 0 ≤ d.exponent)
    (hd : d.digits = 0 → d.exponent = 0) : Spells (d.positional ++ ".0").toList d := by
  obtain ⟨whole, fraction, ⟨hne, hwhole, -, hchars⟩, hread, hnil, hzero⟩ :=
    positional_spells d
  obtain rfl := hnil.mpr h
  simp only [isDigit_eq] at hwhole
  refine ⟨whole, ['0'], none, ⟨hne, hwhole, hzero fun hdigits => by rw [hd hdigits]⟩, by simp,
    by simp, ?_, ?_⟩
  · rw [String.toList_append, hchars]
    simp [fractionText, powerText]
  · obtain ⟨count, hread⟩ := hread
    rw [Decimal.ofParts, List.append_nil, Decimal.withZeros, Decimal.mk.injEq] at hread
    obtain ⟨hdigits, hexponent⟩ := hread
    have hvalue : natOfDigits (whole ++ ['0']) = natOfDigits whole * 10 := by
      rw [natOfDigits, List.foldl_append]
      show 10 * natOfDigits whole + 0 = _
      omega
    refine ⟨count + 1, ?_⟩
    rw [Decimal.ofParts, hvalue, hdigits, Decimal.withZeros, Nat.pow_succ, Nat.mul_assoc]
    congr 1
    simp only [Option.getD_none, List.length_nil, List.length_singleton] at hexponent ⊢
    omega

/-- A shown decimal is a number of JSON text that reads as the decimal. -/
theorem spells_shown {d : Decimal} (h : d.digits = 0 → d.exponent = 0) :
    Spells d.shown.toList d := by
  unfold Decimal.shown
  dsimp only
  split
  · exact spells_scientific d
  split
  · next hexponent => exact spells_positional_point hexponent h
  · next hexponent => exact spells_positional (by omega)

/-! ## Readers of values -/

theorem readValue_digit {c : Char} (hc : c.isDigit = true) (rest : List Char) :
    readValue (c :: rest) = readUnsigned false (c :: rest) := by
  rw [readValue, if_pos hc]
  · rintro rfl
    exact absurd hc (by decide)
  · rintro rfl
    exact absurd hc (by decide)
  · rintro rfl
    exact absurd hc (by decide)
  · rintro _ rfl
    exact absurd hc (by decide)
  · rintro rfl
    exact absurd hc (by decide)

theorem gives_readValue_negative {c : Char} {input rest : List Char} {json : Json} (hc : c ≠ 'I')
    (h : Gives (readUnsigned true (c :: input)) json rest) :
    Gives (readValue ('-' :: c :: input)) json rest := by
  obtain ⟨hshorter, hread⟩ := h
  rw [readValue, hread]
  · exact ⟨Nat.lt_succ_of_lt hshorter, rfl⟩
  · exact fun more heq => hc (List.cons.inj heq).1

theorem gives_readWord (word : String) (hword : word.length ≠ 0) (value : Json)
    (rest : List Char) : Gives (readWord word value (word.toList ++ rest)) value rest := by
  have hword' : word.toList.isPrefixOf (word.toList ++ rest) = true ∧ word.length ≠ 0 :=
    ⟨List.isPrefixOf_iff_prefix.mpr (List.prefix_append ..), hword⟩
  have hlength : rest.length < (word.toList ++ rest).length := by
    rw [List.length_append, String.length_toList]
    omega
  refine ⟨hlength, ?_⟩
  rw [readWord, dif_pos hword']
  congr 2
  rw [← String.length_toList, List.drop_left]

theorem readValue_word {c : Char} (hc : c ∉ ['"', '[', '\x7b', '-']) (hdigit : c.isDigit = false)
    (rest : List Char) :
    readValue (c :: rest) =
      ((readWord "null" .null (c :: rest)).orElse fun _ =>
      (readWord "true" (.bool true) (c :: rest)).orElse fun _ =>
      (readWord "false" (.bool false) (c :: rest)).orElse fun _ =>
      readWord "Infinity" (.float ⟨false, .infinite⟩) (c :: rest)) := by
  simp only [List.mem_cons, List.not_mem_nil, or_false, not_or] at hc
  obtain ⟨hquote, hbracket, hbrace, hminus⟩ := hc
  rw [readValue, if_neg (by simp [hdigit])]
  · exact hquote
  · exact hbracket
  · exact hbrace
  · exact fun _ h => absurd h hminus
  · exact hminus

theorem readWord_of_head_ne {word : String} {c : Char} (h : word.toList.head? ≠ some c)
    (value : Json) (rest : List Char) : readWord word value (c :: rest) = none := by
  refine dif_neg fun hword => ?_
  obtain ⟨hstart, hlength⟩ := hword
  cases hchars : word.toList with
  | nil => exact hlength (by rw [← String.length_toList, hchars]; rfl)
  | cons first more =>
    rw [hchars, List.isPrefixOf, Bool.and_eq_true, beq_iff_eq] at hstart
    exact h (by rw [hchars, hstart.1]; rfl)

theorem gives_readValue_null (rest : List Char) :
    Gives (readValue ('n' :: 'u' :: 'l' :: 'l' :: rest)) .null rest := by
  obtain ⟨hshorter, hread⟩ :
      Gives (readWord "null" .null ('n' :: 'u' :: 'l' :: 'l' :: rest)) _ rest :=
    gives_readWord "null" (by decide) .null rest
  refine ⟨hshorter, ?_⟩
  rw [readValue_word (by decide) (by decide), hread]
  rfl

theorem gives_readValue_true (rest : List Char) :
    Gives (readValue ('t' :: 'r' :: 'u' :: 'e' :: rest)) (.bool true) rest := by
  obtain ⟨hshorter, hread⟩ :
      Gives (readWord "true" (.bool true) ('t' :: 'r' :: 'u' :: 'e' :: rest)) _ rest :=
    gives_readWord "true" (by decide) (.bool true) rest
  refine ⟨hshorter, ?_⟩
  rw [readValue_word (by decide) (by decide), readWord_of_head_ne (by decide), hread]
  rfl

theorem gives_readValue_false (rest : List Char) :
    Gives (readValue ('f' :: 'a' :: 'l' :: 's' :: 'e' :: rest)) (.bool false) rest := by
  obtain ⟨hshorter, hread⟩ :
      Gives (readWord "false" (.bool false) ('f' :: 'a' :: 'l' :: 's' :: 'e' :: rest)) _ rest :=
    gives_readWord "false" (by decide) (.bool false) rest
  refine ⟨hshorter, ?_⟩
  rw [readValue_word (by decide) (by decide), readWord_of_head_ne (by decide),
    readWord_of_head_ne (by decide), hread]
  rfl

theorem gives_readValue_infinity (rest : List Char) :
    Gives (readValue ("Infinity".toList ++ rest)) (.float ⟨false, .infinite⟩) rest := by
  obtain ⟨hshorter, hread⟩ :=
    gives_readWord "Infinity" (by decide) (.float ⟨false, .infinite⟩) rest
  have hchars : "Infinity".toList = 'I' :: "nfinity".toList := by decide
  rw [hchars, List.cons_append] at *
  refine ⟨hshorter, ?_⟩
  rw [readValue_word (by decide) (by decide), readWord_of_head_ne (by decide),
    readWord_of_head_ne (by decide), readWord_of_head_ne (by decide)]
  exact hread

theorem gives_readValue_negativeInfinity (rest : List Char) :
    Gives (readValue ("-Infinity".toList ++ rest)) (.float ⟨true, .infinite⟩) rest := by
  obtain ⟨hshorter, hread⟩ :=
    gives_readWord "-Infinity" (by decide) (.float ⟨true, .infinite⟩) rest
  have hchars : "-Infinity".toList = '-' :: 'I' :: "nfinity".toList := by decide
  rw [hchars, List.cons_append, List.cons_append] at *
  refine ⟨hshorter, ?_⟩
  rw [readValue]
  exact hread

theorem whole_head {whole : List Char} (h : IsWholeNumber whole) :
    ∃ c more, whole = c :: more ∧ c.isDigit = true := by
  obtain ⟨c, more, rfl⟩ := List.exists_cons_of_ne_nil h.ne_nil
  exact ⟨c, more, rfl, h.isDigit c (by simp)⟩

/-- The sign of a number. -/
def signText (negative : Bool) : List Char := if negative then ['-'] else []

/-- A number with a sign or none is read back. -/
theorem gives_readValue_number {whole fraction rest : List Char} {power : Option Int}
    (negative : Bool) (hwhole : IsWholeNumber whole) (hfraction : ∀ c ∈ fraction, c.isDigit = true)
    (hsize : fraction = [] → power = none → whole.length ≤ maxIntDigits) (h : Ends rest) :
    Gives (readValue (signText negative ++
        (whole ++ (fractionText fraction ++ (powerText power ++ rest)))))
      (if fraction = [] ∧ power = none then
        .int (if negative then -(natOfDigits whole : Int) else natOfDigits whole)
      else .float ⟨negative, (Decimal.ofParts whole fraction (power.getD 0)).magnitude⟩) rest := by
  have hread := gives_readUnsigned negative hwhole hfraction hsize h
  obtain ⟨c, more, rfl, hc⟩ := whole_head hwhole
  rw [List.cons_append] at *
  cases negative with
  | true =>
    have hI : c ≠ 'I' := by
      rintro rfl
      exact absurd hc (by decide)
    exact gives_readValue_negative hI hread
  | false =>
    rw [signText, if_neg (by decide), List.nil_append, readValue_digit hc]
    exact hread

/-- An integer is read back, unless it has too many digits. -/
theorem gives_readValue_int {i : Int} {rest : List Char}
    (hi : (Nat.toDigits 10 i.natAbs).length ≤ maxIntDigits) (h : Ends rest) :
    Gives (readValue ((intText i).toList ++ rest)) (.int i) rest := by
  have hnone : ∀ c ∈ ([] : List Char), c.isDigit = true := by simp
  have hread := gives_readValue_number (decide (i < 0)) (isWholeNumber_toDigits i.natAbs) hnone
    (fun _ (_ : (none : Option Int) = none) => hi) h
  have hchars : (intText i).toList ++ rest = signText (decide (i < 0)) ++
      (Nat.toDigits 10 i.natAbs ++ (fractionText [] ++ (powerText none ++ rest))) := by
    rw [intText]
    split
    · next hneg => simp [hneg, digitsOf, signText, fractionText, powerText]
    · next hneg => simp [hneg, digitsOf, signText, fractionText, powerText]
  have hvalue : (if decide (i < 0) then -(natOfDigits (Nat.toDigits 10 i.natAbs) : Int)
      else natOfDigits (Nat.toDigits 10 i.natAbs)) = i := by
    rw [natOfDigits_toDigits]
    split
    · next hneg =>
      rw [decide_eq_true_eq] at hneg
      omega
    · next hneg =>
      rw [decide_eq_true_eq] at hneg
      omega
  rw [if_pos ⟨rfl, rfl⟩, hvalue] at hread
  rw [hchars]
  exact hread

/-- Every number that is not an integer is read back, an infinite one among them. -/
theorem gives_readValue_float (x : Double) {rest : List Char} (h : Ends rest) :
    Gives (readValue ((floatLiteral x).toList ++ rest)) (.float x) rest := by
  obtain ⟨negative, magnitude⟩ := x
  cases magnitude with
  | infinite =>
    cases negative with
    | true => exact gives_readValue_negativeInfinity rest
    | false => exact gives_readValue_infinity rest
  | finite m =>
    obtain ⟨whole, fraction, power, hwhole, hfraction, hfloat, hchars, count, hvalue⟩ :=
      spells_shown (d := m.shortest) Finite64.digits_shortest
    have hread := gives_readValue_number negative hwhole hfraction
      (fun hf hp => absurd ⟨hf, hp⟩ hfloat) h
    rw [if_neg hfloat, hvalue, Decimal.magnitude_withZeros, Finite64.magnitude_shortest_eq] at hread
    have htext : (floatLiteral ⟨negative, .finite m⟩).toList ++ rest =
        signText negative ++
          (whole ++ (fractionText fraction ++ (powerText power ++ rest))) := by
      rw [← List.append_assoc (fractionText fraction), ← List.append_assoc whole, ← hchars,
        ← List.append_assoc]
      show (Double.shown ⟨negative, .finite m⟩).toList ++ rest = _
      cases negative with
      | true => simp [Double.shown, signText]
      | false => simp [Double.shown, signText]
    rw [htext]
    exact hread

end Json

end RoleFlow
