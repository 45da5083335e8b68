import RoleFlow.Proofs.Buffers
import RoleFlow.Proofs.Cuts

/-!
# Bringing a document to its end

Every part can be ended with a few tokens, whatever is due after it. So where parts are due, tokens
that end each of them in turn bring the document to its end. They can be written after the tokens of
any buffer, with spaces before them.

Results:
* `brings_endings`: tokens that end all parts that are due.
* `exists_ending`, `exists_ending_number`: other tokens after those that are taken bring the
  document to its end.
* `exists_document`: a document with some of the tokens of another, and then others.
-/

namespace RoleFlow

variable {k k' k'' more : List Due} {l : Lexeme} {ls ls' : List Lexeme} {t : Token}
  {us rest before : List Token} {a b : List Due × List Token}

theorem exists_of_map_lexeme (h : us.map Token.lexeme = l :: ls) :
    ∃ start stop vs, us = ⟨l.1, l.2, start, stop⟩ :: vs ∧ vs.map Token.lexeme = ls := by
  obtain ⟨t, vs, rfl, rfl, hvs⟩ := List.map_eq_cons_iff.mp h
  exact ⟨t.start, t.stop, vs, rfl, hvs⟩

/-! ## Lexemes that lead from one stack to another -/

/-- Tokens of these kinds and characters lead from `k` to `k'`, whatever comes after them. -/
def Brings (k : List Due) (ls : List Lexeme) (k' : List Due) : Prop :=
  ∀ us rest, us.map Token.lexeme = ls → Leads false (k, us ++ rest) (k', rest)

namespace Brings

theorem nil : Brings k [] k := by
  intro us rest h
  obtain rfl := List.map_eq_nil_iff.mp h
  exact .refl

theorem takes (hkind : (ruleOf k).access = true → l.1 ≠ .word)
    (htakes : (ruleOf k).takes ⟨l.1, l.2, 0, 0⟩ = some more) (h : Brings (more ++ k.tail) ls k') :
    Brings k (l :: ls) k' := by
  intro us rest hus
  obtain ⟨start, stop, vs, rfl, hvs⟩ := exists_of_map_lexeme hus
  refine .head (.takes (by simp) (fun haccess => not_beginsAccess_of_kind (hkind haccess)) ?_)
    (h vs rest hvs)
  exact (takes_of_lexeme (by rfl) k).trans htakes

theorem passes (hnone : (ruleOf k).takes ⟨l.1, l.2, 0, 0⟩ = none)
    (hpasses : (ruleOf k).passes = some more) (h : Brings (more ++ k.tail) (l :: ls) k') :
    Brings k (l :: ls) k' := by
  intro us rest hus
  refine .head (.passes ?_ hpasses) (h us rest hus)
  obtain ⟨start, stop, vs, rfl, -⟩ := exists_of_map_lexeme hus
  rintro u ⟨⟩
  exact (takes_of_lexeme (by rfl) k).trans hnone

theorem append (h : Brings k ls k') (h' : Brings k' ls' k'') : Brings k (ls ++ ls') k'' := by
  intro us rest hus
  obtain ⟨vs, vs', rfl, hvs, hvs'⟩ := List.map_eq_append_iff.mp hus
  rw [List.append_assoc]
  exact (h vs _ hvs).trans (h' vs' rest hvs')

end Brings

/-! ## The tokens that end a part -/

/-- The token of a punctuation mark. -/
def Sign.lexeme (sign : Sign) : Lexeme := (.mark, [sign.char])

/-- Tokens that end a part. -/
def Due.ending : Due → List Lexeme
  | .mark sign => [sign.lexeme]
  | .byWord => [(.word, "by".toList)]
  | .name => [(.word, ['x'])]
  | .text => [(.text, ['"', '"'])]
  | .kind => [(.word, "AI".toList)]
  | .performer => [(.word, "AI".toList)]
  | .type => [(.word, ['x']), (.mark, ['<']), (.word, ['x']), (.mark, ['>'])]
  | .typeArgument => [(.mark, ['<']), (.word, ['x']), (.mark, ['>'])]
  | .typedName =>
    [(.word, ['x']), (.mark, [':']), (.word, ['x']), (.mark, ['<']), (.word, ['x']), (.mark, ['>'])]
  | .names => [(.mark, ['[']), (.mark, [']'])]
  | .list _ closing => [closing.lexeme]
  | .more _ closing => [closing.lexeme]
  | .parenthesized _ => [(.mark, ['(']), (.mark, [')'])]
  | .expression => [(.number, ['0'])]
  | .argument => [(.number, ['0'])]
  | .argumentValue => [(.mark, [':']), (.number, ['0'])]
  | .actionAttributes => [(.mark, ['\x7d'])]
  | .entityAttributes => [(.mark, ['\x7d'])]
  | .roleAttributes => [(.mark, ['\x7d'])]
  | .body => [(.mark, ['\x7d'])]
  | .afterThen => [(.mark, ['\x7d'])]

/-- Every part comes to its end. -/
theorem brings_ending (due : Due) (k : List Due) : Brings (due :: k) due.ending k := by
  have hmark : ∀ (sign : Sign) k, Brings (.mark sign :: k) [sign.lexeme] k := fun sign k =>
    .takes nofun (if_pos (Token.isMark_iff.mpr ⟨rfl, rfl⟩)) .nil
  -- the argument of a type is a type without one, which ends at the mark after it
  have hargument : ∀ k, Brings (.typeArgument :: k) (Due.ending .typeArgument) k := fun k =>
    .takes nofun rfl (.takes nofun rfl (.passes rfl rfl (hmark .greater k)))
  have htype : ∀ k, Brings (.type :: k) (Due.ending .type) k := fun k =>
    .takes nofun rfl (hargument k)
  cases due with
  | mark sign => exact hmark sign k
  | type => exact htype k
  | typeArgument => exact hargument k
  | typedName => exact .takes nofun rfl (.takes nofun rfl (htype k))
  | names => exact .takes nofun rfl (.takes nofun rfl .nil)
  | list item closing => exact .takes nofun (if_pos (Token.isMark_iff.mpr ⟨rfl, rfl⟩)) .nil
  | more item closing => exact .passes (by cases closing <;> rfl) rfl (hmark closing k)
  | parenthesized item => exact .takes nofun rfl (.takes nofun rfl .nil)
  | performer => exact .passes rfl rfl (.takes nofun rfl .nil)
  | expression => exact .takes (by simp) rfl .nil
  | argument => exact .takes (by simp) rfl .nil
  | argumentValue => exact .takes nofun rfl (.takes (by simp) rfl .nil)
  | afterThen => exact .passes rfl rfl (.takes nofun rfl .nil)
  | _ => exact .takes nofun rfl .nil

/-- All parts that are due come to their ends, one after the other. -/
theorem brings_endings (k : List Due) : Brings k (k.flatMap Due.ending) [] := by
  induction k with
  | nil => exact .nil
  | cons due k ih => exact (brings_ending due k).append ih

/-! ## Lexemes that can be written anywhere -/

/-- A lexeme without spaces, slashes and anything but printable characters, which is no point. -/
structure IsPlain (l : Lexeme) : Prop where
  lexeme : IsLexeme l.1 l.2
  chars : ∀ c ∈ l.2, 0x21 ≤ c.toNat ∧ c.toNat ≤ 0x7E ∧ c.toNat ≠ 0x2F
  ne_point : l ≠ (.mark, ['.'])

theorem isPlain_of_isLexeme {kind : TokenKind} {cs : List Char} (h : IsLexeme kind cs)
    (hkind : kind ≠ .text) (hpoint : (kind, cs) ≠ (.mark, ['.'])) : IsPlain (kind, cs) :=
  ⟨h, fun _ hc => toNat_of_isLexeme h hkind hc, hpoint⟩

theorem isPlain_mark {c : Char} (h : isMark c = true) (hpoint : c ≠ '.') : IsPlain (.mark, [c]) :=
  isPlain_of_isLexeme (.mark h) TokenKind.noConfusion fun heq => hpoint (by cases heq; rfl)

theorem isPlain_word {c : Char} {cs : List Char} (h : isLetter c = true)
    (hcs : cs.all isWordChar = true) : IsPlain (.word, c :: cs) :=
  isPlain_of_isLexeme (.word h (List.all_eq_true.mp hcs)) TokenKind.noConfusion nofun

theorem isPlain_digit {c : Char} (h : isDigit c = true) : IsPlain (.number, [c]) :=
  isPlain_of_isLexeme (@IsLexeme.number c [] [] h (by simp) (.inl rfl)) TokenKind.noConfusion nofun

theorem isPlain_emptyText : IsPlain (.text, ['"', '"']) where
  lexeme := @IsLexeme.text [] .nil
  chars := fun c hc => by
    obtain rfl : c = '"' := by simpa using hc
    decide
  ne_point := nofun

theorem isPlain_sign (sign : Sign) : IsPlain sign.lexeme :=
  isPlain_mark (by cases sign <;> decide) sign.char_ne_point

theorem isPlain_ending (due : Due) : ∀ l ∈ due.ending, IsPlain l := by
  cases due <;>
    simp (disch := decide) [Due.ending, isPlain_sign, isPlain_mark, isPlain_word, isPlain_digit,
      isPlain_emptyText]

theorem isPlain_endings (k : List Due) : ∀ l ∈ k.flatMap Due.ending, IsPlain l := by
  intro l hl
  obtain ⟨due, -, hmem⟩ := List.mem_flatMap.mp hl
  exact isPlain_ending due l hmem

/-- The characters of such a lexeme are their own buffer. -/
theorem isPrepared_of_isPlain (h : IsPlain l) : Source.IsPrepared l.2 where
  kept := fun c hc => by
    obtain ⟨hlow, hhigh, -⟩ := h.chars c hc
    obtain ⟨hstray, hblank⟩ := plain_of_toNat hlow hhigh
    exact ⟨hstray, fun htrue => absurd (hblank.symm.trans htrue) (by decide)⟩
  single := by
    refine (List.pairwise_of_forall_mem_list fun c hc _ _ => ?_).isChain
    rintro ⟨rfl, -⟩
    exact absurd (h.chars ' ' hc).1 (by decide)
  commentFree := by
    refine (List.pairwise_of_forall_mem_list fun c hc _ _ => ?_).isChain
    rintro ⟨rfl, -⟩
    exact (h.chars '/' hc).2.2 rfl

/-! ## Where the parts that are due come to their ends -/

theorem not_point_of_endings (h : us.map Token.lexeme = k.flatMap Due.ending) :
    ∀ t ∈ us.head?, ¬ t.isMark '.' = true := by
  intro t ht hpoint
  have hmem : t.lexeme ∈ k.flatMap Due.ending := by
    rw [← h]
    exact List.mem_map_of_mem (List.mem_of_head? ht)
  obtain ⟨hkind, hchars⟩ := Token.isMark_iff.mp hpoint
  exact (isPlain_endings k _ hmem).ne_point (Prod.ext hkind hchars)

theorem leads_endings (h : us.map Token.lexeme = k.flatMap Due.ending) :
    Leads false (k, us) ([], []) := by
  have hends := brings_endings k us [] h
  rwa [List.append_nil] at hends

/-- Other tokens after those that are taken bring the document to its end. -/
theorem exists_ending (h : Leads false a b) (ha : a.2 = before ++ b.2) :
    ∃ ls : List Lexeme, (∀ l ∈ ls, IsPlain l) ∧
      ∀ us, us.map Token.lexeme = ls → Leads false (a.1, before ++ us) ([], []) := by
  obtain ⟨k, -, hother⟩ := exists_detached h ha
  exact ⟨k.flatMap Due.ending, isPlain_endings k, fun us hus =>
    (hother us (.inl (not_point_of_endings hus))).trans (leads_endings hus)⟩

/-- Where a property access might be taken, so might a number, and other tokens after it bring the
document to its end. -/
theorem exists_ending_number (h : Leads false a b) (ha : a.2 = before ++ b.2)
    (haccess : (ruleOf b.1).access = true) :
    ∃ ls : List Lexeme, (∀ l ∈ ls, IsPlain l) ∧ (∃ l ∈ ls.head?, l.1 = .number) ∧
      ∀ us, us.map Token.lexeme = ls → Leads false (a.1, before ++ us) ([], []) := by
  obtain ⟨k, hk, hother⟩ := exists_detached h ha
  have hnumber : (b.1.flatMap Due.ending).head? = some (.number, ['0']) := by
    obtain ⟨k', tokens⟩ := b
    cases k' with
    | nil => cases haccess
    | cons due k' =>
      cases due with
      | expression => rfl
      | argument => rfl
      | _ => cases haccess
  refine ⟨b.1.flatMap Due.ending, isPlain_endings b.1, ⟨_, hnumber, rfl⟩, fun us hus => ?_⟩
  obtain ⟨ls, hls⟩ := List.head?_eq_some_iff.mp hnumber
  obtain ⟨start, stop, vs, rfl, -⟩ := exists_of_map_lexeme (hus.trans hls)
  exact ((hother _ (.inl (not_point_of_endings hus))).trans (leads_number hk rfl vs)).trans
    (leads_endings hus)

/-! ## Documents with the tokens of another, and then others -/

namespace Source

/-- Lexemes with a space before each of them. -/
def spaced (ls : List Lexeme) : List Char := ls.flatMap fun l => ' ' :: l.2

theorem endsToken_spaced (kind : TokenKind) (ls : List Lexeme) : EndsToken kind (spaced ls) := by
  cases ls with
  | nil => cases kind <;> simp [spaced, EndsToken]
  | cons l ls => exact endsToken_space kind _

/-- Lexemes with a space before each of them tile what is written. -/
theorem exists_tiles_spaced (h : ∀ l ∈ ls, IsPlain l) (start : Nat) :
    ∃ us stop, us.map Token.lexeme = ls ∧ Tiles start (spaced ls) us stop [] := by
  induction ls generalizing start with
  | nil => exact ⟨[], start, rfl, .nil⟩
  | cons l ls ih =>
    obtain ⟨hl, hls⟩ := List.forall_mem_cons.mp h
    obtain ⟨us, stop, hus, htiles⟩ := ih hls (start + 1 + l.2.length)
    have hends := endsLexeme_of_endsToken (endsToken_spaced l.1 ls) l.2
    exact ⟨⟨l.1, l.2, start + 1, start + 1 + l.2.length⟩ :: us, stop, congrArg (l :: ·) hus,
      .cons hl.lexeme hends htiles⟩

theorem isPrepared_spaced {front : List Char} (hfront : IsPrepared front)
    (hlast : front.getLast? ≠ some ' ') (h : ∀ l ∈ ls, IsPlain l) :
    IsPrepared (front ++ spaced ls) := by
  induction ls generalizing front with
  | nil =>
    rw [spaced, List.flatMap_nil, List.append_nil]
    exact hfront
  | cons l ls ih =>
    obtain ⟨hl, hls⟩ := List.forall_mem_cons.mp h
    have hhead : l.2.head? ≠ some ' ' := fun hspace =>
      absurd (hl.chars ' ' (List.mem_of_head? hspace)).1 (by decide)
    have hends : (front ++ ' ' :: l.2).getLast? ≠ some ' ' := by
      rw [List.getLast?_append_cons, List.getLast?_cons_of_ne_nil (isLexeme_ne_nil hl.lexeme)]
      exact getLast?_lexeme hl.lexeme
    have hmore := ih (hfront.append_space (isPrepared_of_isPlain hl) hlast hhead) hends hls
    rwa [List.append_assoc] at hmore

/-- Nothing is scanned of what begins with a byte-order mark. -/
theorem head?_of_scanFrom {cs : List Char} {position : Nat} (h : (scanFrom cs position).2 = none) :
    cs.head? ≠ some byteOrderMark := by
  intro hhead
  obtain ⟨rest, rfl⟩ := List.head?_eq_some_iff.mp hhead
  have hfault : scanToken byteOrderMark rest position =
      .fault (.unexpectedCharacter byteOrderMark) position := by
    rw [scanToken, if_neg (by decide), if_neg (by decide), if_neg (by decide), if_neg (by decide)]
  rw [scanFrom, scanNext_of_ne_space (by decide), hfault] at h
  cases h

/-- The first tokens of a buffer, and after them others, are the tokens of a document. -/
theorem exists_document {document : List Char} {before after : List Token}
    (htokens : (scan (buffer document)).tokens = before ++ after) (h : ∀ l ∈ ls, IsPlain l) :
    ∃ other us, us.map Token.lexeme = ls ∧ (scan (buffer other)).tokens = before ++ us ∧
      (scan (buffer other)).error = none := by
  obtain ⟨stop, rest, htiles, -⟩ := exists_tiles (buffer document) 0
  rw [← scan_tokens, htokens] at htiles
  obtain ⟨place, left, hbefore, -⟩ := htiles.split
  obtain ⟨front, hfront, -, hlast, hreplace⟩ := hbefore.replace
  obtain ⟨us, stop', hus, hspaced⟩ := exists_tiles_spaced h place
  have hprepared : IsPrepared front :=
    (isPrepared_buffer document).of_part (hfront ▸ (List.prefix_append front left).isInfix)
  have hscan : scanFrom (front ++ spaced ls) 0 = (before ++ us, none) := by
    have hnil : scanFrom [] stop' = ([], none) := by rw [scanFrom]; rfl
    rw [scanFrom_of_tiles (hreplace _ fun kind => endsToken_spaced kind ls),
      scanFrom_of_tiles hspaced, hnil, List.append_nil]
  have hbuffer : buffer (front ++ spaced ls) = front ++ spaced ls :=
    buffer_of_isPrepared (isPrepared_spaced hprepared hlast h)
      (head?_of_scanFrom (congrArg Prod.snd hscan))
  refine ⟨front ++ spaced ls, us, hus, ?_, ?_⟩
  · rw [hbuffer, scan_tokens, hscan]
  · rw [error_scan_eq_none_iff, hbuffer, hscan]

end Source

end RoleFlow
