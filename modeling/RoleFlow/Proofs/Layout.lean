import Mathlib.Data.List.Chain
import RoleFlow.Source.Buffer
import RoleFlow.Source.Lexer

/-!
# Lexemes with gaps between them

A document that is laid out as lexemes and gaps is scanned as these lexemes. Gaps are blanks and
comments; in the buffer a gap is one space, or nothing at all after another gap, and blanks
inside a lexeme collapse.

Results:
* `tidy_gap`, `becomes_collapseBlanks`: what becomes of gaps and lexemes in the buffer.
* `scanFrom_tidy`: the tokens of a layout are its lexemes, each with its place.
-/

namespace RoleFlow

namespace Source

/-! ## Gaps -/

/-- Blanks and comments, at least one. -/
inductive IsGap : List Char → Prop
  | blank {c : Char} (hblank : isBlank c = true) (hcontrol : isStrayControl c = false) : IsGap [c]
  | comment {cs : List Char} (h : '\n' ∉ cs) : IsGap ('/' :: '/' :: cs ++ ['\n'])
  | append {xs ys : List Char} (hxs : IsGap xs) (hys : IsGap ys) : IsGap (xs ++ ys)

/-- What the buffer holds for a part of a document; `afterBlank` says whether a blank comes
before it. -/
def tidy (afterBlank : Bool) (cs : List Char) : List Char :=
  collapseBlanks afterBlank (dropComments false (cs.filter fun c => !isStrayControl c))

theorem buffer_eq_tidy {document : List Char} (h : document.head? ≠ some byteOrderMark) :
    buffer document = tidy false document := by
  cases document with
  | nil => rfl
  | cons c cs =>
    have hc : c ≠ byteOrderMark := fun heq => h (congrArg some heq)
    rw [buffer, dropMark, if_neg hc]
    rfl

theorem dropComments_cons {c : Char} (h : c ≠ '/') (cs : List Char) :
    dropComments false (c :: cs) = c :: dropComments false cs := by
  rw [dropComments]
  intro rest hslash
  exact absurd hslash h

theorem dropComments_slash {c : Char} (h : c ≠ '/') (cs : List Char) :
    dropComments false ('/' :: c :: cs) = '/' :: dropComments false (c :: cs) := by
  rw [dropComments]
  intro rest _ hslash
  exact absurd (List.cons.inj hslash).1 h

theorem dropComments_comment {cs : List Char} (h : '\n' ∉ cs) (rest : List Char) :
    dropComments true (cs ++ '\n' :: rest) = '\n' :: dropComments false rest := by
  induction cs with
  | nil => rw [List.nil_append, dropComments, if_pos rfl]
  | cons c cs ih =>
    obtain ⟨hc, hcs⟩ := not_or.mp (mt List.mem_cons.mpr h)
    rw [List.cons_append, dropComments, if_neg fun heq => hc heq.symm, ih hcs]

theorem collapseBlanks_blank {c : Char} (h : isBlank c = true) (afterBlank : Bool)
    (cs : List Char) :
    collapseBlanks afterBlank (c :: cs) =
      (if afterBlank then [] else [' ']) ++ collapseBlanks true cs := by
  rw [collapseBlanks, if_pos h]
  cases afterBlank <;> rfl

theorem tidy_gap {gap : List Char} (h : IsGap gap) (afterBlank : Bool) (rest : List Char) :
    tidy afterBlank (gap ++ rest) = (if afterBlank then [] else [' ']) ++ tidy true rest := by
  induction h generalizing afterBlank rest with
  | @blank c hblank hcontrol =>
    have hslash : c ≠ '/' := by
      rintro rfl
      exact absurd hblank (by decide)
    unfold tidy
    rw [List.singleton_append, List.filter_cons_of_pos (by rw [hcontrol]; rfl),
      dropComments_cons hslash, collapseBlanks_blank hblank]
  | @comment cs h =>
    have hfiltered : '\n' ∉ cs.filter fun c => !isStrayControl c :=
      fun hmem => h (List.mem_filter.mp hmem).1
    unfold tidy
    rw [show '/' :: '/' :: cs ++ ['\n'] ++ rest = '/' :: '/' :: (cs ++ '\n' :: rest) by simp,
      List.filter_cons_of_pos (by decide), List.filter_cons_of_pos (by decide),
      List.filter_append, List.filter_cons_of_pos (by decide), dropComments,
      dropComments_comment hfiltered, collapseBlanks_blank (by decide)]
  | append hxs hys ihx ihy =>
    rw [List.append_assoc, ihx, ihy]
    rfl

/-! ## Lexemes -/

/-- Characters that become others in the buffer, whatever stands around them. -/
def Becomes (raw chars : List Char) : Prop :=
  ∀ afterBlank rest, tidy afterBlank (raw ++ rest) = chars ++ tidy false rest

/-- No two slashes stand together. -/
def CommentFree (cs : List Char) : Prop := cs.IsChain fun a b => ¬ (a = '/' ∧ b = '/')

theorem dropComments_append {cs : List Char} (hfree : CommentFree cs)
    (hlast : cs.getLast? ≠ some '/') (rest : List Char) :
    dropComments false (cs ++ rest) = cs ++ dropComments false rest := by
  induction cs with
  | nil => rfl
  | cons c cs ih =>
    cases cs with
    | nil =>
      have hc : c ≠ '/' := fun heq => hlast (congrArg some heq)
      rw [List.singleton_append, dropComments_cons hc, List.singleton_append]
    | cons d ds =>
      obtain ⟨hpair, hchain⟩ := List.isChain_cons_cons.mp hfree
      have hrest := ih hchain (by rwa [List.getLast?_cons_cons] at hlast)
      by_cases hc : c = '/'
      · subst hc
        have hd : d ≠ '/' := fun heq => hpair ⟨rfl, heq⟩
        rw [List.cons_append, List.cons_append, dropComments_slash hd, ← List.cons_append, hrest]
        rfl
      · rw [List.cons_append, dropComments_cons hc, hrest]
        rfl

theorem collapseBlanks_of_head {c : Char} (h : isBlank c = false) (afterBlank : Bool)
    (cs : List Char) : collapseBlanks afterBlank (c :: cs) = c :: collapseBlanks false cs := by
  rw [collapseBlanks, if_neg (by rw [h]; decide)]

theorem collapseBlanks_append_cons {c : Char} (h : isBlank c = false) (afterBlank : Bool)
    (cs rest : List Char) :
    collapseBlanks afterBlank (cs ++ c :: rest) =
      collapseBlanks afterBlank cs ++ c :: collapseBlanks false rest := by
  induction cs generalizing afterBlank with
  | nil => exact collapseBlanks_of_head h afterBlank rest
  | cons d ds ih =>
    rw [List.cons_append, collapseBlanks, collapseBlanks, ih, ih]
    split
    · split <;> rfl
    · rfl

theorem collapseBlanks_append {cs : List Char} (hlast : ∃ c ∈ cs.getLast?, isBlank c = false)
    (afterBlank : Bool) (rest : List Char) :
    collapseBlanks afterBlank (cs ++ rest) =
      collapseBlanks afterBlank cs ++ collapseBlanks false rest := by
  obtain ⟨c, hc, hblank⟩ := hlast
  obtain ⟨ds, rfl⟩ := List.getLast?_eq_some_iff.mp hc
  rw [List.append_assoc, List.singleton_append, collapseBlanks_append_cons hblank,
    collapseBlanks_append_cons hblank]
  simp [collapseBlanks]

/-- Blanks collapse in a part of a document with neither control characters nor comments, with no
blank at either end and no slash at its end. -/
theorem becomes_collapseBlanks {c : Char} {cs : List Char}
    (hkept : ∀ d ∈ c :: cs, isStrayControl d = false) (hfree : CommentFree (c :: cs))
    (hfirst : isBlank c = false)
    (hlast : ∃ d ∈ (c :: cs).getLast?, isBlank d = false ∧ d ≠ '/') :
    Becomes (c :: cs) (collapseBlanks false (c :: cs)) := by
  intro afterBlank rest
  obtain ⟨d, hd, hblank, hslash⟩ := hlast
  have hfilter : ((c :: cs).filter fun d => !isStrayControl d) = c :: cs :=
    List.filter_eq_self.mpr fun d hd => by rw [hkept d hd]; rfl
  have hend : (c :: cs).getLast? ≠ some '/' := by
    intro heq
    rw [Option.mem_def.mp hd] at heq
    exact hslash (Option.some.inj heq)
  unfold tidy
  rw [List.filter_append, hfilter, dropComments_append hfree hend,
    collapseBlanks_append ⟨d, hd, hblank⟩, collapseBlanks_of_head hfirst,
    collapseBlanks_of_head hfirst]

theorem collapseBlanks_of_forall {cs : List Char} (h : ∀ c ∈ cs, isBlank c = false)
    (afterBlank : Bool) : collapseBlanks afterBlank cs = cs := by
  induction cs generalizing afterBlank with
  | nil => rfl
  | cons c cs ih =>
    obtain ⟨hc, hcs⟩ := List.forall_mem_cons.mp h
    rw [collapseBlanks_of_head hc, ih hcs]

/-- Characters of which none is blank, a control character or a slash stay as they are. -/
theorem becomes_self {cs : List Char} (hne : cs ≠ [])
    (h : ∀ c ∈ cs, isStrayControl c = false ∧ isBlank c = false ∧ c ≠ '/') : Becomes cs cs := by
  have hfree : CommentFree cs := by
    refine (List.isChain_isInfix cs).imp fun a b hnext hab => ?_
    exact (h a (hnext.subset (by simp))).2.2 hab.1
  obtain ⟨c, cs, rfl⟩ := List.exists_cons_of_ne_nil hne
  have hlast := h _ (List.getLast_mem hne)
  have hself := becomes_collapseBlanks (fun d hd => (h d hd).1) hfree (h c (by simp)).2.1
    ⟨_, List.getLast?_eq_some_getLast hne, hlast.2⟩
  rwa [collapseBlanks_of_forall fun d hd => (h d hd).2.1] at hself

end Source

/-! ## What scans as one token -/

/-- The characters between the quotes of a text: no quote without a backslash before it, and no
line feed after a backslash. -/
inductive IsQuoted : List Char → Prop
  | nil : IsQuoted []
  | escape {c : Char} {cs : List Char} (hc : c ≠ '\n') (h : IsQuoted cs) :
    IsQuoted ('\\' :: c :: cs)
  | plain {c : Char} {cs : List Char} (hquote : c ≠ '"') (hescape : c ≠ '\\') (h : IsQuoted cs) :
    IsQuoted (c :: cs)

/-- The characters of a token. -/
inductive IsLexeme : TokenKind → List Char → Prop
  | word {c : Char} {cs : List Char} (hc : isLetter c = true)
    (hcs : ∀ d ∈ cs, isWordChar d = true) : IsLexeme .word (c :: cs)
  | number {c : Char} {whole fraction : List Char} (hc : isDigit c = true)
    (hwhole : ∀ d ∈ whole, isDigit d = true)
    (hfraction : fraction = [] ∨
      ∃ digits, fraction = '.' :: digits ∧ ∀ d ∈ digits, isDigit d = true) :
    IsLexeme .number (c :: (whole ++ fraction))
  | text {body : List Char} (h : IsQuoted body) : IsLexeme .text ('"' :: (body ++ ['"']))
  | mark {c : Char} (h : isMark c = true) : IsLexeme .mark [c]

/-- What does not go on with a token of the kind. -/
def EndsToken : TokenKind → List Char → Prop
  | .word, rest => ∀ c ∈ rest.head?, isWordChar c = false
  | .number, rest => ∀ c ∈ rest.head?, isDigit c = false ∧ c ≠ '.'
  | _, _ => True

theorem splitText_of_isQuoted {body : List Char} (h : IsQuoted body) (rest : List Char) :
    splitText (body ++ '"' :: rest) = some (body ++ ['"'], rest) := by
  induction h with
  | nil => rfl
  | escape hc _ ih =>
    rw [List.cons_append, List.cons_append, splitText, if_neg hc, ih]
    rfl
  | plain hquote hescape _ ih =>
    rw [List.cons_append, splitText, ih]
    · rfl
    · exact hquote
    · intro c rest heq
      exact absurd heq hescape
    · intro heq
      exact absurd heq hescape

theorem takeWhile_append_of_head {p : Char → Bool} {xs rest : List Char}
    (hxs : ∀ x ∈ xs, p x = true) (hrest : ∀ c ∈ rest.head?, p c = false) :
    (xs ++ rest).takeWhile p = xs ∧ (xs ++ rest).dropWhile p = rest := by
  rw [List.takeWhile_append_of_pos hxs, List.dropWhile_append_of_pos hxs]
  cases rest with
  | nil => exact ⟨List.append_nil xs, rfl⟩
  | cons c rest =>
    have hc := hrest c rfl
    rw [List.takeWhile_cons_of_neg (by rw [hc]; decide), List.append_nil,
      List.dropWhile_cons_of_neg (by rw [hc]; decide)]
    exact ⟨rfl, rfl⟩

theorem splitNumber_append_of_head {whole fraction rest : List Char}
    (hwhole : ∀ d ∈ whole, isDigit d = true)
    (hfraction : fraction = [] ∨
      ∃ digits, fraction = '.' :: digits ∧ ∀ d ∈ digits, isDigit d = true)
    (hrest : ∀ c ∈ rest.head?, isDigit c = false ∧ c ≠ '.') :
    splitNumber (whole ++ fraction ++ rest) = (whole ++ fraction, rest) := by
  rcases hfraction with rfl | ⟨digits, rfl, hdigits⟩
  · obtain ⟨htake, hdrop⟩ := takeWhile_append_of_head hwhole fun c hc => (hrest c hc).1
    rw [List.append_nil, splitNumber, htake, hdrop]
    split
    · next rest' => exact absurd rfl (hrest '.' rfl).2
    · rfl
  · obtain ⟨htake, hdrop⟩ : (whole ++ '.' :: (digits ++ rest)).takeWhile isDigit = whole ∧
        (whole ++ '.' :: (digits ++ rest)).dropWhile isDigit = '.' :: (digits ++ rest) :=
      takeWhile_append_of_head hwhole fun c hc => by cases hc; decide
    obtain ⟨htake', hdrop'⟩ := takeWhile_append_of_head hdigits fun c hc => (hrest c hc).1
    rw [List.append_assoc, List.cons_append, splitNumber, htake, hdrop]
    simp only [htake', hdrop']

theorem ofSplit_eq {kind : TokenKind} {position : Nat} {first : Char} {cs rest : List Char}
    {more : List Char × List Char} (h : more.1 ++ more.2 = cs ++ rest) (heq : more = (cs, rest)) :
    ∃ hshorter, Scanned.ofSplit kind position first (cs ++ rest) more h =
      .token ⟨kind, first :: cs, position, position + (first :: cs).length⟩ rest hshorter := by
  subst heq
  exact ⟨by simp only [List.length_cons, List.length_append]; omega, rfl⟩

theorem not_isLetter_of_isDigit {c : Char} (h : isDigit c = true) : isLetter c = false := by
  simp only [isDigit, isLetter, Bool.and_eq_true, decide_eq_true_eq, Bool.or_eq_false_iff,
    Bool.and_eq_false_iff, decide_eq_false_iff_not, Char.le_def, UInt32.le_iff_toNat_le,
    Char.reduceVal, UInt32.reduceToNat] at h ⊢
  omega

theorem of_isMark (P : Char → Prop) [DecidablePred P]
    (hall : ("\x7b\x7d()[]<>:;,.".toList.all fun c => decide (P c)) = true) {c : Char}
    (h : isMark c = true) : P c :=
  of_decide_eq_true (List.all_eq_true.mp hall c (List.contains_iff_mem.mp h))

theorem isMark_cases {c : Char} (h : isMark c = true) :
    c ≠ ' ' ∧ isLetter c = false ∧ isDigit c = false ∧ c ≠ '"' :=
  of_isMark (fun c => c ≠ ' ' ∧ isLetter c = false ∧ isDigit c = false ∧ c ≠ '"') (by decide) h

theorem scanNext_lexeme {kind : TokenKind} {cs rest : List Char} (h : IsLexeme kind cs)
    (hrest : EndsToken kind rest) (position : Nat) :
    ∃ hshorter, scanNext (cs ++ rest) position =
      .token ⟨kind, cs, position, position + cs.length⟩ rest hshorter := by
  cases h with
  | @word c cs hc hcs =>
    have hspace : c ≠ ' ' := by
      rintro rfl
      exact absurd hc (by decide)
    obtain ⟨htake, hdrop⟩ := takeWhile_append_of_head hcs hrest
    rw [List.cons_append, scanNext, if_neg hspace, scanToken, if_pos hc]
    exact ofSplit_eq _ (by rw [htake, hdrop])
  | @number c whole fraction hc hwhole hfraction =>
    have hspace : c ≠ ' ' := by
      rintro rfl
      exact absurd hc (by decide)
    rw [List.cons_append, scanNext, if_neg hspace, scanToken,
      if_neg (by rw [not_isLetter_of_isDigit hc]; decide), if_pos hc]
    exact ofSplit_eq _ (splitNumber_append_of_head hwhole hfraction hrest)
  | @text body hbody =>
    have hsplit : splitText (body ++ ['"'] ++ rest) = some (body ++ ['"'], rest) := by
      rw [List.append_assoc]
      exact splitText_of_isQuoted hbody rest
    rw [List.cons_append, scanNext, if_neg (by decide), scanToken, if_neg (by decide),
      if_neg (by decide), if_pos rfl]
    split
    · next more hmore => exact ofSplit_eq _ (Option.some.inj (hmore.symm.trans hsplit))
    · next hnone =>
      rw [hsplit] at hnone
      cases hnone
  | @mark c hc =>
    obtain ⟨hspace, hletter, hdigit, hquote⟩ := isMark_cases hc
    rw [List.singleton_append, scanNext, if_neg hspace, scanToken, if_neg (by rw [hletter]; decide),
      if_neg (by rw [hdigit]; decide), if_neg hquote, if_pos hc]
    exact ⟨by simp, rfl⟩

theorem plain_of_toNat {c : Char} (hlow : 0x21 ≤ c.toNat) (hhigh : c.toNat ≤ 0x7E) :
    Source.isStrayControl c = false ∧ isBlank c = false := by
  constructor
  · have : ¬ c.toNat < 0x20 := by omega
    simp [Source.isStrayControl, this]
  · simp only [isBlank, blanks, CharSet.contains, List.any_cons, List.any_nil, Bool.or_false,
      Bool.or_eq_false_iff, Bool.and_eq_false_iff, decide_eq_false_iff_not]
    omega

theorem toNat_of_isWordChar {c : Char} (h : isWordChar c = true) :
    0x21 ≤ c.toNat ∧ c.toNat ≤ 0x7E ∧ c.toNat ≠ 0x2F := by
  simp only [isWordChar, isLetter, isDigit, Bool.or_eq_true, Bool.and_eq_true, decide_eq_true_eq,
    Char.le_def, UInt32.le_iff_toNat_le, Char.reduceVal, UInt32.reduceToNat, beq_iff_eq] at h
  have hval : c.val.toNat = c.toNat := rfl
  rcases h with h | rfl
  · omega
  · decide

theorem isWordChar_of_isDigit {c : Char} (h : isDigit c = true) : isWordChar c = true := by
  rw [isWordChar, h, Bool.or_true, Bool.true_or]

theorem isWordChar_of_isLetter {c : Char} (h : isLetter c = true) : isWordChar c = true := by
  rw [isWordChar, h, Bool.true_or, Bool.true_or]

theorem toNat_of_isLexeme {kind : TokenKind} {cs : List Char} (h : IsLexeme kind cs)
    (hkind : kind ≠ .text) {c : Char} (hc : c ∈ cs) :
    0x21 ≤ c.toNat ∧ c.toNat ≤ 0x7E ∧ c.toNat ≠ 0x2F := by
  cases h with
  | word hletter hcs =>
    rcases List.mem_cons.mp hc with rfl | hc
    · exact toNat_of_isWordChar (isWordChar_of_isLetter hletter)
    · exact toNat_of_isWordChar (hcs c hc)
  | number hdigit hwhole hfraction =>
    rcases List.mem_cons.mp hc with rfl | hc
    · exact toNat_of_isWordChar (isWordChar_of_isDigit hdigit)
    rcases List.mem_append.mp hc with hc | hc
    · exact toNat_of_isWordChar (isWordChar_of_isDigit (hwhole c hc))
    rcases hfraction with rfl | ⟨digits, rfl, hdigits⟩
    · cases hc
    rcases List.mem_cons.mp hc with rfl | hc
    · decide
    · exact toNat_of_isWordChar (isWordChar_of_isDigit (hdigits c hc))
  | text => exact absurd rfl hkind
  | mark hmark =>
    obtain rfl := List.mem_singleton.mp hc
    exact of_isMark (fun c => 0x21 ≤ c.toNat ∧ c.toNat ≤ 0x7E ∧ c.toNat ≠ 0x2F) (by decide) hmark

theorem isLexeme_ne_nil {kind : TokenKind} {cs : List Char} (h : IsLexeme kind cs) : cs ≠ [] := by
  cases h <;> simp

/-- Words, numbers and punctuation marks stay as they are. -/
theorem becomes_of_isLexeme {kind : TokenKind} {cs : List Char} (h : IsLexeme kind cs)
    (hkind : kind ≠ .text) : Source.Becomes cs cs := by
  refine Source.becomes_self (isLexeme_ne_nil h) fun c hc => ?_
  obtain ⟨hlow, hhigh, hslash⟩ := toNat_of_isLexeme h hkind hc
  refine ⟨(plain_of_toNat hlow hhigh).1, (plain_of_toNat hlow hhigh).2, ?_⟩
  rintro rfl
  exact hslash rfl

/-! ## Layouts -/

/-- A part of a document: a gap, or what is written for the characters of a token. -/
inductive Piece where
  | gap (written : List Char)
  | lexeme (kind : TokenKind) (chars written : List Char)
  deriving DecidableEq

namespace Piece

/-- What is written for a part. -/
def written : Piece → List Char
  | .gap written => written
  | .lexeme _ _ written => written

/-- The document of a layout. -/
def raw (pieces : List Piece) : List Char := pieces.flatMap written

/-- What comes after a token does not go on with it. -/
def Apart (kind : TokenKind) : List Piece → Prop
  | .lexeme _ cs _ :: _ => EndsToken kind cs
  | _ => True

/-- Every gap is a gap, every lexeme is one and becomes that in the buffer, and no lexeme goes on
with the one before it. -/
def Spaced : List Piece → Prop
  | [] => True
  | .gap written :: pieces => Source.IsGap written ∧ Spaced pieces
  | .lexeme kind cs written :: pieces =>
    IsLexeme kind cs ∧ Source.Becomes written cs ∧ Apart kind pieces ∧ Spaced pieces

/-- The tokens of a layout that begins at a position of the buffer. -/
def place : (afterBlank : Bool) → (position : Nat) → List Piece → List Token
  | _, _, [] => []
  | afterBlank, position, .gap _ :: pieces =>
    place true (if afterBlank then position else position + 1) pieces
  | _, position, .lexeme kind cs _ :: pieces =>
    ⟨kind, cs, position, position + cs.length⟩ :: place false (position + cs.length) pieces

/-- What a lexeme in front is scanned as, if nothing goes on with it. -/
theorem scanFrom_lexeme {kind : TokenKind} {cs rest : List Char} (h : IsLexeme kind cs)
    (hrest : EndsToken kind rest) (position : Nat) :
    scanFrom (cs ++ rest) position =
      (⟨kind, cs, position, position + cs.length⟩ :: (scanFrom rest (position + cs.length)).1,
        (scanFrom rest (position + cs.length)).2) := by
  obtain ⟨_, hnext⟩ := scanNext_lexeme h hrest position
  rw [scanFrom, hnext]

theorem scanFrom_space (cs : List Char) (position : Nat) :
    scanFrom (' ' :: cs) position = scanFrom cs (position + 1) := by
  rw [scanFrom, scanFrom, scanNext, if_pos rfl]
  cases scanNext cs (position + 1) with
  | token token rest shorter => rfl
  | fault fault position => rfl
  | finished => rfl

theorem raw_cons (piece : Piece) (pieces : List Piece) :
    raw (piece :: pieces) = piece.written ++ raw pieces :=
  List.flatMap_cons

theorem raw_append (pieces more : List Piece) : raw (pieces ++ more) = raw pieces ++ raw more :=
  List.flatMap_append

theorem head?_tidy_false (kind : TokenKind) {pieces : List Piece} (h : Spaced pieces)
    (hapart : Apart kind pieces) : EndsToken kind (Source.tidy false (raw pieces)) := by
  have hends : ∀ {cs rest : List Char},
      cs ≠ [] → EndsToken kind cs → EndsToken kind (cs ++ rest) := by
    intro cs rest hne hcs
    obtain ⟨c, cs, rfl⟩ := List.exists_cons_of_ne_nil hne
    cases kind <;> exact hcs
  cases pieces with
  | nil => cases kind <;> simp [EndsToken, raw, Source.tidy, Source.dropComments, collapseBlanks]
  | cons piece pieces =>
    cases piece with
    | gap written =>
      rw [raw_cons, Piece.written, Source.tidy_gap h.1]
      refine hends (by simp) ?_
      cases kind <;> simp [EndsToken] <;> decide
    | lexeme kind' cs written =>
      rw [raw_cons, Piece.written, h.2.1]
      exact hends (isLexeme_ne_nil h.1) hapart

/-- The tokens of a layout are its lexemes, each in its place. -/
theorem scanFrom_tidy {pieces : List Piece} (h : Spaced pieces) (afterBlank : Bool)
    (position : Nat) :
    scanFrom (Source.tidy afterBlank (raw pieces)) position =
      (place afterBlank position pieces, none) := by
  induction pieces generalizing afterBlank position with
  | nil =>
    show scanFrom [] position = _
    rw [scanFrom]
    rfl
  | cons piece pieces ih =>
    cases piece with
    | gap written =>
      rw [raw_cons, Piece.written, Source.tidy_gap h.1, place]
      cases afterBlank with
      | true => exact ih h.2 true position
      | false =>
        show scanFrom (' ' :: _) position = _
        rw [scanFrom_space]
        exact ih h.2 true (position + 1)
    | lexeme kind cs written =>
      obtain ⟨hlexeme, hbecomes, hapart, hspaced⟩ := h
      have hends := head?_tidy_false kind hspaced hapart
      rw [raw_cons, Piece.written, hbecomes, scanFrom_lexeme hlexeme hends, ih hspaced, place]

/-- Whether a blank comes last, and the position, after a layout. -/
def leave : (afterBlank : Bool) → (position : Nat) → List Piece → Bool × Nat
  | afterBlank, position, [] => (afterBlank, position)
  | afterBlank, position, .gap _ :: pieces =>
    leave true (if afterBlank then position else position + 1) pieces
  | _, position, .lexeme _ cs _ :: pieces => leave false (position + cs.length) pieces

theorem place_append (afterBlank : Bool) (position : Nat) (pieces more : List Piece) :
    place afterBlank position (pieces ++ more) =
      place afterBlank position pieces ++
        place (leave afterBlank position pieces).1 (leave afterBlank position pieces).2 more := by
  induction pieces generalizing afterBlank position with
  | nil => rfl
  | cons piece pieces ih =>
    cases piece with
    | gap written => exact ih true _
    | lexeme kind cs written => exact congrArg (_ :: ·) (ih false _)

/-- A document that is laid out scans as its lexemes. -/
theorem scan_raw {pieces : List Piece} (h : Spaced pieces)
    (hmark : (raw pieces).head? ≠ some Source.byteOrderMark) :
    (scan (Source.buffer (raw pieces))).tokens = place false 0 pieces ∧
      (scan (Source.buffer (raw pieces))).error = none := by
  rw [Source.buffer_eq_tidy hmark, scan, scanFrom_tidy h]
  exact ⟨rfl, rfl⟩

end Piece

end RoleFlow
