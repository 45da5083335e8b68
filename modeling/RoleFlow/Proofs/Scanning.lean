import RoleFlow.Proofs.Tiles

/-!
# What scanning finds

The tokens of a buffer without line feeds are all that can be made of it from its front: each is
as long as its kind allows, a text ends at the first quote that no backslash takes along, and
scanning stops where no token can begin.

Main definitions:
* `ClosesAt`: the quotes that no backslash takes along.
* `IsTiling`: how tokens, spaces and an error make up a buffer.

Results:
* `firstClosing_of_isQuoted`, `not_closesAt_of_splitText`: where texts end.
* `fault_of_scanToken`: where no token begins.
* `error_scan_iff`: the errors of a buffer.
* `isTiling_scan`: scanning tiles the buffer.
-/

namespace RoleFlow

/-! ## Closing quotes -/

/-- How many backslashes stand together at the end. -/
def escapesAtEnd (cs : List Char) : Nat := (cs.reverse.takeWhile (· == '\\')).length

/-- A quote with an even number of backslashes right before it, so that none takes it along. -/
def ClosesAt (cs : List Char) (i : Nat) : Prop :=
  cs[i]? = some '"' ∧ escapesAtEnd (cs.take i) % 2 = 0

/-- An even number of backslashes before a text takes nothing of it along. -/
theorem escapesAtEnd_append {front : List Char} (h : escapesAtEnd front % 2 = 0) (cs : List Char) :
    escapesAtEnd (front ++ cs) % 2 = escapesAtEnd cs % 2 := by
  unfold escapesAtEnd at *
  rw [List.reverse_append, List.takeWhile_append]
  split
  · next hall =>
    rw [List.length_append, hall]
    omega
  · rfl

theorem escapesAtEnd_concat {c : Char} (h : c ≠ '\\') (cs : List Char) :
    escapesAtEnd (cs ++ [c]) = 0 := by
  simp [escapesAtEnd, h]

theorem closesAt_append {front : List Char} (h : escapesAtEnd front % 2 = 0) (cs : List Char)
    (i : Nat) : ClosesAt (front ++ cs) (front.length + i) ↔ ClosesAt cs i := by
  unfold ClosesAt
  rw [List.getElem?_append_right (Nat.le_add_right _ _), Nat.add_sub_cancel_left,
    List.take_length_add_append, escapesAtEnd_append h]

/-- Behind an opening quote nothing depends on what stands before it. -/
theorem closesAt_opened (before cs : List Char) (k : Nat) :
    ClosesAt (before ++ '"' :: cs) (before.length + 1 + k) ↔ ClosesAt cs k := by
  have heven : escapesAtEnd (before ++ ['"']) % 2 = 0 := by
    rw [escapesAtEnd_concat (by decide)]
  have happend := closesAt_append heven cs k
  rwa [List.append_assoc, List.singleton_append, List.length_append] at happend

/-- Behind characters that neither close a text nor take along what comes next, the same quotes
close it. -/
theorem closesAt_pass {front cs : List Char} (heven : escapesAtEnd front % 2 = 0)
    (hnone : ∀ j < front.length, ¬ ClosesAt (front ++ cs) j) {i : Nat} :
    ClosesAt (front ++ cs) i ↔ ∃ k, i = front.length + k ∧ ClosesAt cs k := by
  constructor
  · intro h
    have hle : front.length ≤ i := Nat.le_of_not_lt fun hlt => hnone i hlt h
    obtain ⟨k, rfl⟩ := Nat.exists_eq_add_of_le hle
    exact ⟨k, rfl, (closesAt_append heven cs k).mp h⟩
  · rintro ⟨k, rfl, h⟩
    exact (closesAt_append heven cs k).mpr h

/-- A character that is neither a quote nor a backslash closes nothing. -/
theorem closesAt_plain {c : Char} (hquote : c ≠ '"') (hescape : c ≠ '\\') {cs : List Char}
    {i : Nat} : ClosesAt (c :: cs) i ↔ ∃ k, i = k + 1 ∧ ClosesAt cs k := by
  have heven : escapesAtEnd [c] % 2 = 0 := by
    rw [← List.nil_append [c], escapesAtEnd_concat hescape]
  have hpass : ClosesAt ([c] ++ cs) i ↔ _ := closesAt_pass heven fun j hj h => by
    obtain rfl : j = 0 := by simpa using hj
    exact hquote (Option.some.inj h.1)
  simpa [Nat.add_comm] using hpass

/-- A backslash takes the character after it along. -/
theorem closesAt_escape (c : Char) {cs : List Char} {i : Nat} :
    ClosesAt ('\\' :: c :: cs) i ↔ ∃ k, i = k + 2 ∧ ClosesAt cs k := by
  have heven : escapesAtEnd ['\\', c] % 2 = 0 := by
    by_cases hc : c = '\\'
    · rw [hc]
      rfl
    · rw [show ['\\', c] = ['\\'] ++ [c] from rfl, escapesAtEnd_concat hc]
  have hpass : ClosesAt (['\\', c] ++ cs) i ↔ _ := closesAt_pass heven fun j hj h => by
    have hcases : j = 0 ∨ j = 1 := by
      simp only [List.length_cons, List.length_nil] at hj
      omega
    rcases hcases with rfl | rfl
    · exact absurd (Option.some.inj h.1) (by decide)
    · exact absurd (show escapesAtEnd ['\\'] % 2 = 0 from h.2) (by decide)
  simpa [Nat.add_comm] using hpass

/-- A text ends at the first quote that closes it. -/
theorem firstClosing_of_isQuoted {body : List Char} (h : IsQuoted body) (rest : List Char) :
    ClosesAt (body ++ '"' :: rest) body.length ∧
      ∀ i < body.length, ¬ ClosesAt (body ++ '"' :: rest) i := by
  induction h with
  | nil => exact ⟨⟨rfl, rfl⟩, fun i hi => absurd hi (Nat.not_lt_zero i)⟩
  | @escape c cs hc h ih =>
    refine ⟨(closesAt_escape c).mpr ⟨cs.length, rfl, ih.1⟩, fun i hi hclose => ?_⟩
    obtain ⟨k, rfl, hk⟩ := (closesAt_escape c).mp hclose
    simp only [List.length_cons] at hi
    exact ih.2 k (by omega) hk
  | @plain c cs hquote hescape h ih =>
    refine ⟨(closesAt_plain hquote hescape).mpr ⟨cs.length, rfl, ih.1⟩, fun i hi hclose => ?_⟩
    obtain ⟨k, rfl, hk⟩ := (closesAt_plain hquote hescape).mp hclose
    simp only [List.length_cons] at hi
    exact ih.2 k (by omega) hk

/-- Where a text has no end, no quote closes it. -/
theorem not_closesAt_of_splitText {input : List Char} (h : splitText input = none)
    (hfeed : '\n' ∉ input) (i : Nat) : ¬ ClosesAt input i := by
  fun_induction splitText input generalizing i with
  | case1 => exact fun hclose => by cases hclose.1
  | case2 => cases h
  | case3 => exact absurd (by simp) hfeed
  | case4 c cs hc ih =>
    intro hclose
    obtain ⟨k, -, hk⟩ := (closesAt_escape c).mp hclose
    exact ih (Option.map_eq_none_iff.mp h) (fun hmem => hfeed (by simp [hmem])) k hk
  | case5 =>
    intro hclose
    cases i with
    | zero => exact absurd (Option.some.inj hclose.1) (by decide)
    | succ i => cases hclose.1
  | case6 c cs hquote hescape hend ih =>
    have hplain : c ≠ '\\' := by
      intro hc
      cases cs with
      | nil => exact hend hc rfl
      | cons d ds => exact hescape d ds hc rfl
    intro hclose
    obtain ⟨k, -, hk⟩ := (closesAt_plain hquote hplain).mp hclose
    exact ih (Option.map_eq_none_iff.mp h) (fun hmem => hfeed (by simp [hmem])) k hk

/-! ## Tokens that cannot be longer -/

theorem chars_of_number {cs : List Char} (h : IsLexeme .number cs) :
    (∀ c ∈ cs, isDigit c = true ∨ c = '.') ∧ cs.count '.' ≤ 1 := by
  cases h with
  | @number c whole fraction hc hwhole hfraction =>
    have hpoints : ∀ ds : List Char, (∀ d ∈ ds, isDigit d = true) → ds.count '.' = 0 := by
      intro ds hds
      exact List.count_eq_zero.mpr fun hmem => absurd (hds _ hmem) (by decide)
    have hdigits : ∀ d ∈ c :: whole, isDigit d = true := List.forall_mem_cons.mpr ⟨hc, hwhole⟩
    have hback : (∀ d ∈ fraction, isDigit d = true ∨ d = '.') ∧ fraction.count '.' ≤ 1 := by
      rcases hfraction with rfl | ⟨digits, rfl, hdigits⟩
      · simp
      · refine ⟨List.forall_mem_cons.mpr ⟨.inr rfl, fun d hd => .inl (hdigits d hd)⟩, ?_⟩
        rw [List.count_cons_self, hpoints digits hdigits]
    rw [← List.cons_append]
    refine ⟨List.forall_mem_append.mpr ⟨fun d hd => .inl (hdigits d hd), hback.1⟩, ?_⟩
    rw [List.count_append, hpoints _ hdigits, Nat.zero_add]
    exact hback.2

/-- What does not go on with a word or a number makes none that is longer. -/
theorem not_isLexeme_longer {kind : TokenKind} (hkind : kind = .word ∨ kind = .number)
    {chars rest more : List Char} {c : Char} (hends : EndsLexeme kind chars (c :: rest)) :
    ¬ IsLexeme kind (chars ++ c :: more) := by
  intro h
  have hmem : c ∈ chars ++ c :: more := by simp
  have hend := hends c rfl
  rcases hkind with rfl | rfl
  · generalize hcs : chars ++ c :: more = cs at h hmem
    cases h with
    | @word d ds hd hds =>
      have hword : isWordChar c = true := by
        rcases List.mem_cons.mp hmem with rfl | hmem
        · exact isWordChar_of_isLetter hd
        · exact hds c hmem
      exact Bool.false_ne_true (hend.symm.trans hword)
  · obtain ⟨hchars, hcount⟩ := chars_of_number h
    obtain ⟨hdigit, hpoint⟩ := hend
    obtain rfl : c = '.' := (hchars c hmem).resolve_left (by rw [hdigit]; decide)
    have hfirst : 0 < chars.count '.' := List.count_pos_iff.mpr (hpoint rfl)
    rw [List.count_append, List.count_cons_self] at hcount
    omega

/-! ## Where no token begins -/

/-- Where scanning stops, no token begins. -/
theorem fault_of_scanToken {first : Char} {input : List Char} {position place : Nat}
    {fault : SyntaxFault} (h : scanToken first input position = .fault fault place) :
    (∀ kind chars, chars <+: first :: input → ¬ IsLexeme kind chars) ∧
      (first = '"' ∧ splitText input = none ∧ fault = .unclosedText ∧
          place = position + (input.length + 1) ∨
        first ≠ '"' ∧ fault = .unexpectedCharacter first ∧ place = position) := by
  unfold scanToken at h
  split at h
  · cases h
  next hletter =>
  split at h
  · cases h
  next hdigit =>
  -- No letter and no digit is left, so a token in front is a text or a mark.
  have hplain : ∀ kind chars, chars <+: first :: input → IsLexeme kind chars →
      first = '"' ∧ kind = .text ∨ isMark first = true := by
    intro kind chars hprefix hlexeme
    cases hlexeme with
    | word hc => exact absurd ((List.cons_prefix_cons.mp hprefix).1 ▸ hc) hletter
    | number hc => exact absurd ((List.cons_prefix_cons.mp hprefix).1 ▸ hc) hdigit
    | text => exact .inl ⟨(List.cons_prefix_cons.mp hprefix).1.symm, rfl⟩
    | mark hc => exact .inr ((List.cons_prefix_cons.mp hprefix).1 ▸ hc)
  split at h
  · next hquote =>
    split at h
    · cases h
    next hsplit =>
    cases h
    refine ⟨fun kind chars hprefix hlexeme => ?_, .inl ⟨hquote, hsplit, rfl, rfl⟩⟩
    rcases hplain kind chars hprefix hlexeme with ⟨-, rfl⟩ | hmark
    · cases hlexeme with
      | @text body hbody =>
        obtain ⟨rest, hrest⟩ := (List.cons_prefix_cons.mp hprefix).2
        rw [List.append_assoc, List.singleton_append] at hrest
        rw [← hrest, splitText_of_isQuoted hbody] at hsplit
        cases hsplit
    · rw [hquote] at hmark
      exact absurd hmark (by decide)
  · next hquote =>
    split at h
    · cases h
    next hmark =>
    cases h
    refine ⟨fun kind chars hprefix hlexeme => ?_, .inr ⟨hquote, rfl, rfl⟩⟩
    rcases hplain kind chars hprefix hlexeme with ⟨hfirst, -⟩ | hisMark
    · exact hquote hfirst
    · exact hmark hisMark

/-- Where scanning stops, only spaces come before. -/
theorem exists_fault_of_scanFrom {input : List Char} {position place : Nat} {fault : SyntaxFault}
    (h : scanFrom input position = ([], some (fault, place))) :
    ∃ spaces c cs, input = List.replicate spaces ' ' ++ c :: cs ∧ c ≠ ' ' ∧
      scanToken c cs (position + spaces) = .fault fault place := by
  induction input generalizing position with
  | nil =>
    rw [scanFrom] at h
    cases h
  | cons c cs ih =>
    by_cases hspace : c = ' '
    · subst hspace
      rw [Piece.scanFrom_space] at h
      obtain ⟨spaces, d, ds, rfl, hd, hfault⟩ := ih h
      refine ⟨spaces + 1, d, ds, rfl, hd, ?_⟩
      rwa [show position + (spaces + 1) = position + 1 + spaces by omega]
    · rw [scanFrom, scanNext_of_ne_space hspace] at h
      refine ⟨0, c, cs, rfl, hspace, ?_⟩
      split at h
      · cases h
      · next hfault =>
        cases h
        exact hfault
      · cases h

/-! ## Tilings -/

namespace Tiles

variable {start stop : Nat} {input rest : List Char} {tokens : List Token}

/-- Where a token stands, and what comes after it. -/
theorem part (h : Tiles start input tokens stop rest) : ∀ t ∈ tokens, ∃ before after,
    input = before ++ (t.chars ++ after) ∧ t.start = start + before.length ∧
      t.stop = t.start + t.chars.length ∧ IsLexeme t.kind t.chars ∧
      EndsLexeme t.kind t.chars after := by
  induction h with
  | nil => exact fun t ht => by cases ht
  | @cons position spaces stop kind chars input rest tokens hlexeme hends tail ih =>
    refine List.forall_mem_cons.mpr ⟨?_, fun t ht => ?_⟩
    · refine ⟨List.replicate spaces ' ', input, by simp, ?_, rfl, hlexeme, hends⟩
      rw [List.length_replicate]
    · obtain ⟨before, after, rfl, hstart, hpart⟩ := ih t ht
      refine ⟨List.replicate spaces ' ' ++ chars ++ before, after, by simp, ?_, hpart⟩
      rw [hstart]
      simp only [List.length_append, List.length_replicate]
      omega

/-- A character other than a space belongs to a token. -/
theorem covers (h : Tiles start input tokens stop rest) {i : Nat} {c : Char}
    (hc : input[i]? = some c) (hspace : c ≠ ' ') (hi : start + i < stop) :
    ∃ t ∈ tokens, t.start ≤ start + i ∧ start + i < t.stop := by
  induction h generalizing i with
  | nil => omega
  | @cons position spaces stop kind chars input rest tokens hlexeme hends tail ih =>
    rw [List.append_assoc] at hc
    rcases Nat.lt_or_ge i spaces with hlt | hge
    · rw [List.getElem?_append_left (by simpa using hlt), List.getElem?_replicate_of_lt hlt] at hc
      exact absurd (Option.some.inj hc).symm hspace
    rcases Nat.lt_or_ge i (spaces + chars.length) with hlt | hge'
    · exact ⟨_, List.mem_cons_self, by dsimp only; omega, by dsimp only; omega⟩
    · obtain ⟨k, rfl⟩ := Nat.exists_eq_add_of_le hge'
      rw [List.getElem?_append_right (by simpa using hge), List.length_replicate,
        List.getElem?_append_right (by omega),
        show spaces + chars.length + k - spaces - chars.length = k by omega] at hc
      obtain ⟨t, ht, hstart, hstop⟩ := ih hc (by omega)
      exact ⟨t, List.mem_cons_of_mem _ ht, by omega, by omega⟩

end Tiles

/-- The first character after the tokens that is no space. -/
structure IsFirstUnread (buffer : List Char) (tokens : List Token) (q : Nat) (c : Char) : Prop where
  char : buffer[q]? = some c
  notSpace : c ≠ ' '
  unread : ∀ t ∈ tokens, t.stop ≤ q
  first : ∀ i < q, (∀ t ∈ tokens, t.stop ≤ i) → buffer[i]? = some ' '

/-- The error of a character that begins no token. If it is a quote, it begins a text that no quote
closes, and the error is that the buffer has ended. -/
inductive FaultsAt (buffer : List Char) (q : Nat) : Char → SyntaxError → Prop
  | unclosed (hopen : ∀ i > q, ¬ ClosesAt buffer i) :
    FaultsAt buffer q '"' (.ofFault .unclosedText buffer buffer.length)
  | unexpected {c : Char} (hquote : c ≠ '"') :
    FaultsAt buffer q c (.ofFault (.unexpectedCharacter c) buffer q)

/-- How tokens, spaces and perhaps an error make up a buffer. Words and numbers are as long as they
can be, a text ends where a quote first closes it, and there is an error exactly if no token
begins at what comes after the tokens. -/
structure IsTiling (buffer : List Char) (tokens : List Token) (error : Option SyntaxError) :
    Prop where
  nonempty : ∀ t ∈ tokens, t.start < t.stop ∧ t.stop ≤ buffer.length
  ordered : tokens.Pairwise fun t u => t.stop ≤ u.start
  lexeme : ∀ t ∈ tokens, t.chars = slice buffer t.start t.stop ∧ IsLexeme t.kind t.chars
  longest : ∀ t ∈ tokens, t.kind = .word ∨ t.kind = .number →
    ∀ stop : Nat, t.stop < stop → stop ≤ buffer.length →
      ¬ IsLexeme t.kind (slice buffer t.start stop)
  closed : ∀ t ∈ tokens, t.kind = .text → ∃ i, t.start < i ∧ t.stop = i + 1 ∧
    ClosesAt buffer i ∧ ∀ j, t.start < j → j < i → ¬ ClosesAt buffer j
  spaces : ∀ i c, buffer[i]? = some c → (∃ t ∈ tokens, t.start ≤ i ∧ i < t.stop) ∨ c = ' ' ∨
    error ≠ none ∧ ∀ t ∈ tokens, t.stop ≤ i
  error_iff : ∀ e, error = some e ↔ ∃ q c, IsFirstUnread buffer tokens q c ∧
    (∀ kind (stop : Nat), ¬ IsLexeme kind (slice buffer q stop)) ∧ FaultsAt buffer q c e

theorem slice_natCast {α : Type} (xs : List α) (start stop : Nat) :
    slice xs start stop = (xs.take stop).drop start := by
  have hclamp : ∀ n : Nat, ¬ (n : Int) < 0 := fun n => by omega
  simp only [slice, if_neg (hclamp _), Int.toNat_natCast]

theorem IsFirstUnread.unique {buffer : List Char} {tokens : List Token} {q r : Nat} {c d : Char}
    (hq : IsFirstUnread buffer tokens q c) (hr : IsFirstUnread buffer tokens r d) :
    q = r ∧ c = d := by
  have hle : ∀ {q r c d}, IsFirstUnread buffer tokens q c → IsFirstUnread buffer tokens r d →
      r ≤ q := by
    intro q r c d hq hr
    by_contra hlt
    have hspace := hr.first q (by omega) hq.unread
    rw [hq.char] at hspace
    exact hq.notSpace (Option.some.inj hspace)
  obtain rfl := Nat.le_antisymm (hle hr hq) (hle hq hr)
  exact ⟨rfl, Option.some.inj (hq.char.symm.trans hr.char)⟩

theorem FaultsAt.unique {buffer : List Char} {q : Nat} {c : Char} {e f : SyntaxError}
    (he : FaultsAt buffer q c e) (hf : FaultsAt buffer q c f) : e = f := by
  cases he with
  | unclosed => cases hf with
    | unclosed => rfl
    | unexpected h => exact absurd rfl h
  | unexpected h => cases hf with
    | unclosed => exact absurd rfl h
    | unexpected => rfl

/-! ## Parts of a buffer -/

section Parts

variable {before after : List Char}

theorem slice_part (before chars after : List Char) :
    slice (before ++ (chars ++ after)) before.length ((before.length + chars.length : Nat) : Int) =
      chars := by
  rw [slice_natCast, ← List.append_assoc, ← List.length_append, List.take_left, List.drop_left]

/-- A longer part of the buffer than a token adds to it characters of what comes after it. -/
theorem exists_slice_longer {chars : List Char} {stop : Nat}
    (hstop : before.length + chars.length < stop)
    (hlength : stop ≤ (before ++ (chars ++ after)).length) :
    ∃ c more rest, after = c :: rest ∧
      slice (before ++ (chars ++ after)) before.length stop = chars ++ c :: more := by
  obtain ⟨k, rfl⟩ := Nat.exists_eq_add_of_lt hstop
  simp only [List.length_append] at hlength
  cases after with
  | nil =>
    rw [List.length_nil] at hlength
    omega
  | cons c rest =>
    refine ⟨c, rest.take k, rest, rfl, ?_⟩
    rw [slice_natCast, Nat.add_assoc, Nat.add_assoc, List.take_length_add_append, List.drop_left,
      List.take_length_add_append, List.take_succ_cons]

/-- A text is closed by the quote at its end, and not before. -/
theorem firstClosing_of_text {chars : List Char} (h : IsLexeme .text chars) :
    ∃ i, before.length < i ∧ before.length + chars.length = i + 1 ∧
      ClosesAt (before ++ (chars ++ after)) i ∧
      ∀ j, before.length < j → j < i → ¬ ClosesAt (before ++ (chars ++ after)) j := by
  cases h with
  | @text body hbody =>
    have hbuffer : before ++ ('"' :: (body ++ ['"']) ++ after) =
        before ++ '"' :: (body ++ '"' :: after) := by simp
    obtain ⟨hcloses, hfirst⟩ := firstClosing_of_isQuoted hbody after
    rw [hbuffer]
    refine ⟨before.length + 1 + body.length, by omega, ?_, (closesAt_opened _ _ _).mpr hcloses,
      fun j hj hlt hclose => ?_⟩
    · simp only [List.length_cons, List.length_append, List.length_nil]
      omega
    · obtain ⟨k, rfl⟩ := Nat.exists_eq_add_of_le (show before.length + 1 ≤ j from hj)
      exact hfirst k (by omega) ((closesAt_opened _ _ _).mp hclose)

end Parts

/-! ## What comes after the tokens -/

section Rest

variable {buffer rest : List Char} {tokens : List Token} {stop q : Nat} {c : Char}

theorem stop_le_of_isFirstUnread (htiles : Tiles 0 buffer tokens stop rest)
    (h : IsFirstUnread buffer tokens q c) : stop ≤ q := by
  by_contra hlt
  obtain ⟨t, ht, -, hstop⟩ := htiles.covers h.char h.notSpace (by omega)
  have := h.unread t ht
  omega

/-- Where no error comes after the tokens, there are only spaces. -/
theorem eq_space_of_rest (htiles : Tiles 0 buffer tokens stop rest)
    (hrest : scanFrom rest stop = ([], none)) {i : Nat} (hi : stop ≤ i)
    (hc : buffer[i]? = some c) : c = ' ' := by
  obtain ⟨front, hbuffer, hstop, -⟩ := htiles.replace
  obtain ⟨spaces, hspaces⟩ := eq_spaces_of_scanFrom hrest
  rw [hbuffer, List.getElem?_append_right (by omega), hspaces] at hc
  exact List.eq_of_mem_replicate (List.mem_of_getElem? hc)

/-- The spaces after the tokens lead to the first character that is none. -/
theorem isFirstUnread_of_rest (htiles : Tiles 0 buffer tokens stop rest) {spaces : Nat}
    {cs : List Char} (hrest : rest = List.replicate spaces ' ' ++ c :: cs) (hc : c ≠ ' ') :
    IsFirstUnread buffer tokens (stop + spaces) c := by
  obtain ⟨front, hbuffer, hstop, -⟩ := htiles.replace
  rw [Nat.zero_add] at hstop
  have hat : ∀ k, buffer[stop + k]? = (List.replicate spaces ' ' ++ c :: cs)[k]? := by
    intro k
    rw [hbuffer, hrest, hstop, List.getElem?_append_right (Nat.le_add_right _ _),
      Nat.add_sub_cancel_left]
  refine ⟨?_, hc, fun t ht => ?_, fun i hi hunread => ?_⟩
  · rw [hat, List.getElem?_append_right (by simp), List.length_replicate, Nat.sub_self]
    rfl
  · exact (htiles.places.2.2 t ht).2.2.trans (Nat.le_add_right _ _)
  · rcases Nat.lt_or_ge i stop with hlt | hge
    · have hinside : i < buffer.length := by
        rw [hbuffer, List.length_append]
        omega
      rw [List.getElem?_eq_getElem hinside]
      by_contra hspace
      obtain ⟨t, ht, -, hlt⟩ := htiles.covers (List.getElem?_eq_getElem hinside)
        (fun heq => hspace (congrArg some heq)) (by omega)
      have := hunread t ht
      omega
    · obtain ⟨k, rfl⟩ := Nat.exists_eq_add_of_le hge
      have hk : k < spaces := by omega
      rw [hat, List.getElem?_append_left (by simpa using hk), List.getElem?_replicate_of_lt hk]

/-- Where an error comes after the tokens, it is that of the first character that is no space, and
no token begins there. -/
theorem exists_faultsAt (hfeed : '\n' ∉ buffer) (htiles : Tiles 0 buffer tokens stop rest)
    {fault : SyntaxFault} {place : Nat} (hrest : scanFrom rest stop = ([], some (fault, place))) :
    ∃ q c, IsFirstUnread buffer tokens q c ∧
      (∀ kind (stop : Nat), ¬ IsLexeme kind (slice buffer q stop)) ∧
      FaultsAt buffer q c (.ofFault fault buffer place) := by
  obtain ⟨front, hbuffer, hstop, -⟩ := htiles.replace
  obtain ⟨spaces, c, cs, hspaces, hc, hfault⟩ := exists_fault_of_scanFrom hrest
  obtain ⟨hbegins, hcases⟩ := fault_of_scanToken hfault
  have hfirst := isFirstUnread_of_rest htiles hspaces hc
  obtain ⟨before, hsplit, hlength⟩ :
      ∃ before, buffer = before ++ c :: cs ∧ before.length = stop + spaces := by
    refine ⟨front ++ List.replicate spaces ' ', ?_, by simp [hstop]⟩
    rw [hbuffer, hspaces, List.append_assoc]
  rw [← hlength] at hfirst hcases
  refine ⟨before.length, c, hfirst, ?_, ?_⟩
  · intro kind stop
    refine hbegins kind _ ?_
    rw [slice_natCast, hsplit, List.drop_take, List.drop_left]
    exact List.take_prefix _ _
  · rcases hcases with ⟨rfl, hopen, rfl, rfl⟩ | ⟨hquote, rfl, rfl⟩
    · have hend : before.length + (cs.length + 1) = buffer.length := by simp [hsplit]
      rw [hend]
      refine .unclosed fun i hi hclose => ?_
      obtain ⟨k, rfl⟩ := Nat.exists_eq_add_of_le (show before.length + 1 ≤ i from hi)
      rw [hsplit, closesAt_opened] at hclose
      exact not_closesAt_of_splitText hopen (fun hmem => hfeed (by simp [hsplit, hmem])) k hclose
    · exact .unexpected hquote

/-- The error of a buffer is that of the first character after the tokens that is no space, if no
token begins there. -/
theorem error_scan_iff (hfeed : '\n' ∉ buffer) (htiles : Tiles 0 buffer tokens stop rest)
    (hrest : scanFrom rest stop = ([], (scanFrom buffer 0).2)) {e : SyntaxError} :
    (scan buffer).error = some e ↔ ∃ q c, IsFirstUnread buffer tokens q c ∧
      (∀ kind (stop : Nat), ¬ IsLexeme kind (slice buffer q stop)) ∧ FaultsAt buffer q c e := by
  have herror : (scan buffer).error = (scanFrom buffer 0).2.map fun found =>
      .ofFault found.1 buffer found.2 := rfl
  rw [herror]
  cases hfault : (scanFrom buffer 0).2 with
  | none =>
    rw [hfault] at hrest
    constructor
    · rintro ⟨⟩
    · rintro ⟨q, c, hq, -, -⟩
      exact absurd (eq_space_of_rest htiles hrest (stop_le_of_isFirstUnread htiles hq) hq.char)
        hq.notSpace
  | some found =>
    rw [hfault] at hrest
    obtain ⟨q, c, hq, hbegins, hfaults⟩ := exists_faultsAt hfeed htiles hrest
    constructor
    · rintro ⟨⟩
      exact ⟨q, c, hq, hbegins, hfaults⟩
    · rintro ⟨r, d, hr, -, hfaults'⟩
      obtain ⟨rfl, rfl⟩ := hq.unique hr
      exact congrArg some (hfaults.unique hfaults')

end Rest

/-- Scanning cuts a buffer without line feeds into tokens, up to the first place where none
begins. -/
theorem isTiling_scan {buffer : List Char} (hfeed : '\n' ∉ buffer) :
    IsTiling buffer (scan buffer).tokens (scan buffer).error := by
  obtain ⟨stop, rest, htiles, hrest⟩ := exists_tiles buffer 0
  rw [← scan_tokens] at htiles
  constructor
  case nonempty =>
    intro t ht
    obtain ⟨-, hlt, hle⟩ := htiles.places.2.2 t ht
    obtain ⟨front, hbuffer, hstop, -⟩ := htiles.replace
    have hlength := congrArg List.length hbuffer
    rw [List.length_append] at hlength
    exact ⟨hlt, by omega⟩
  case ordered => exact htiles.places.2.1
  case lexeme =>
    intro t ht
    obtain ⟨before, after, hbuffer, hstart, hstop, hlexeme, -⟩ := htiles.part t ht
    rw [Nat.zero_add] at hstart
    rw [hstop, hstart, hbuffer, slice_part]
    exact ⟨rfl, hlexeme⟩
  case longest =>
    intro t ht hkind place hlt hle
    obtain ⟨before, after, hbuffer, hstart, hstop, -, hends⟩ := htiles.part t ht
    rw [Nat.zero_add] at hstart
    rw [hbuffer] at hle
    obtain ⟨c, more, rest, hafter, hslice⟩ := exists_slice_longer (by omega) hle
    rw [hstart, hbuffer, hslice]
    exact not_isLexeme_longer hkind (hafter ▸ hends)
  case closed =>
    intro t ht hkind
    obtain ⟨before, after, hbuffer, hstart, hstop, hlexeme, -⟩ := htiles.part t ht
    rw [Nat.zero_add] at hstart
    rw [hkind] at hlexeme
    rw [hstop, hstart, hbuffer]
    exact firstClosing_of_text hlexeme
  case spaces =>
    intro i c hc
    by_cases hspace : c = ' '
    · exact .inr (.inl hspace)
    rcases Nat.lt_or_ge i stop with hlt | hge
    · obtain ⟨t, ht, hstart, hstop⟩ := htiles.covers hc hspace (by omega)
      exact .inl ⟨t, ht, by omega, by omega⟩
    · refine .inr (.inr ⟨fun hnone => ?_, fun t ht => ?_⟩)
      · rw [error_scan_eq_none_iff.mp hnone] at hrest
        exact hspace (eq_space_of_rest htiles hrest hge hc)
      · exact (htiles.places.2.2 t ht).2.2.trans hge
  case error_iff => exact fun e => error_scan_iff hfeed htiles hrest

/-- A number with two points, a quote that is taken along, and a text without an end. -/
theorem isTiling_scan_unclosed :
    let buffer := "x1 2.5.6\"a\\\"b\"; \"c\\\"".toList
    '\n' ∉ buffer ∧
      (scan buffer).tokens.map (fun t => (t.kind, t.start, t.stop)) =
        [(.word, 0, 2), (.number, 3, 6), (.mark, 6, 7), (.number, 7, 8), (.text, 8, 14),
          (.mark, 14, 15)] ∧
      (scan buffer).error = some (.ofFault .unclosedText buffer 20) ∧
      IsTiling buffer (scan buffer).tokens (scan buffer).error := by
  intro buffer
  have hfeed : '\n' ∉ buffer := by decide
  exact ⟨hfeed, by decide +kernel, by decide +kernel, isTiling_scan hfeed⟩

end RoleFlow
