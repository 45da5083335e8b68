import RoleFlow.Proofs.Descent
import RoleFlow.Proofs.JsonLiterals
import RoleFlow.Proofs.Readers
import RoleFlow.Proofs.Scanning

/-!
# Where a descent stands

A stream stands before a list of tokens if these are what it has left. From there a descent is
compared with what a reader of the list gives: it takes the same tokens for the same value, or it is
refused with the same error. Since a descent looks at the next token before it is over, it may raise
the lexical error behind the last token earlier than the reader, which leaves that to whatever is
read next.

Main definitions:
* `Scan.Stands`: a stream before the tokens that are left of a scan.
* `Scan.Mirrors`: a descent that ends like a reader, but for an early lexical error.

Results:
* `mirrors_bind`: one descent after another.
* `reads_peek`, `reads_take`, `reads_refuse`: the calls of a stream, none of them past its end.
* `looks_isAt`, `reads_number`: the current token has a first character, and a number has a value.
* `mirrors_passes`, `mirrors_loop`, `mirrors_recursive`: no loop and no recursive call stops for
  want of a token.
-/

namespace RoleFlow

/-- The value of a reading and the tokens after it. -/
abbrev Reading.ends {α : Type} {tokens : List Token} (r : Reading α tokens) : α × List Token :=
  (r.value, r.rest)

/-! ## Lexemes -/

/-- Of the tokens, only a punctuation mark begins with its character. -/
theorem IsLexeme.head?_eq_iff {t : Token} (h : IsLexeme t.kind t.chars) {c : Char}
    (hc : isMark c = true) : t.chars.head? = some c ↔ t.isMark c = true := by
  obtain ⟨-, hletter, hdigit, hquote⟩ := isMark_cases hc
  obtain ⟨kind, chars, start, stop⟩ := t
  rw [Token.isMark_iff]
  cases h with
  | word hfirst =>
    refine ⟨fun hhead => ?_, nofun⟩
    obtain rfl := Option.some.inj hhead
    rw [hletter] at hfirst
    cases hfirst
  | number hfirst =>
    refine ⟨fun hhead => ?_, nofun⟩
    obtain rfl := Option.some.inj hhead
    rw [hdigit] at hfirst
    cases hfirst
  | text => exact ⟨fun hhead => absurd (Option.some.inj hhead).symm hquote, nofun⟩
  | mark => simp

theorem trimEnds_eq_self {α : Type} {p : α → Bool} {xs : List α} (h : ∀ x ∈ xs, p x = false) :
    trimEnds p xs = xs := by
  have hdrop : ∀ ys : List α, (∀ y ∈ ys, p y = false) → ys.dropWhile p = ys := by
    intro ys hys
    cases ys with
    | nil => rfl
    | cons y ys => exact List.dropWhile_cons_of_neg (by simp [hys y List.mem_cons_self])
  rw [trimEnds, hdrop xs h, hdrop _ fun x hx => h x (List.mem_reverse.mp hx), List.reverse_reverse]

theorem isSpacing_of_isLexeme {kind : TokenKind} {cs : List Char} (h : IsLexeme kind cs)
    (hkind : kind ≠ .text) : ∀ c ∈ cs, isSpacing c = false := by
  intro c hc
  obtain ⟨hlow, hhigh, -⟩ := toNat_of_isLexeme h hkind hc
  have hblank : isBlank c = false := by
    simp [isBlank, blanks, CharSet.contains]
    omega
  rw [isSpacing, hblank, Bool.false_and]

/-- The characters of a number token are a real number, with the value of the token. -/
theorem doubleOfText?_of_isLexeme {t : Token} (h : IsLexeme t.kind t.chars)
    (ht : t.kind = .number) : doubleOfText? t.text = some t.number := by
  have hspacing := isSpacing_of_isLexeme h (by rw [ht]; decide)
  obtain ⟨kind, chars, start, stop⟩ := t
  cases ht
  cases h with
  | @number c whole fraction hc hwhole hfraction =>
    have hdigits : ∀ d ∈ c :: whole, d.isDigit = true := by
      simpa only [List.forall_mem_cons, Json.isDigit_eq] using And.intro hc hwhole
    have hsign : splitSign (c :: (whole ++ fraction)) = (false, c :: (whole ++ fraction)) := by
      have hplain : c ≠ '-' ∧ c ≠ '+' := by
        constructor <;> rintro rfl <;> exact absurd hc (by decide)
      rw [splitSign, if_neg hplain.1, if_neg hplain.2]
    have hmagnitude : magnitudeOfText? (c :: (whole ++ fraction)) =
        some (Token.number ⟨.number, c :: (whole ++ fraction), start, stop⟩).magnitude := by
      have hends : ∀ d ∈ fraction.head?, d.isDigit = false := by
        rcases hfraction with rfl | ⟨digits, rfl, -⟩
        · rintro d ⟨⟩
        · rintro d ⟨⟩
          decide
      obtain ⟨htake, hdrop⟩ := takeWhile_append_of_head hdigits hends
      have hafter : (if fraction.head? = some '.' then (fraction.drop 1).takeWhile Char.isDigit
            else []) = fraction.drop 1 ∧
          (if fraction.head? = some '.' then (fraction.drop 1).dropWhile Char.isDigit
            else fraction) = [] := by
        rcases hfraction with rfl | ⟨digits, rfl, hmore⟩
        · exact ⟨rfl, rfl⟩
        · simp only [Json.isDigit_eq] at hmore
          simpa using hmore
      have hletter : c.toLower ≠ 'i' := by
        have hlower : c.toLower = c := by
          refine dif_neg fun hupper => ?_
          simp only [isDigit, Bool.and_eq_true, decide_eq_true_eq, Char.le_def,
            UInt32.le_iff_toNat_le, ge_iff_le, Char.reduceVal, UInt32.reduceToNat] at hc hupper
          omega
        rw [hlower]
        rintro rfl
        exact absurd hc (by decide)
      rw [magnitudeOfText?, Token.number]
      simp only [funext Json.isDigit_eq, ← List.cons_append, htake, hdrop, hafter.1, hafter.2]
      rw [if_neg (by simp [hletter]), if_neg (by simp [splitExponent])]
      rfl
    rw [doubleOfText?, Token.text, String.toList_ofList, trimEnds_eq_self hspacing, signedDouble?,
      hsign]
    simp only [hmagnitude]
    rfl

namespace Scan

variable (s : Scan)

/-! ## Streams before tokens -/

/-- A stream over the buffer of a scan, before the given ones of its tokens. -/
structure Stands (tokens : List Token) (stream : TokenStream) : Prop where
  scan : s = RoleFlow.scan s.buffer
  suffix : tokens <:+ s.tokens
  cursor : ∃ position, stream.cursor = ⟨s.buffer, tokens, s.error, position⟩

/-- An error at a place in the buffer or at its end, and not for a call past the last token. -/
structure IsRefusal (e : SyntaxError) : Prop where
  position : e.position ≤ s.buffer.length
  fault : e.fault ≠ .unexpectedEnd

theorem stands_ofBuffer (buffer : List Char) :
    (RoleFlow.scan buffer).Stands (RoleFlow.scan buffer).tokens (.ofBuffer buffer) where
  scan := rfl
  suffix := List.suffix_rfl
  cursor := ⟨0, TokenStream.cursor_ofBuffer buffer⟩

namespace Stands

variable {s} {t : Token} {tokens : List Token} {stream : TokenStream} {e : SyntaxError}

theorem left_eq (h : s.Stands tokens stream) : stream.left = tokens.length := by
  obtain ⟨position, hcursor⟩ := h.cursor
  rw [TokenStream.left, hcursor]

/-- The tokens left are lexemes in the buffer. -/
theorem of_mem (h : s.Stands tokens stream) (ht : t ∈ tokens) :
    IsLexeme t.kind t.chars ∧ t.start ≤ s.buffer.length := by
  obtain ⟨stop, rest, htiles, -⟩ := exists_tiles s.buffer 0
  have hmem : t ∈ (scanFrom s.buffer 0).1 := by
    rw [← scan_tokens, ← h.scan]
    exact h.suffix.mem ht
  obtain ⟨before, after, hbuffer, hstart, -, hlexeme, -⟩ := htiles.part t hmem
  refine ⟨hlexeme, ?_⟩
  rw [hstart, hbuffer, List.length_append]
  omega

/-- The lexical error is a refusal like any other. -/
theorem isRefusal (h : s.Stands tokens stream) (he : s.error = some e) : s.IsRefusal e := by
  rw [h.scan] at he
  obtain ⟨stop, rest, htiles, hrest⟩ := exists_tiles s.buffer 0
  obtain ⟨front, hfront, hstop, -⟩ := htiles.replace
  obtain ⟨⟨fault, place⟩, hfault, rfl⟩ := Option.map_eq_some_iff.mp he
  rw [hfault] at hrest
  have hlength : s.buffer.length = front.length + rest.length := by
    rw [← List.length_append, ← hfront]
  refine ⟨?_, ?_⟩
  · have hplace := (place_of_fault hrest).2
    show place ≤ s.buffer.length
    omega
  · obtain ⟨spaces, c, cs, -, -, hscanned⟩ := exists_fault_of_scanFrom hrest
    rcases (fault_of_scanToken hscanned).2 with ⟨-, -, rfl, -⟩ | ⟨-, rfl, -⟩ <;> exact nofun

end Stands

/-! ## Descents like readers -/

/-- What a descent gives is what a reader gives, or, if `early`, the lexical error where the reader
takes all tokens. -/
inductive Agrees {α : Type} (early : Prop) :
    Except Stop (α × TokenStream) → Except SyntaxError (α × List Token) → Prop
  | ok {x : α} {rest : List Token} {after : TokenStream} (h : s.Stands rest after) :
    Agrees early (.ok (x, after)) (.ok (x, rest))
  | error {e : SyntaxError} (h : s.IsRefusal e) : Agrees early (.error (.refused e)) (.error e)
  | early {x : α} {e : SyntaxError} (hearly : early) (he : s.error = some e) (h : s.IsRefusal e) :
    Agrees early (.error (.refused e)) (.ok (x, []))

/-- Before `tokens`, a descent gives what a reader gives, or, if `early`, the lexical error where
the reader takes all tokens. -/
def Mirrors {α : Type} (early : Prop) (descent : Descent α) (tokens : List Token)
    (found : Except SyntaxError (α × List Token)) : Prop :=
  ∀ stream, s.Stands tokens stream → s.Agrees early (descent stream) found

/-- Before `tokens`, a descent gives what a reader gives. -/
abbrev Reads {α : Type} (descent : Descent α) (tokens : List Token)
    (found : Except SyntaxError (α × List Token)) : Prop :=
  s.Mirrors False descent tokens found

/-- The lexical error, if there is one, is what is found. -/
def Raises {α : Type} (found : Except SyntaxError α) : Prop :=
  ∀ e, s.error = some e → found = .error e

section Mirrors

variable {s} {α β γ δ : Type} {early early' : Prop} {descent : Descent α}
  {tokens rest : List Token}
  {found : Except SyntaxError (α × List Token)} {found' : Except SyntaxError (β × List Token)}

theorem raises_bind {x : Except SyntaxError α} {next : α → Except SyntaxError β}
    (h : s.Raises x) : s.Raises (x >>= next) := by
  intro e he
  rw [h e he]
  rfl

theorem raises_map {x : Except SyntaxError α} {f : α → β} (h : s.Raises x) :
    s.Raises (x.map f) := by
  intro e he
  rw [h e he]
  rfl

theorem mirrors_pure {x : α} : s.Mirrors early (pure x) tokens (.ok (x, tokens)) :=
  fun _ h => .ok h

theorem Reads.mirrors (hreads : s.Reads descent tokens found) :
    s.Mirrors early descent tokens found := by
  intro stream hstream
  have hagrees := hreads stream hstream
  generalize descent stream = outcome at hagrees ⊢
  cases hagrees with
  | ok h => exact .ok h
  | error h => exact .error h
  | early hearly => exact hearly.elim

/-- What comes after a descent begins where it ends. If the lexical error may come early, what
comes after would raise it there. -/
theorem mirrors_bind {k : α → Descent β} (h : s.Mirrors early descent tokens found)
    (hok : ∀ x rest, found = .ok (x, rest) → s.Mirrors early' (k x) rest found')
    (herror : ∀ e, found = .error e → found' = .error e)
    (hend : early → ∀ x, found = .ok (x, []) → s.Raises found') :
    s.Mirrors early' (descent >>= k) tokens found' := by
  intro stream hstream
  have hagrees := h stream hstream
  change s.Agrees early' (descent stream >>= fun r => k r.1 r.2) found'
  generalize descent stream = outcome at hagrees ⊢
  cases hagrees with
  | ok hstands => exact hok _ _ rfl _ hstands
  | error hrefusal =>
    rw [herror _ rfl]
    exact .error hrefusal
  | early hearly he hrefusal =>
    rw [hend hearly _ rfl _ he]
    exact .error hrefusal

theorem mirrors_after {x : α} {k : α → Descent β} (h : s.Reads descent tokens (.ok (x, rest)))
    (hk : s.Mirrors early (k x) rest found') : s.Mirrors early (descent >>= k) tokens found' :=
  mirrors_bind h (fun _ _ hfound => by cases hfound; exact hk) (fun _ => nofun)
    fun hearly => hearly.elim

theorem mirrors_of_error {e : SyntaxError} {k : α → Descent β}
    (h : s.Reads descent tokens (.error e)) : s.Mirrors early (descent >>= k) tokens (.error e) :=
  mirrors_bind h (fun _ _ => nofun) (fun _ hfound => by cases hfound; rfl)
    fun hearly => hearly.elim

/-- A descent and a reader that begin in the same way go on from there. -/
theorem mirrors_next {x : Except SyntaxError γ} {view : γ → α × List Token}
    {next : γ → Except SyntaxError (β × List Token)} {k : α → Descent β}
    (h : s.Mirrors early descent tokens (x.map view))
    (hk : ∀ r, s.Mirrors early' (k (view r).1) (view r).2 (next r))
    (hend : early → ∀ r, (view r).2 = [] → s.Raises (next r)) :
    s.Mirrors early' (descent >>= k) tokens (x >>= next) := by
  cases x with
  | error e =>
    exact mirrors_bind h (fun _ _ => nofun) (fun _ hfound => by cases hfound; rfl)
      fun _ _ => nofun
  | ok r =>
    refine mirrors_bind h (fun x rest hfound => ?_) (fun _ => nofun) fun hearly x hfound => ?_
    · have hr := hk r
      rwa [show view r = (x, rest) from Except.ok.inj hfound] at hr
    · exact hend hearly r (by rw [show view r = (x, []) from Except.ok.inj hfound])

theorem mirrors_next_map {x : Except SyntaxError γ} {view : γ → α × List Token}
    {next : γ → Except SyntaxError δ} {view' : δ → β × List Token} {k : α → Descent β}
    (h : s.Mirrors early descent tokens (x.map view))
    (hk : ∀ r, s.Mirrors early' (k (view r).1) (view r).2 ((next r).map view'))
    (hend : early → ∀ r, (view r).2 = [] → s.Raises (next r)) :
    s.Mirrors early' (descent >>= k) tokens ((x >>= next).map view') := by
  rw [show (x >>= next).map view' = x >>= fun r => (next r).map view' from map_bind view' x next]
  exact mirrors_next h hk fun hearly r hrest => raises_map (hend hearly r hrest)

theorem reads_next {x : Except SyntaxError γ} {view : γ → α × List Token}
    {next : γ → Except SyntaxError δ} {view' : δ → β × List Token} {k : α → Descent β}
    (h : s.Reads descent tokens (x.map view))
    (hk : ∀ r, s.Mirrors early (k (view r).1) (view r).2 ((next r).map view')) :
    s.Mirrors early (descent >>= k) tokens ((x >>= next).map view') :=
  mirrors_next_map h hk fun hearly => hearly.elim

theorem Agrees.map {outcome : Except Stop (α × TokenStream)} (h : s.Agrees early outcome found)
    (f : α → β) : s.Agrees early (outcome.map fun r => (f r.1, r.2))
      (found.map fun r => (f r.1, r.2)) := by
  cases h with
  | ok hstands => exact .ok hstands
  | error hrefusal => exact .error hrefusal
  | early hearly he hrefusal => exact .early hearly he hrefusal

/-- A value made of what is read. -/
theorem mirrors_map {x : Except SyntaxError γ} {view : γ → α × List Token} {f : α → β} {g : γ → δ}
    {view' : δ → β × List Token} (h : s.Mirrors early descent tokens (x.map view))
    (hview : ∀ r, view' (g r) = (f (view r).1, (view r).2)) :
    s.Mirrors early (descent >>= fun a => pure (f a)) tokens
      ((x >>= fun r => pure (g r)).map view') := by
  have hfound : (x >>= fun r => pure (g r)).map view' =
      (x.map view).map fun r => (f r.1, r.2) := by
    cases x with
    | error e => rfl
    | ok r => exact congrArg Except.ok (hview r)
  rw [hfound]
  exact fun stream hstream => (h stream hstream).map f

/-! ## Calls of the stream -/

section Calls

variable {call : TokenStream → Except SyntaxError α × TokenStream}
  {answer : Cursor → Except SyntaxError α × Cursor}

/-- A call that is answered. -/
theorem reads_ask (hcall : ∀ stream, answer stream.cursor = (call stream).map id TokenStream.cursor)
    {x : α} (hrest : rest <:+ tokens)
    (h : ∀ position, ∃ position', answer ⟨s.buffer, tokens, s.error, position⟩ =
      (.ok x, ⟨s.buffer, rest, s.error, position'⟩)) :
    s.Reads (.ask call) tokens (.ok (x, rest)) := by
  intro stream hstream
  obtain ⟨position, hplace⟩ := hstream.cursor
  obtain ⟨position', hanswer⟩ := h position
  have hcursor := hcall stream
  rw [hplace, hanswer] at hcursor
  rw [Descent.ask]
  generalize call stream = outcome at hcursor ⊢
  obtain ⟨_ | y, after⟩ := outcome
  · cases hcursor
  · obtain ⟨hx, hafter⟩ := Prod.mk.inj hcursor
    cases hx
    exact .ok ⟨hstream.scan, hrest.trans hstream.suffix, position', hafter.symm⟩

/-- A call that raises the lexical error. -/
theorem reads_ask_error
    (hcall : ∀ stream, answer stream.cursor = (call stream).map id TokenStream.cursor)
    {e : SyntaxError} (he : s.error = some e)
    (h : ∀ position, (answer ⟨s.buffer, tokens, s.error, position⟩).1 = .error e) :
    s.Reads (.ask call) tokens (.error e) := by
  intro stream hstream
  obtain ⟨position, hplace⟩ := hstream.cursor
  have hcursor := congrArg Prod.fst (hcall stream)
  rw [hplace, h] at hcursor
  rw [Descent.ask]
  generalize call stream = outcome at hcursor ⊢
  obtain ⟨_ | y, after⟩ := outcome
  · cases hcursor
    exact .error (hstream.isRefusal he)
  · cases hcursor

end Calls

theorem reads_peek (offset : Nat) (tokens : List Token) :
    s.Reads (.peek offset) tokens
      ((s.lookAhead offset tokens).map fun _ => (tokens[offset]?, tokens)) := by
  rw [lookAhead]
  split
  · next e hnone he =>
    refine reads_ask_error (TokenStream.peek_cursor offset) he fun _ => ?_
    rw [Cursor.peek]
    simp only [hnone, he]
  · next htaken =>
    refine reads_ask (TokenStream.peek_cursor offset) List.suffix_rfl fun position => ⟨position, ?_⟩
    rw [Cursor.peek]
    split
    · next t ht => simp only [ht]
    · next e hnone he => exact absurd he (htaken _ hnone)
    · next hnone he => simp only [hnone]

/-- A look further ahead, which raises the lexical error if it goes past the tokens. -/
theorem mirrors_peek {offset : Nat} {k : Option Token → Descent β}
    (hraises : ∀ e, s.lookAhead offset tokens = .error e → found' = .error e)
    (hk : s.lookAhead offset tokens = .ok () → s.Mirrors early (k tokens[offset]?) tokens found') :
    s.Mirrors early (.peek offset >>= k) tokens found' := by
  have hpeek := s.reads_peek offset tokens
  cases hlook : s.lookAhead offset tokens with
  | error e =>
    rw [hlook] at hpeek
    rw [hraises e hlook]
    exact mirrors_of_error hpeek
  | ok =>
    rw [hlook] at hpeek
    exact mirrors_after hpeek (hk hlook)

theorem lookAhead_error_le {offset further : Nat} {e : SyntaxError} (hle : offset ≤ further)
    (h : s.lookAhead offset tokens = .error e) : s.lookAhead further tokens = .error e := by
  rw [lookAhead] at h
  split at h
  · next e' hnone he =>
    cases h
    have hmore : tokens[further]? = none :=
      List.getElem?_eq_none ((List.getElem?_eq_none_iff.mp hnone).trans hle)
    rw [lookAhead, hmore, he]
  · cases h

theorem reads_advance (t : Token) (rest : List Token) :
    s.Reads .advance (t :: rest) (.ok (t, rest)) :=
  reads_ask TokenStream.advance_cursor (List.suffix_cons t rest) fun _ => ⟨t.stop, rfl⟩

/-! ## The current token -/

theorem lookAhead_nil_error {e : SyntaxError} (he : s.error = some e) :
    s.lookAhead 0 [] = .error e := by
  rw [lookAhead, he]
  rfl

/-- A descent that looks at the current token and sees `f` of it. -/
def Looks (s : Scan) (descent : Descent α) (f : Option Token → α) : Prop :=
  ∀ tokens, s.Reads descent tokens ((s.lookAhead 0 tokens).map fun _ => (f tokens.head?, tokens))

theorem looks_ok {f : Option Token → α} (h : s.Looks descent f)
    (hplain : tokens = [] → s.error = none) :
    s.Reads descent tokens (.ok (f tokens.head?, tokens)) := by
  cases tokens with
  | cons t rest => exact h (t :: rest)
  | nil =>
    have hnil := h []
    rwa [lookAhead_eq_ok s (hplain rfl)] at hnil

theorem looks_nil_error {f : Option Token → α} {e : SyntaxError} (h : s.Looks descent f)
    (he : s.error = some e) : s.Reads descent [] (.error e) := by
  have hnil := h []
  rwa [lookAhead_nil_error he] at hnil

theorem looks_cons {f : Option Token → α} {k : α → Descent β} {t : Token}
    (h : s.Looks descent f) (hk : s.Mirrors early (k (f (some t))) (t :: rest) found') :
    s.Mirrors early (descent >>= k) (t :: rest) found' :=
  mirrors_after (h (t :: rest)) hk

theorem looks_nil {f : Option Token → α} {k : α → Descent β} (h : s.Looks descent f)
    (hraises : s.Raises found') (hk : s.error = none → s.Mirrors early (k (f none)) [] found') :
    s.Mirrors early (descent >>= k) [] found' := by
  cases he : s.error with
  | none => exact mirrors_after (looks_ok h fun _ => he) (hk he)
  | some e =>
    rw [hraises e he]
    exact mirrors_of_error (looks_nil_error h he)

/-- A look that meets the lexical error where a reader would have gone on without one. -/
theorem looks_nil_early {f : Option Token → α} {k : α → Descent β} {x : β}
    (h : s.Looks descent f) (hk : s.error = none → s.Mirrors True (k (f none)) [] (.ok (x, []))) :
    s.Mirrors True (descent >>= k) [] (.ok (x, [])) := by
  cases he : s.error with
  | none => exact mirrors_after (looks_ok h fun _ => he) (hk he)
  | some e =>
    have herror : s.Mirrors True (descent >>= k) [] (.error e) :=
      mirrors_of_error (looks_nil_error h he)
    intro stream hstream
    have hagrees := herror stream hstream
    generalize (descent >>= k) stream = outcome at hagrees ⊢
    cases hagrees with
    | error hrefusal => exact .early trivial he hrefusal

/-- What is made of a look at the current token without another call. -/
theorem looks_bind {f : Option Token → α} {g : Option Token → β} {k : α → Descent β}
    (h : s.Looks descent f)
    (hk : ∀ tokens, s.Reads (k (f tokens.head?)) tokens (.ok (g tokens.head?, tokens))) :
    s.Looks (descent >>= k) g := by
  intro tokens
  cases tokens with
  | cons t rest => exact looks_cons h (hk (t :: rest))
  | nil =>
    refine looks_nil h (fun e he => ?_) fun he => ?_
    · rw [lookAhead_nil_error he]
      rfl
    · rw [lookAhead_eq_ok s he]
      exact hk []

theorem looks_map {f : Option Token → α} (g : α → β) (h : s.Looks descent f) :
    s.Looks (descent >>= fun x => pure (g x)) fun token? => g (f token?) :=
  looks_bind h fun _ => mirrors_pure

theorem looks_peek : s.Looks (.peek 0) id := by
  intro tokens
  simpa only [List.head?_eq_getElem?, id] using reads_peek 0 tokens

theorem looks_peekWord : s.Looks .peekWord Descent.wordOf := looks_map _ looks_peek

/-- A call that is answered by the current token alone. -/
theorem looks_ask {call : TokenStream → Except SyntaxError α × TokenStream}
    {answer : Cursor → Except SyntaxError α × Cursor} {f : Option Token → α}
    (hcall : ∀ stream, answer stream.cursor = (call stream).map id TokenStream.cursor)
    (hok : ∀ c token?, c.buffer = s.buffer → c.peek 0 = (.ok token?, c) →
      answer c = (.ok (f token?), c))
    (herror : ∀ c e, c.peek 0 = (.error e, c.settle) → answer c = (.error e, c.settle)) :
    s.Looks (.ask call) f := by
  intro tokens
  cases tokens with
  | cons t rest =>
    exact reads_ask hcall List.suffix_rfl fun position => ⟨position, hok _ (some t) rfl rfl⟩
  | nil =>
    cases he : s.error with
    | none =>
      rw [lookAhead_eq_ok s he]
      exact reads_ask hcall List.suffix_rfl fun position =>
        ⟨position, hok _ none rfl (Cursor.peek_of_end (Nat.le_refl 0) he)⟩
    | some e =>
      rw [lookAhead_nil_error he]
      refine reads_ask_error hcall he fun position => ?_
      have hanswer := herror ⟨s.buffer, [], s.error, position⟩ e
        (Cursor.peek_of_pending (Nat.le_refl 0) he)
      rw [hanswer]

theorem looks_offset :
    s.Looks (.ask TokenStream.offset) fun token? =>
      (token?.map Token.start).getD s.buffer.length := by
  refine looks_ask TokenStream.offset_cursor (fun c token? hbuffer hpeek => ?_) fun c e hpeek => ?_
  · rw [Cursor.offset, hpeek, ← hbuffer]
    cases token? <;> rfl
  · rw [Cursor.offset, hpeek]

theorem looks_atEnd : s.Looks (.ask TokenStream.atEnd) Option.isNone := by
  refine looks_ask TokenStream.atEnd_cursor (fun c token? _ hpeek => ?_) fun c e hpeek => ?_
  · rw [Cursor.atEnd, hpeek]
  · rw [Cursor.atEnd, hpeek]

/-- The current token has a first character. -/
theorem looks_peekChar : s.Looks .peekChar fun token? => token?.bind (·.chars.head?) := by
  refine looks_bind looks_peek fun tokens stream hstream => ?_
  cases tokens with
  | nil => exact .ok hstream
  | cons t rest =>
    have hne := isLexeme_ne_nil (hstream.of_mem List.mem_cons_self).1
    obtain ⟨kind, chars, start, stop⟩ := t
    cases chars with
    | nil => exact absurd rfl hne
    | cons c cs => exact .ok hstream

theorem looks_isAt {c : Char} (hc : isMark c = true) :
    s.Looks (.isAt c) fun token? => token?.any (·.isMark c) := by
  refine looks_bind looks_peekChar fun tokens stream hstream => ?_
  have hsame : (tokens.head?.bind (·.chars.head?) == some c) = tokens.head?.any (·.isMark c) := by
    cases tokens with
    | nil => rfl
    | cons t rest =>
      rw [Bool.eq_iff_iff, beq_iff_eq]
      exact (hstream.of_mem List.mem_cons_self).1.head?_eq_iff hc
  rw [← hsame]
  exact .ok hstream

/-! ## Taking and refusing -/

theorem raises_refuse (fault : Option Token → SyntaxFault) :
    s.Raises (.error (s.refuse fault []) : Except SyntaxError α) := by
  intro e he
  rw [refuse, he]

theorem mirrors_stop {e : SyntaxError} (h : ∀ stream, s.Stands tokens stream → s.IsRefusal e) :
    s.Mirrors early (.stop (.refused e) : Descent α) tokens (.error e) :=
  fun stream hstream => .error (h stream hstream)

/-- The current token, or the end, is refused at its place. -/
theorem reads_refuse {fault : Option Token → SyntaxFault}
    (hfault : ∀ token?, fault token? ≠ .unexpectedEnd) (tokens : List Token) :
    s.Reads (.refuse fault : Descent α) tokens (.error (s.refuse fault tokens)) := by
  cases tokens with
  | cons t rest =>
    refine looks_cons looks_peek ?_
    refine mirrors_after (reads_ask (TokenStream.error_cursor _) List.suffix_rfl fun position =>
      ⟨position, rfl⟩) (mirrors_stop fun stream hstream => ⟨?_, hfault _⟩)
    exact (hstream.of_mem List.mem_cons_self).2
  | nil =>
    refine looks_nil looks_peek (raises_refuse fault) fun he => ?_
    have hanswer : ∀ position, Cursor.error (fault none) ⟨s.buffer, [], s.error, position⟩ =
        (.ok (.ofFault (fault none) s.buffer s.buffer.length),
          ⟨s.buffer, [], s.error, position⟩) := by
      intro position
      rw [Cursor.error, Cursor.peek_of_end (Nat.le_refl 0) he]
    rw [refuse, he]
    exact mirrors_after (reads_ask (TokenStream.error_cursor _) List.suffix_rfl fun position =>
      ⟨position, hanswer position⟩) (mirrors_stop fun _ _ => ⟨Nat.le_refl _, hfault none⟩)

theorem reads_take_cons {accepts : Token → Bool} {fault : Option Token → SyntaxFault} {t : Token}
    (h : accepts t = true) (rest : List Token) :
    s.Reads (.take accepts fault) (t :: rest) (.ok (t, rest)) := by
  refine looks_cons looks_peek ?_
  rw [id, Option.any_some, if_pos h]
  exact reads_advance t rest

theorem reads_take_refuse {accepts : Token → Bool} {fault : Option Token → SyntaxFault} {t : Token}
    (hfault : ∀ token?, fault token? ≠ .unexpectedEnd) (h : ¬ accepts t = true)
    (rest : List Token) :
    s.Reads (.take accepts fault) (t :: rest) (.error (s.refuse fault (t :: rest))) := by
  refine looks_cons looks_peek ?_
  rw [id, Option.any_some, if_neg h]
  exact reads_refuse hfault _

/-- No token is taken past the last one. -/
theorem reads_take {accepts : Token → Bool} {fault : Option Token → SyntaxFault}
    (hfault : ∀ token?, fault token? ≠ .unexpectedEnd) (tokens : List Token) :
    s.Reads (.take accepts fault) tokens ((s.take accepts fault tokens).map Reading.ends) := by
  cases tokens with
  | nil => exact looks_nil looks_peek (raises_refuse fault) fun _ => reads_refuse hfault []
  | cons t rest =>
    rw [take]
    split
    · next haccepts => exact reads_take_cons haccepts rest
    · next haccepts => exact reads_take_refuse hfault haccepts rest

theorem reads_word (word : String) (tokens : List Token) :
    s.Reads (.word word) tokens ((s.word word tokens).map Reading.ends) :=
  reads_take (fun _ => by nofun) tokens

theorem reads_mark (mark : Char) (tokens : List Token) :
    s.Reads (.mark mark) tokens ((s.mark mark tokens).map Reading.ends) :=
  reads_take (fun _ => by nofun) tokens

theorem reads_name (tokens : List Token) :
    s.Reads .name tokens ((s.name tokens).map Reading.ends) :=
  reads_next (reads_take (fun _ => by nofun) tokens) fun _ => mirrors_pure

theorem reads_quotedText (tokens : List Token) :
    s.Reads .quotedText tokens ((s.quotedText tokens).map Reading.ends) :=
  reads_next (reads_take (fun _ => by nofun) tokens) fun _ => mirrors_pure

theorem reads_actorKind (tokens : List Token) :
    s.Reads .actorKind tokens ((s.actorKind tokens).map Reading.ends) :=
  reads_next (reads_take (fun _ => by nofun) tokens) fun _ => mirrors_pure

/-- The text that is read as a number is one. -/
theorem reads_number {t : Token} (ht : t.kind = .number) (rest : List Token) :
    s.Reads .number (t :: rest) (.ok (t.number, rest)) := by
  intro stream hstream
  have hlexeme := (hstream.of_mem List.mem_cons_self).1
  have hread : s.Reads .number (t :: rest) (.ok (t.number, rest)) := by
    refine mirrors_after (reads_advance t rest) ?_
    rw [doubleOfText?_of_isLexeme hlexeme ht]
    exact mirrors_pure
  exact hread stream hstream

/-! ## Loops and recursion -/

section Loops

variable {again : Descent Bool} {pass : β → Descent β} {b : β} {k : β → Descent δ}

/-- A loop that is over. -/
theorem reads_passes_over (hagain : s.Reads again tokens (.ok (false, tokens))) :
    s.Reads (.passes again pass b) tokens (.ok (b, tokens)) := by
  intro stream hstream
  have hagrees := hagain stream hstream
  rw [Descent.passes]
  generalize again stream = outcome at hagrees ⊢
  cases hagrees with
  | ok hstands => exact .ok hstands
  | early hearly => exact hearly.elim

theorem mirrors_passes_error {e : SyntaxError} (hagain : s.Reads again tokens (.error e)) :
    s.Mirrors early (.passes again pass b >>= k) tokens (.error e) := by
  intro stream hstream
  have hagrees := hagain stream hstream
  change s.Agrees early (Descent.passes again pass b stream >>= _) _
  rw [Descent.passes]
  generalize again stream = outcome at hagrees ⊢
  cases hagrees with
  | error hrefusal => exact .error hrefusal

/-- A loop that goes on: the pass takes a token, so the loop does not stop. -/
theorem mirrors_passes {x : Result β tokens}
    {next : Reading β tokens → Except SyntaxError (δ × List Token)}
    (hagain : s.Reads again tokens (.ok (true, tokens)))
    (hpass : s.Mirrors early (pass b) tokens (x.map Reading.ends))
    (hmore : ∀ r, s.Mirrors early' (.passes again pass r.value >>= k) r.rest (next r))
    (hend : early → ∀ r, r.rest = [] → s.Raises (next r)) :
    s.Mirrors early' (.passes again pass b >>= k) tokens (x >>= next) := by
  intro stream hstream
  have hagrees := hagain stream hstream
  generalize hlook : again stream = outcome at hagrees
  cases hagrees with
  | early hearly => exact hearly.elim
  | @ok _ _ looked hstands =>
    -- what comes after the pass, with the test that is made there
    let goOn (b : β) : Descent δ := fun after =>
      if after.left < stream.left then (Descent.passes again pass b >>= k) after
      else .error .stalled
    have hloop : ∀ r, s.Mirrors early' (goOn r.value) r.rest (next r) := by
      intro r after hafter
      have hleft : after.left < stream.left := by
        rw [hafter.left_eq, hstream.left_eq]
        exact r.shorter
      rw [show goOn r.value after = (Descent.passes again pass r.value >>= k) after from
        if_pos hleft]
      exact hmore r after hafter
    have hunfold : (Descent.passes again pass b >>= k) stream = (pass b >>= goOn) looked := by
      change (Descent.passes again pass b stream >>= fun r => k r.1 r.2) =
        (pass b looked >>= fun r => goOn r.1 r.2)
      rw [Descent.passes, hlook]
      change (pass b looked >>= fun r => if r.2.left < stream.left then
        Descent.passes again pass r.1 r.2 else .error .stalled) >>= _ = _
      rcases pass b looked with cause | ⟨b', after⟩
      · rfl
      · change (if after.left < stream.left then
          Descent.passes again pass b' after else .error .stalled) >>= _ = goOn b' after
        simp only [goOn]
        split <;> rfl
    rw [hunfold]
    exact mirrors_next hpass hloop hend looked hstands

/-- A loop over the tokens: `step` is what a pass reads, and `loop` what the loop and what comes
after it read together. At the end of the tokens `loop` must raise the lexical error, for the look
that tells whether the loop goes on raises it. -/
theorem mirrors_loop {f : Option Token → Bool} {limit : Nat}
    (step : β → (tokens : List Token) → Result β tokens)
    (loop : β → List Token → Except SyntaxError (δ × List Token))
    (hagain : s.Looks again f)
    (hpass : ∀ b tokens, tokens.length ≤ limit → f tokens.head? = true →
      s.Mirrors True (pass b) tokens ((step b tokens).map Reading.ends))
    (hmore : ∀ b tokens, f tokens.head? = true →
      loop b tokens = step b tokens >>= fun r => loop r.value r.rest)
    (hover : ∀ b tokens, (tokens = [] → s.error = none) → f tokens.head? = false →
      s.Mirrors early (k b) tokens (loop b tokens))
    (hend : ∀ b, s.Raises (loop b [])) (b : β) (tokens : List Token)
    (hlimit : tokens.length ≤ limit) :
    s.Mirrors early (.passes again pass b >>= k) tokens (loop b tokens) := by
  induction hlen : tokens.length using Nat.strongRecOn generalizing tokens b with
  | ind n ih =>
    subst hlen
    by_cases hcut : tokens = [] ∧ ∃ e, s.error = some e
    · obtain ⟨rfl, e, he⟩ := hcut
      rw [hend b e he]
      exact mirrors_passes_error (looks_nil_error hagain he)
    have hplain : tokens = [] → s.error = none := fun hnil =>
      Option.eq_none_iff_forall_ne_some.mpr fun e he => hcut ⟨hnil, e, he⟩
    have hlook : s.Reads again tokens (.ok (f tokens.head?, tokens)) := looks_ok hagain hplain
    cases hf : f tokens.head? with
    | false =>
      rw [hf] at hlook
      exact mirrors_after (reads_passes_over hlook) (hover b tokens hplain hf)
    | true =>
      rw [hf] at hlook
      rw [hmore b tokens hf]
      refine mirrors_passes hlook (hpass b tokens hlimit hf) (fun r => ?_) fun _ r hrest => ?_
      · exact ih r.rest.length r.shorter r.value r.rest (r.shorter.le.trans hlimit) rfl
      · rw [hrest]
        exact hend r.value

/-- A call that must take a token and does. -/
theorem mirrors_taking {x : Except SyntaxError γ} {view : γ → α × List Token}
    (h : s.Mirrors early descent tokens (x.map view))
    (hless : ∀ r, (view r).2.length < tokens.length) :
    s.Mirrors early (.taking descent) tokens (x.map view) := by
  intro stream hstream
  have hagrees := h stream hstream
  change s.Agrees early (descent stream >>= fun r =>
    if r.2.left < stream.left then .ok r else .error .stalled) _
  cases x with
  | error e =>
    generalize descent stream = outcome at hagrees ⊢
    cases hagrees with
    | error hrefusal => exact .error hrefusal
  | ok r =>
    have hr := hless r
    change s.Agrees early (descent stream) (.ok (view r)) at hagrees
    change s.Agrees early _ (.ok (view r))
    generalize view r = taken at hagrees hr ⊢
    generalize descent stream = outcome at hagrees ⊢
    cases hagrees with
    | early hearly he hrefusal => exact .early hearly he hrefusal
    | @ok x rest after hstands =>
      have hleft : after.left < stream.left := by
        rw [hstands.left_eq, hstream.left_eq]
        exact hr
      change s.Agrees early (if after.left < stream.left then .ok (x, after) else .error .stalled) _
      rw [if_pos hleft]
      exact .ok hstands

/-- A reader that calls itself only with tokens taken does not stop there. What comes after its
calls may be counted in. -/
theorem mirrors_recursive {reader : Descent α → Descent α} {k : α → Descent β}
    (found : List Token → Except SyntaxError (β × List Token))
    (h : ∀ inner tokens,
      (∀ fewer, fewer.length < tokens.length → s.Mirrors early (inner >>= k) fewer (found fewer)) →
      s.Mirrors early (reader inner >>= k) tokens (found tokens)) (tokens : List Token) :
    s.Mirrors early (.recursive reader >>= k) tokens (found tokens) := by
  induction hlen : tokens.length using Nat.strongRecOn generalizing tokens with
  | ind n ih =>
    subst hlen
    intro stream hstream
    let inner : Descent α := fun deeper =>
      if deeper.left < stream.left then Descent.recursive reader deeper else .error .stalled
    have hunfold : (Descent.recursive reader >>= k) stream = (reader inner >>= k) stream := by
      change (Descent.recursive reader stream >>= _) = (reader inner stream >>= _)
      rw [Descent.recursive]
    rw [hunfold]
    refine h inner tokens (fun fewer hfewer deeper hdeeper => ?_) stream hstream
    have hleft : deeper.left < stream.left := by
      rw [hdeeper.left_eq, hstream.left_eq]
      exact hfewer
    have hinner : (inner >>= k) deeper = (Descent.recursive reader >>= k) deeper := by
      change (inner deeper >>= _) = (Descent.recursive reader deeper >>= _)
      rw [show inner deeper = Descent.recursive reader deeper from if_pos hleft]
    rw [hinner]
    exact ih fewer.length hfewer fewer rfl deeper hdeeper

end Loops

end Mirrors

end Scan

end RoleFlow
