import RoleFlow.Source.Stream

/-!
# A stream answers like a cursor over all tokens

A stream scans its buffer no further than it is asked to look. What it has scanned ahead does not
show: it answers like a cursor that holds all tokens left, and the lexical error that ends them
until that error has been raised.

Main definitions:
* `Cursor`: the tokens left, and the error that has not been raised.
* `StreamMachine`: the calls that streams and cursors answer.
* `TokenStream.cursor`: what a stream stands for.

Results:
* `cursor_of_fill_ok`, `cursor_of_fill_error`: what scanning ahead does to the cursor.
* `peek_cursor`: looking ahead is looking ahead in the cursor.
* `answers_cursor`: what a stream answers is told by its cursor.
* `answers_ofBuffer`: the stream of a buffer answers like the cursor over its tokens.
-/

namespace RoleFlow

/-! ## Cursors -/

/-- The tokens left of a buffer, and the lexical error after them unless it has been raised.
`position` is the end of the last consumed token. -/
structure Cursor where
  buffer : List Char
  remaining : List Token
  pending : Option SyntaxError
  position : Nat

namespace Cursor

/-- The cursor before the first token. -/
def ofScan (s : Scan) : Cursor := ⟨s.buffer, s.tokens, s.error, 0⟩

/-- The cursor once its error has been raised. -/
def settle (c : Cursor) : Cursor := { c with pending := none }

/-- The token `offset` places ahead. Where there is none the error is raised, once. -/
def peek (offset : Nat) (c : Cursor) : Except SyntaxError (Option Token) × Cursor :=
  match c.remaining[offset]?, c.pending with
  | some token, _ => (.ok (some token), c)
  | none, some e => (.error e, c.settle)
  | none, none => (.ok none, c)

/-- Where the current token begins, or where the buffer ends. -/
def offset (c : Cursor) : Except SyntaxError Nat × Cursor :=
  match c.peek 0 with
  | (.ok (some token), c) => (.ok token.start, c)
  | (.ok none, c) => (.ok c.buffer.length, c)
  | (.error e, c) => (.error e, c)

/-- Whether no token is left. -/
def atEnd (c : Cursor) : Except SyntaxError Bool × Cursor :=
  match c.peek 0 with
  | (.ok token?, c) => (.ok token?.isNone, c)
  | (.error e, c) => (.error e, c)

/-- The error with the given fault at the current token, or at the end of the buffer. -/
def error (fault : SyntaxFault) (c : Cursor) : Except SyntaxError SyntaxError × Cursor :=
  match c.peek 0 with
  | (.ok (some token), c) => (.ok (.ofFault fault c.buffer token.start), c)
  | (.ok none, c) => (.ok (.ofFault fault c.buffer c.buffer.length), c)
  | (.error e, c) => (.error e, c)

/-- Consumes the current token. -/
def advance (c : Cursor) : Except SyntaxError Token × Cursor :=
  match c.peek 0 with
  | (.ok (some token), c) =>
    (.ok token, { c with remaining := c.remaining.tail, position := token.stop })
  | (.ok none, c) => (.error (.ofFault .unexpectedEnd c.buffer c.buffer.length), c)
  | (.error e, c) => (.error e, c)

theorem peek_of_pending {offset : Nat} {c : Cursor} {e : SyntaxError}
    (h : c.remaining.length ≤ offset) (he : c.pending = some e) :
    c.peek offset = (.error e, c.settle) := by
  rw [peek, List.getElem?_eq_none h, he]

theorem peek_of_end {offset : Nat} {c : Cursor} (h : c.remaining.length ≤ offset)
    (hnone : c.pending = none) : c.peek offset = (.ok none, c) := by
  rw [peek, List.getElem?_eq_none h, hnone]

/-- Looking ahead changes nothing unless it raises the error. -/
theorem eq_of_peek_ok {offset : Nat} {c c' : Cursor} {token? : Option Token}
    (h : c.peek offset = (.ok token?, c')) : c' = c := by
  unfold peek at h
  split at h
  · cases h
    rfl
  · cases h
  · cases h
    rfl

end Cursor

/-! ## Calls and answers -/

/-- A call of a stream. -/
inductive StreamCall where
  | peek (offset : Nat)
  | advance
  | atEnd
  | offset
  | error (message : String)

/-- What a call gives. An error that is asked for is given, not raised. -/
inductive StreamAnswer where
  | token (token? : Option Token)
  | flag (isEnd : Bool)
  | place (offset : Nat)
  | error (e : SyntaxError)

/-- How the calls of a stream are answered in states of type `σ`. -/
structure StreamMachine (σ : Type) where
  peek : Nat → σ → Except SyntaxError (Option Token) × σ
  advance : σ → Except SyntaxError Token × σ
  atEnd : σ → Except SyntaxError Bool × σ
  offset : σ → Except SyntaxError Nat × σ
  error : SyntaxFault → σ → Except SyntaxError SyntaxError × σ
  position : σ → Nat

namespace StreamMachine

variable {σ : Type}

/-- What a call gives or raises, and the state after it. -/
def answer (m : StreamMachine σ) (s : σ) : StreamCall → Except SyntaxError StreamAnswer × σ
  | .peek offset => (m.peek offset s).map (Except.map .token) id
  | .advance => (m.advance s).map (Except.map fun token => .token (some token)) id
  | .atEnd => (m.atEnd s).map (Except.map .flag) id
  | .offset => (m.offset s).map (Except.map .place) id
  | .error message => (m.error (.other message) s).map (Except.map .error) id

/-- What each call gives or raises, with the position after it. -/
def answers (m : StreamMachine σ) :
    σ → List StreamCall → List (Except SyntaxError StreamAnswer × Nat)
  | _, [] => []
  | s, call :: calls =>
    ((m.answer s call).1, m.position (m.answer s call).2) :: m.answers (m.answer s call).2 calls

end StreamMachine

/-- The calls of a cursor. -/
def Cursor.machine : StreamMachine Cursor :=
  ⟨Cursor.peek, Cursor.advance, Cursor.atEnd, Cursor.offset, Cursor.error, Cursor.position⟩

namespace TokenStream

/-- The calls of a stream. -/
def machine : StreamMachine TokenStream :=
  ⟨peek, advance, atEnd, offset, error, position⟩

/-! ## What a stream stands for -/

/-- The cursor with the tokens of a stream: those scanned ahead, and those that scanning the rest
of the buffer finds. -/
def cursor (s : TokenStream) : Cursor :=
  let (later, fault?) := scanFrom s.unread s.next
  ⟨s.buffer, s.lookahead ++ later,
    fault?.map fun (fault, position) => .ofFault fault s.buffer position, s.position⟩

theorem cursor_ofBuffer (buffer : List Char) :
    (ofBuffer buffer).cursor = .ofScan (scan buffer) := rfl

theorem cursor_of_token {s : TokenStream} {token : Token} {rest : List Char}
    {shorter : rest.length < s.unread.length}
    (h : scanNext s.unread s.next = .token token rest shorter) :
    { s with unread := rest, next := token.stop, lookahead := s.lookahead ++ [token] }.cursor =
      s.cursor := by
  have hscan : scanFrom s.unread s.next =
      (token :: (scanFrom rest token.stop).1, (scanFrom rest token.stop).2) := by
    rw [scanFrom, h]
  simp only [cursor, hscan, List.append_assoc, List.singleton_append]

theorem length_lookahead_le (s : TokenStream) :
    s.lookahead.length ≤ s.cursor.remaining.length := by
  simp only [cursor, List.length_append]
  omega

theorem cursor_exhaust (s : TokenStream) :
    s.exhaust.cursor = ⟨s.buffer, s.lookahead, none, s.position⟩ := by
  have hscan : scanFrom [] s.next = ([], none) := by
    rw [scanFrom]
    rfl
  simp only [cursor, exhaust, hscan, List.append_nil, Option.map_none]

theorem cursor_of_fault {s : TokenStream} {fault : SyntaxFault} {position : Nat}
    (h : scanNext s.unread s.next = .fault fault position) :
    s.cursor = { s.exhaust.cursor with pending := some (.ofFault fault s.buffer position) } := by
  have hscan : scanFrom s.unread s.next = ([], some (fault, position)) := by
    rw [scanFrom, h]
  rw [cursor_exhaust]
  simp only [cursor, hscan, List.append_nil, Option.map_some]

theorem cursor_of_finished {s : TokenStream} (h : scanNext s.unread s.next = .finished) :
    s.exhaust.cursor = s.cursor := by
  have hscan : scanFrom s.unread s.next = ([], none) := by
    rw [scanFrom, h]
  rw [cursor_exhaust]
  simp only [cursor, hscan, List.append_nil, Option.map_none]

/-! ## Looking ahead -/

/-- Scanning ahead does not change the cursor. It ends with as many tokens as asked for, or with
all there are and no error after them. -/
theorem cursor_of_fill_ok {count : Nat} {s s' : TokenStream} (h : s.fill count = (.ok (), s')) :
    s'.cursor = s.cursor ∧
      (s.lookahead.length + count ≤ s'.lookahead.length ∨
        s'.cursor.remaining = s'.lookahead ∧ s'.cursor.pending = none) := by
  induction count generalizing s with
  | zero =>
    cases h
    exact ⟨rfl, .inl (Nat.le_refl _)⟩
  | succ count ih =>
    rw [fill] at h
    split at h
    · next token rest shorter hnext =>
      obtain ⟨hcursor, henough⟩ := ih h
      refine ⟨hcursor.trans (cursor_of_token hnext), henough.imp_left fun hle => ?_⟩
      rw [List.length_append, List.length_singleton] at hle
      omega
    · cases h
    · next hnext =>
      cases h
      rw [cursor_exhaust]
      exact ⟨(cursor_exhaust s).symm.trans (cursor_of_finished hnext), .inr ⟨rfl, rfl⟩⟩

/-- An error met on scanning ahead is that of the cursor. The tokens before it are kept, fewer than
asked for, and the error is not met again. -/
theorem cursor_of_fill_error {count : Nat} {s s' : TokenStream} {e : SyntaxError}
    (h : s.fill count = (.error e, s')) :
    s'.cursor = s.cursor.settle ∧ s.cursor.pending = some e ∧
      s.cursor.remaining.length < s.lookahead.length + count := by
  induction count generalizing s with
  | zero => cases h
  | succ count ih =>
    rw [fill] at h
    split at h
    · next token rest shorter hnext =>
      obtain ⟨hcursor, hpending, hlt⟩ := ih h
      rw [cursor_of_token hnext] at hcursor hpending hlt
      rw [List.length_append, List.length_singleton] at hlt
      exact ⟨hcursor, hpending, by omega⟩
    · next fault position hnext =>
      cases h
      rw [cursor_of_fault hnext, cursor_exhaust]
      exact ⟨rfl, rfl, by simp only; omega⟩
    · cases h

/-- Looking ahead finds, raises and leaves what it does in the cursor. -/
theorem peek_cursor (offset : Nat) (s : TokenStream) :
    s.cursor.peek offset = (s.peek offset).map id cursor := by
  rw [peek]
  split
  · next s' hfill =>
    obtain ⟨hcursor, henough⟩ := cursor_of_fill_ok hfill
    rw [← hcursor, Prod.map_apply, id]
    rcases Nat.lt_or_ge offset s'.lookahead.length with hlt | hge
    · have hremaining : s'.cursor.remaining[offset]? = some s'.lookahead[offset] := by
        simp only [cursor]
        rw [List.getElem?_append_left hlt, List.getElem?_eq_getElem hlt]
      rw [Cursor.peek, hremaining, List.getElem?_eq_getElem hlt]
    · rcases henough with hle | ⟨hremaining, hnone⟩
      · omega
      · rw [Cursor.peek_of_end (hremaining ▸ hge) hnone, List.getElem?_eq_none hge]
  · next e s' hfill =>
    obtain ⟨hcursor, hpending, hlt⟩ := cursor_of_fill_error hfill
    have hle := s.length_lookahead_le
    rw [Cursor.peek_of_pending (by omega) hpending, Prod.map_apply, hcursor, id]

/-! ## The other calls -/

theorem offset_cursor (s : TokenStream) : s.cursor.offset = s.offset.map id cursor := by
  rw [Cursor.offset, peek_cursor, offset]
  rcases s.peek 0 with ⟨_ | _ | _, s'⟩ <;> rfl

theorem atEnd_cursor (s : TokenStream) : s.cursor.atEnd = s.atEnd.map id cursor := by
  rw [Cursor.atEnd, peek_cursor, atEnd]
  rcases s.peek 0 with ⟨_ | _, s'⟩ <;> rfl

theorem error_cursor (fault : SyntaxFault) (s : TokenStream) :
    s.cursor.error fault = (s.error fault).map id cursor := by
  rw [Cursor.error, peek_cursor, error, offset]
  rcases s.peek 0 with ⟨_ | _ | _, s'⟩ <;> rfl

theorem lookahead_of_peek {offset : Nat} {s s' : TokenStream} {token? : Option Token}
    (h : s.peek offset = (.ok token?, s')) : s'.lookahead[offset]? = token? := by
  rw [peek] at h
  split at h
  · cases h
    rfl
  · cases h

/-- Consuming the first token scanned ahead consumes that of the cursor. -/
theorem cursor_consume {s : TokenStream} {token : Token} {more : List Token}
    (h : s.lookahead = token :: more) (position : Nat) :
    { s with lookahead := s.lookahead.drop 1, position }.cursor =
      { s.cursor with remaining := s.cursor.remaining.tail, position } := by
  simp only [cursor, h, List.drop_one, List.cons_append, List.tail_cons]

/-- At the end an error is at the end of the buffer. -/
theorem error_of_end {s : TokenStream} (h : s.cursor.peek 0 = (.ok none, s.cursor))
    (fault : SyntaxFault) :
    ∃ s', s.error fault = (.ok (.ofFault fault s.cursor.buffer s.cursor.buffer.length), s') ∧
      s'.cursor = s.cursor := by
  have herror := error_cursor fault s
  rw [Cursor.error, h] at herror
  rcases hfound : s.error fault with ⟨e | e, s'⟩
  · rw [hfound] at herror
    cases herror
  · rw [hfound] at herror
    obtain ⟨he, hs⟩ := Prod.mk.inj herror
    obtain rfl := Except.ok.inj he
    exact ⟨s', rfl, hs.symm⟩

theorem advance_cursor (s : TokenStream) : s.cursor.advance = s.advance.map id cursor := by
  rw [Cursor.advance, advance]
  have hcursor := peek_cursor 0 s
  rcases hpeek : s.peek 0 with ⟨e | _ | token, s'⟩
  · rw [hcursor, hpeek]
    rfl
  · rw [hpeek] at hcursor
    have hend : s'.cursor.peek 0 = (.ok none, s'.cursor) := by
      rwa [← Cursor.eq_of_peek_ok hcursor] at hcursor
    obtain ⟨s'', herror, hsame⟩ := error_of_end hend .unexpectedEnd
    simp only [hcursor, Prod.map_apply, id, herror, hsame]
  · obtain ⟨more, hlook⟩ : ∃ more, s'.lookahead = token :: more := by
      have hfirst := lookahead_of_peek hpeek
      cases hlook : s'.lookahead with
      | nil =>
        rw [hlook] at hfirst
        cases hfirst
      | cons other more =>
        rw [hlook] at hfirst
        exact ⟨more, congrArg (· :: more) (Option.some.inj hfirst)⟩
    rw [hcursor, hpeek, Prod.map_apply, Prod.map_apply, cursor_consume hlook]
    rfl

/-! ## Runs of calls -/

/-- A call is answered as in the cursor, and leaves what it leaves there. -/
theorem answer_cursor (s : TokenStream) (call : StreamCall) :
    Cursor.machine.answer s.cursor call = (machine.answer s call).map id cursor := by
  cases call with
  | peek offset =>
    exact congrArg (Prod.map (Except.map StreamAnswer.token) id) (peek_cursor offset s)
  | advance =>
    exact congrArg (Prod.map (Except.map fun token => StreamAnswer.token (some token)) id)
      (advance_cursor s)
  | atEnd => exact congrArg (Prod.map (Except.map StreamAnswer.flag) id) (atEnd_cursor s)
  | offset => exact congrArg (Prod.map (Except.map StreamAnswer.place) id) (offset_cursor s)
  | error message =>
    exact congrArg (Prod.map (Except.map StreamAnswer.error) id) (error_cursor (.other message) s)

/-- What a stream answers is told by its cursor, however far it has scanned. -/
theorem answers_cursor (s : TokenStream) (calls : List StreamCall) :
    machine.answers s calls = Cursor.machine.answers s.cursor calls := by
  induction calls generalizing s with
  | nil => rfl
  | cons call calls ih =>
    rw [StreamMachine.answers, StreamMachine.answers, answer_cursor, Prod.map_fst, Prod.map_snd, ih]
    rfl

/-- The stream of a buffer answers every run of calls like the cursor over all tokens of the
buffer, and shows the same positions. -/
theorem answers_ofBuffer (buffer : List Char) (calls : List StreamCall) :
    machine.answers (ofBuffer buffer) calls =
      Cursor.machine.answers (.ofScan (scan buffer)) calls := by
  rw [answers_cursor, cursor_ofBuffer]

end TokenStream

end RoleFlow
