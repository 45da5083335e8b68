import RoleFlow.Proofs.Accepted

/-!
# Tokens tile the buffer

The tokens of a buffer are cut from its front, with spaces before each of them. A token is as long
as its kind allows, so what is cut from the front stays the same when the characters after it are
replaced by others that do not go on with its last token.

Results:
* `exists_tiles`, `scanFrom_of_tiles`: scanning cuts tokens from the front, as many as there are.
* `Tiles.replace`: other characters after the last token.
* `Tiles.places`: the places of the tokens.
* `scanFrom_moved`: the same characters at another place.
-/

namespace RoleFlow

/-! ## Where a token ends -/

/-- What comes next does not go on with a token of these characters: no character of a word after a
word, and after a number neither a digit nor a first point. -/
def EndsLexeme (kind : TokenKind) (chars rest : List Char) : Prop :=
  ∀ c ∈ rest.head?, match kind with
    | .word => isWordChar c = false
    | .number => isDigit c = false ∧ (c = '.' → '.' ∈ chars)
    | _ => True

theorem endsLexeme_of_endsToken {kind : TokenKind} {rest : List Char} (h : EndsToken kind rest)
    (chars : List Char) : EndsLexeme kind chars rest := by
  intro c hc
  cases kind with
  | word => exact h c hc
  | number => exact ⟨(h c hc).1, fun hpoint => absurd hpoint (h c hc).2⟩
  | text => trivial
  | mark => trivial

theorem endsToken_space (kind : TokenKind) (rest : List Char) : EndsToken kind (' ' :: rest) := by
  cases kind with
  | word => rintro c ⟨⟩; decide
  | number => rintro c ⟨⟩; decide
  | text => trivial
  | mark => trivial

theorem head?_dropWhile_isWordChar (cs : List Char) :
    ∀ c ∈ (cs.dropWhile isWordChar).head?, isWordChar c = false := by
  intro c hc
  have hnot := List.head?_dropWhile_not isWordChar cs
  rw [Option.mem_def.mp hc] at hnot
  simpa using hnot

theorem head?_dropWhile_isDigit (cs : List Char) :
    ∀ c ∈ (cs.dropWhile isDigit).head?, isDigit c = false := by
  intro c hc
  have hnot := List.head?_dropWhile_not isDigit cs
  rw [Option.mem_def.mp hc] at hnot
  simpa using hnot

theorem endsLexeme_splitNumber (first : Char) (input : List Char) :
    EndsLexeme .number (first :: (splitNumber input).1) (splitNumber input).2 := by
  unfold splitNumber
  dsimp only
  split
  · next rest _ => exact fun c hc => ⟨head?_dropWhile_isDigit rest c hc, fun _ => by simp⟩
  · next hpoint =>
    refine fun c hc => ⟨head?_dropWhile_isDigit input c hc, ?_⟩
    rintro rfl
    obtain ⟨rest, hrest⟩ := List.head?_eq_some_iff.mp hc
    exact absurd hrest (hpoint rest)

/-- A token is a lexeme in its place, and what comes after it does not go on with it. -/
theorem token_of_scanToken {first : Char} {input rest : List Char} {position : Nat} {token : Token}
    {hshorter} (h : scanToken first input position = .token token rest hshorter) :
    token.start = position ∧ token.stop = position + token.chars.length ∧
      EndsLexeme token.kind token.chars rest := by
  have hsplit : ∀ {kind : TokenKind} {more : List Char × List Char} {hmore},
      Scanned.ofSplit kind position first input more hmore = .token token rest hshorter →
      EndsLexeme kind (first :: more.1) more.2 →
      token.start = position ∧ token.stop = position + token.chars.length ∧
        EndsLexeme token.kind token.chars rest := by
    intro kind more hmore heq hends
    cases heq
    exact ⟨rfl, rfl, hends⟩
  unfold scanToken at h
  split at h
  · exact hsplit h (head?_dropWhile_isWordChar input)
  split at h
  · exact hsplit h (endsLexeme_splitNumber first input)
  split at h
  · split at h
    · exact hsplit h fun _ _ => trivial
    · cases h
  split at h
  · exact hsplit h fun _ _ => trivial
  · cases h

/-- The token that is met next, with the spaces before it. -/
theorem token_of_scanNext {input rest : List Char} {position : Nat} {token : Token} {hshorter}
    (h : scanNext input position = .token token rest hshorter) :
    ∃ spaces, input = List.replicate spaces ' ' ++ token.chars ++ rest ∧
      token = ⟨token.kind, token.chars, position + spaces,
        position + spaces + token.chars.length⟩ ∧
      IsLexeme token.kind token.chars ∧ EndsLexeme token.kind token.chars rest := by
  induction input generalizing position with
  | nil => cases h
  | cons c cs ih =>
    rw [scanNext] at h
    split at h
    · next hspace =>
      split at h
      · next htoken =>
        cases h
        obtain ⟨spaces, hinput, hplace, hlexeme, hends⟩ := ih htoken
        refine ⟨spaces + 1, ?_, ?_, hlexeme, hends⟩
        · rw [hspace, List.replicate_succ, List.cons_append, List.cons_append, ← hinput]
        · rw [show position + (spaces + 1) = position + 1 + spaces by omega]
          exact hplace
      · cases h
      · cases h
    · obtain ⟨hlexeme, htiles⟩ := of_scanToken h
      obtain ⟨hstart, hstop, hends⟩ := token_of_scanToken h
      refine ⟨0, htiles.symm, ?_, hlexeme, hends⟩
      obtain ⟨kind, chars, start, stop⟩ := token
      simp only at hstart hstop
      subst hstart hstop
      rfl

theorem splitNumber_of_point {whole digits rest : List Char}
    (hwhole : ∀ d ∈ whole, isDigit d = true)
    (hdigits : ∀ d ∈ digits, isDigit d = true) (hrest : ∀ c ∈ rest.head?, isDigit c = false) :
    splitNumber (whole ++ '.' :: digits ++ rest) = (whole ++ '.' :: digits, rest) := by
  obtain ⟨htake, hdrop⟩ : (whole ++ '.' :: (digits ++ rest)).takeWhile isDigit = whole ∧
      (whole ++ '.' :: (digits ++ rest)).dropWhile isDigit = '.' :: (digits ++ rest) :=
    takeWhile_append_of_head hwhole fun c hc => by cases hc; decide
  obtain ⟨htake', hdrop'⟩ := takeWhile_append_of_head hdigits hrest
  rw [List.append_assoc, List.cons_append, splitNumber, htake, hdrop]
  simp only [htake', hdrop']

/-- A lexeme in front is scanned as a token, if nothing goes on with it. -/
theorem scanNext_of_endsLexeme {kind : TokenKind} {cs rest : List Char} (h : IsLexeme kind cs)
    (hrest : EndsLexeme kind cs rest) (position : Nat) :
    ∃ hshorter, scanNext (cs ++ rest) position =
      .token ⟨kind, cs, position, position + cs.length⟩ rest hshorter := by
  cases h with
  | word hc hcs => exact scanNext_lexeme (.word hc hcs) hrest position
  | text h => exact scanNext_lexeme (.text h) trivial position
  | mark h => exact scanNext_lexeme (.mark h) trivial position
  | @number c whole fraction hc hwhole hfraction =>
    by_cases hpoint : ∃ digits, fraction = '.' :: digits ∧ ∀ d ∈ digits, isDigit d = true
    · obtain ⟨digits, rfl, hdigits⟩ := hpoint
      have hspace : c ≠ ' ' := by
        rintro rfl
        exact absurd hc (by decide)
      rw [List.cons_append, scanNext, if_neg hspace, scanToken,
        if_neg (by rw [not_isLetter_of_isDigit hc]; decide), if_pos hc]
      exact ofSplit_eq _ (splitNumber_of_point hwhole hdigits fun d hd => (hrest d hd).1)
    · obtain rfl := hfraction.resolve_right hpoint
      refine scanNext_lexeme (.number hc hwhole hfraction) (fun d hd => ?_) position
      refine ⟨(hrest d hd).1, fun hd' => ?_⟩
      -- none of the digits is a point
      have hmem := (hrest d hd).2 hd'
      rw [List.append_nil] at hmem
      have hdigit : isDigit '.' = true := by
        rcases List.mem_cons.mp hmem with rfl | hmem
        · exact hc
        · exact hwhole _ hmem
      exact absurd hdigit (by decide)

theorem toNat_head?_lexeme {kind : TokenKind} {cs : List Char} (h : IsLexeme kind cs) :
    ∀ c ∈ cs.head?, 0x21 ≤ c.toNat ∧ c.toNat ≤ 0x7E := by
  intro c hc
  by_cases hkind : kind = .text
  · subst hkind
    cases h with
    | text h =>
      cases hc
      decide
  · obtain ⟨hlow, hhigh, -⟩ := toNat_of_isLexeme h hkind (List.mem_of_head? hc)
    exact ⟨hlow, hhigh⟩

theorem toNat_getLast?_lexeme {kind : TokenKind} {cs : List Char} (h : IsLexeme kind cs) :
    ∀ c ∈ cs.getLast?, 0x21 ≤ c.toNat ∧ c.toNat ≤ 0x7E ∧ c.toNat ≠ 0x2F := by
  intro c hc
  by_cases hkind : kind = .text
  · subst hkind
    cases h with
    | text h =>
      rw [← List.cons_append, List.getLast?_concat] at hc
      cases hc
      decide
  · exact toNat_of_isLexeme h hkind (List.mem_of_getLast? hc)

theorem getLast?_lexeme {kind : TokenKind} {cs : List Char} (h : IsLexeme kind cs) :
    cs.getLast? ≠ some ' ' := by
  intro hspace
  have hlow := (toNat_getLast?_lexeme h ' ' hspace).1
  exact absurd hlow (by decide)

theorem scanFrom_spaces (spaces : Nat) (cs : List Char) (position : Nat) :
    scanFrom (List.replicate spaces ' ' ++ cs) position = scanFrom cs (position + spaces) := by
  induction spaces generalizing position with
  | zero => rfl
  | succ n ih =>
    rw [List.replicate_succ, List.cons_append, Piece.scanFrom_space, ih]
    congr 1
    omega

/-! ## Scans -/

theorem scan_tokens (buffer : List Char) : (scan buffer).tokens = (scanFrom buffer 0).1 := rfl

theorem error_scan_eq_none_iff {buffer : List Char} :
    (scan buffer).error = none ↔ (scanFrom buffer 0).2 = none :=
  Option.map_eq_none_iff

/-! ## Tokens cut from the front -/

/-- The tokens are cut from the front of the input, which begins at `start`, with spaces before each
of them; `rest` is left, which begins at `stop`. -/
inductive Tiles : (start : Nat) → (input : List Char) → List Token → (stop : Nat) →
    (rest : List Char) → Prop
  | nil {position : Nat} {input : List Char} : Tiles position input [] position input
  | cons {position spaces stop : Nat} {kind : TokenKind} {chars input rest : List Char}
    {tokens : List Token} (hlexeme : IsLexeme kind chars) (hends : EndsLexeme kind chars input)
    (tail : Tiles (position + spaces + chars.length) input tokens stop rest) :
    Tiles position (List.replicate spaces ' ' ++ chars ++ input)
      (⟨kind, chars, position + spaces, position + spaces + chars.length⟩ :: tokens) stop rest

/-- The tokens of what is tiled are the tiles, and the tokens of what is left. -/
theorem scanFrom_of_tiles {start stop : Nat} {input rest : List Char} {tokens : List Token}
    (h : Tiles start input tokens stop rest) :
    scanFrom input start = (tokens ++ (scanFrom rest stop).1, (scanFrom rest stop).2) := by
  induction h with
  | nil => rfl
  | @cons position spaces stop kind chars input rest tokens hlexeme hends tail ih =>
    obtain ⟨_, hnext⟩ := scanNext_of_endsLexeme hlexeme hends (position + spaces)
    rw [List.append_assoc, scanFrom_spaces, scanFrom, hnext]
    dsimp only
    rw [ih]
    rfl

/-- What is scanned is tiled, up to where no token comes next. -/
theorem exists_tiles (input : List Char) (start : Nat) :
    ∃ stop rest, Tiles start input (scanFrom input start).1 stop rest ∧
      scanFrom rest stop = ([], (scanFrom input start).2) := by
  fun_induction scanFrom input start with
  | case1 input position token rest shorter hnext tokens fault? hmore ih =>
    obtain ⟨spaces, hinput, hplace, hlexeme, hends⟩ := token_of_scanNext hnext
    obtain ⟨stop, left, htiles, hleft⟩ := ih
    rw [hmore] at htiles hleft
    have hstop : token.stop = position + spaces + token.chars.length := by rw [hplace]
    rw [hstop] at htiles
    refine ⟨stop, left, ?_, hleft⟩
    rw [hinput]
    have hcons := Tiles.cons hlexeme hends htiles
    rwa [← hplace] at hcons
  | case2 input position fault place hnext =>
    refine ⟨position, input, .nil, ?_⟩
    rw [scanFrom, hnext]
  | case3 input position hnext =>
    refine ⟨position, input, .nil, ?_⟩
    rw [scanFrom, hnext]

namespace Tiles

variable {start stop : Nat} {input rest : List Char} {tokens more : List Token}

theorem split (h : Tiles start input (tokens ++ more) stop rest) :
    ∃ place left, Tiles start input tokens place left ∧ Tiles place left more stop rest := by
  induction tokens generalizing start input with
  | nil => exact ⟨start, input, .nil, h⟩
  | cons t ts ih =>
    cases h with
    | cons hlexeme hends tail =>
      obtain ⟨place, left, hfirst, hmore⟩ := ih tail
      exact ⟨place, left, .cons hlexeme hends hfirst, hmore⟩

/-- What is tiled may be followed by anything that does not go on with a token. -/
theorem replace (h : Tiles start input tokens stop rest) :
    ∃ front, input = front ++ rest ∧ stop = start + front.length ∧
      front.getLast? ≠ some ' ' ∧
      ∀ other, (∀ kind, EndsToken kind other) → Tiles start (front ++ other) tokens stop other := by
  induction h with
  | nil => exact ⟨[], rfl, rfl, by simp, fun _ _ => .nil⟩
  | @cons position spaces stop kind chars input rest tokens hlexeme hends tail ih =>
    obtain ⟨front, rfl, hstop, hlast, hreplace⟩ := ih
    refine ⟨List.replicate spaces ' ' ++ chars ++ front, by simp, ?_, ?_, fun other hother => ?_⟩
    · rw [hstop]
      simp only [List.length_append, List.length_replicate]
      omega
    · rw [List.getLast?_append]
      cases hfront : front.getLast? with
      | some c => rwa [hfront] at hlast
      | none =>
        rw [Option.none_or, List.getLast?_append_of_ne_nil _ (isLexeme_ne_nil hlexeme)]
        exact getLast?_lexeme hlexeme
    · rw [List.append_assoc]
      refine .cons hlexeme ?_ (hreplace other hother)
      -- after a token comes what came before, or the other characters
      cases front with
      | nil => exact endsLexeme_of_endsToken (hother kind) chars
      | cons c cs => exact hends

/-- The places of the tokens: each begins where the one before it ends, or later. -/
theorem places (h : Tiles start input tokens stop rest) :
    start ≤ stop ∧ tokens.Pairwise (fun a b => a.stop ≤ b.start) ∧
      ∀ t ∈ tokens, start ≤ t.start ∧ t.start < t.stop ∧ t.stop ≤ stop := by
  induction h with
  | nil => exact ⟨le_rfl, .nil, fun t ht => by cases ht⟩
  | @cons position spaces stop kind chars input rest tokens hlexeme hends tail ih =>
    obtain ⟨hle, hpairwise, hplaces⟩ := ih
    have hlength : 0 < chars.length := List.length_pos_of_ne_nil (isLexeme_ne_nil hlexeme)
    refine ⟨by omega, List.pairwise_cons.mpr ⟨fun t ht => (hplaces t ht).1, hpairwise⟩, ?_⟩
    refine List.forall_mem_cons.mpr ⟨⟨?_, ?_, hle⟩, fun t ht => ?_⟩
    · show position ≤ position + spaces
      omega
    · show position + spaces < position + spaces + chars.length
      omega
    · obtain ⟨hstart, hlt, hstop⟩ := hplaces t ht
      exact ⟨by omega, hlt, hstop⟩

/-- The characters of a token stand together in what is tiled. -/
theorem isInfix (h : Tiles start input tokens stop rest) :
    ∀ t ∈ tokens, t.chars <:+: input := by
  induction h with
  | nil => exact fun t ht => by cases ht
  | @cons position spaces stop kind chars input rest tokens hlexeme hends tail ih =>
    refine List.forall_mem_cons.mpr ⟨⟨_, _, rfl⟩, fun t ht => ?_⟩
    exact (ih t ht).trans (List.suffix_append _ _).isInfix

end Tiles

/-! ## Where no token comes next -/

theorem scanToken_ne_finished {first : Char} {input : List Char} {position : Nat} :
    scanToken first input position ≠ .finished := by
  intro h
  simp only [scanToken, Scanned.ofSplit] at h
  split at h <;> try cases h
  split at h <;> try cases h
  split at h
  · split at h <;> cases h
  · split at h <;> cases h

theorem place_of_scanToken {first : Char} {input : List Char} {position place : Nat}
    {fault : SyntaxFault} (h : scanToken first input position = .fault fault place) :
    position ≤ place ∧ place ≤ position + (input.length + 1) := by
  simp only [scanToken, Scanned.ofSplit] at h
  split at h <;> try cases h
  split at h <;> try cases h
  split at h
  · split at h <;> cases h
    omega
  · split at h <;> cases h
    omega

theorem scanNext_of_ne_space {c : Char} (h : c ≠ ' ') (cs : List Char) (position : Nat) :
    scanNext (c :: cs) position = scanToken c cs position := by
  rw [scanNext, if_neg h]

/-- Where neither a token nor a fault comes next, there are only spaces. -/
theorem eq_spaces_of_scanFrom {input : List Char} {position : Nat}
    (h : scanFrom input position = ([], none)) : ∃ spaces, input = List.replicate spaces ' ' := by
  induction input generalizing position with
  | nil => exact ⟨0, rfl⟩
  | cons c cs ih =>
    by_cases hspace : c = ' '
    · subst hspace
      rw [Piece.scanFrom_space] at h
      obtain ⟨spaces, rfl⟩ := ih h
      exact ⟨spaces + 1, rfl⟩
    · rw [scanFrom, scanNext_of_ne_space hspace] at h
      split at h
      · cases h
      · cases h
      · next hfinished => exact absurd hfinished scanToken_ne_finished

/-- A lexical error lies in what is left. -/
theorem place_of_fault {input : List Char} {position place : Nat} {fault : SyntaxFault}
    (h : scanFrom input position = ([], some (fault, place))) :
    position ≤ place ∧ place ≤ position + input.length := by
  induction input generalizing position with
  | nil =>
    rw [scanFrom] at h
    cases h
  | cons c cs ih =>
    rw [List.length_cons]
    by_cases hspace : c = ' '
    · subst hspace
      rw [Piece.scanFrom_space] at h
      obtain ⟨hlow, hhigh⟩ := ih h
      omega
    · rw [scanFrom, scanNext_of_ne_space hspace] at h
      split at h
      · cases h
      · next hfault =>
        cases h
        exact place_of_scanToken hfault
      · cases h

/-! ## The same characters at another place -/

/-- The token `distance` places further on. -/
def Token.moved (distance : Nat) (t : Token) : Token :=
  ⟨t.kind, t.chars, t.start + distance, t.stop + distance⟩

/-- What is met next, `distance` places further on. -/
def Scanned.moved (distance : Nat) {input : List Char} : Scanned input → Scanned input
  | .token t rest shorter => .token (t.moved distance) rest shorter
  | .fault cause place => .fault cause (place + distance)
  | .finished => .finished

theorem scanToken_moved (distance : Nat) (first : Char) (input : List Char) (position : Nat) :
    scanToken first input (position + distance) =
      (scanToken first input position).moved distance := by
  have hstop : ∀ n, position + distance + n = position + n + distance := fun n => by omega
  unfold scanToken
  split
  · simp only [Scanned.ofSplit, Scanned.moved, Token.moved, hstop]
  split
  · simp only [Scanned.ofSplit, Scanned.moved, Token.moved, hstop]
  split
  · split
    · simp only [Scanned.ofSplit, Scanned.moved, Token.moved, hstop]
    · simp only [Scanned.moved, hstop]
  split
  · simp only [Scanned.ofSplit, Scanned.moved, Token.moved, hstop]
  · rfl

theorem scanNext_moved (distance : Nat) (input : List Char) (position : Nat) :
    scanNext input (position + distance) = (scanNext input position).moved distance := by
  induction input generalizing position with
  | nil => rfl
  | cons c cs ih =>
    rw [scanNext, scanNext]
    split
    · rw [show position + distance + 1 = position + 1 + distance by omega, ih]
      cases scanNext cs (position + 1) <;> rfl
    · exact scanToken_moved distance c cs position

/-- The same characters further on have the same tokens, further on. -/
theorem scanFrom_moved (distance : Nat) (input : List Char) (position : Nat) :
    scanFrom input (position + distance) =
      ((scanFrom input position).1.map (Token.moved distance),
        (scanFrom input position).2.map fun (fault, place) => (fault, place + distance)) := by
  fun_induction scanFrom input position with
  | case1 input position token rest shorter hnext tokens fault? hmore ih =>
    rw [scanFrom, scanNext_moved, hnext]
    dsimp only [Scanned.moved]
    rw [show (token.moved distance).stop = token.stop + distance from rfl, ih, hmore]
    rfl
  | case2 input position fault place hnext =>
    rw [scanFrom, scanNext_moved, hnext]
    rfl
  | case3 input position hnext =>
    rw [scanFrom, scanNext_moved, hnext]
    rfl

end RoleFlow
