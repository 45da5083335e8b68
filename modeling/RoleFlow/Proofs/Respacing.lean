import RoleFlow.Proofs.Buffers
import RoleFlow.Proofs.Retelling

/-!
# Layout and comments do not matter

The tokens of an accepted document may be written with other blanks and comments between them. The
tokens of a property access have nothing between them; all other ones need something, or two words
would be read as one.

Results:
* `spaced_spread`: tokens with separators between them are a layout.
* `retold_place`: its tokens are the same ones at other places.
* `parse_spread`: it is read as the same program.
-/

namespace RoleFlow

/-- The tokens with separators before, between and after them. -/
def spread (separator : ℕ → List Char) : List Token → List Char
  | [] => separator 0
  | t :: ts => separator 0 ++ t.chars ++ spread (fun i => separator (i + 1)) ts

/-- Whether a token and the one after it belong to one property access, as its first two tokens or
its last two. -/
def InsideAccess (tokens : List Token) (i : ℕ) : Prop :=
  beginsAccess (tokens.drop i) = true ∨ i ≠ 0 ∧ beginsAccess (tokens.drop (i - 1)) = true

instance (tokens : List Token) (i : ℕ) : Decidable (InsideAccess tokens i) :=
  inferInstanceAs (Decidable (_ ∨ _))

/-! ## The layout -/

/-- A separator as a part of a layout. -/
def separatorPieces (separator : List Char) : List Piece :=
  if separator = [] then [] else [.gap separator]

/-- Tokens with separators between them as a layout. -/
def spreadPieces (separator : ℕ → List Char) : List Token → List Piece
  | [] => separatorPieces (separator 0)
  | t :: ts =>
    separatorPieces (separator 0) ++
      .lexeme t.kind t.chars t.chars :: spreadPieces (fun i => separator (i + 1)) ts

theorem raw_separatorPieces (separator : List Char) :
    Piece.raw (separatorPieces separator) = separator := by
  unfold separatorPieces
  split
  · next h => exact h.symm
  · exact List.append_nil separator

theorem raw_spreadPieces (separator : ℕ → List Char) (ts : List Token) :
    Piece.raw (spreadPieces separator ts) = spread separator ts := by
  induction ts generalizing separator with
  | nil => exact raw_separatorPieces _
  | cons t ts ih =>
    rw [spreadPieces, Piece.raw_append, Piece.raw_cons, ih, raw_separatorPieces, spread,
      List.append_assoc]
    rfl

/-- The characters of a token stay as they are, if they come from a buffer. -/
theorem becomes_of_isPrepared {kind : TokenKind} {cs : List Char} (hlexeme : IsLexeme kind cs)
    (h : Source.IsPrepared cs) : Source.Becomes cs cs := by
  obtain ⟨c, cs, rfl⟩ := List.exists_cons_of_ne_nil (isLexeme_ne_nil hlexeme)
  obtain ⟨hlow, hhigh⟩ := toNat_head?_lexeme hlexeme c rfl
  have hlast := toNat_getLast?_lexeme hlexeme _ (List.getLast?_eq_some_getLast (by simp))
  have hbecomes := Source.becomes_collapseBlanks (fun d hd => (h.kept d hd).1) h.commentFree
    (plain_of_toNat hlow hhigh).2 ⟨_, List.getLast?_eq_some_getLast (by simp),
      (plain_of_toNat hlast.1 hlast.2.1).2, fun hslash => hlast.2.2 (by rw [hslash]; rfl)⟩
  rwa [collapseBlanks_of_single (fun d hd => (h.kept d hd).2) h.single
    fun hafter => by cases hafter] at hbecomes

/-- What separators between tokens have to be: gaps, and none only between tokens that stay
apart. -/
structure Separates (separator : ℕ → List Char) (ts : List Token) : Prop where
  gap : ∀ i ≤ ts.length, separator i = [] ∨ Source.IsGap (separator i)
  apart : ∀ {i t u rest}, ts.drop i = t :: u :: rest → separator (i + 1) = [] →
    EndsToken t.kind u.chars

theorem Separates.tail {separator : ℕ → List Char} {t : Token} {ts : List Token}
    (h : Separates separator (t :: ts)) : Separates (fun i => separator (i + 1)) ts where
  gap := fun i hi => h.gap (i + 1) (Nat.succ_le_succ hi)
  apart := fun hdrop => h.apart (by rwa [List.drop_succ_cons])

theorem spaced_separatorPieces {separator : List Char} {pieces : List Piece}
    (h : separator = [] ∨ Source.IsGap separator) (hpieces : Piece.Spaced pieces) :
    Piece.Spaced (separatorPieces separator ++ pieces) := by
  unfold separatorPieces
  split
  · exact hpieces
  · next hne => exact ⟨h.resolve_left hne, hpieces⟩

/-- Tokens of a buffer with separators between them are a layout. -/
theorem spaced_spread {separator : ℕ → List Char} {ts : List Token}
    (hseparates : Separates separator ts)
    (hts : ∀ t ∈ ts, IsLexeme t.kind t.chars ∧ Source.Becomes t.chars t.chars) :
    Piece.Spaced (spreadPieces separator ts) := by
  induction ts generalizing separator with
  | nil =>
    have hspaced : Piece.Spaced (separatorPieces (separator 0) ++ []) :=
      spaced_separatorPieces (hseparates.gap 0 le_rfl) trivial
    rwa [List.append_nil] at hspaced
  | cons t ts ih =>
    obtain ⟨ht, hts⟩ := List.forall_mem_cons.mp hts
    refine spaced_separatorPieces (hseparates.gap 0 (Nat.zero_le _)) ⟨ht.1, ht.2, ?_, ?_⟩
    · -- after a token comes a gap, or the next token
      by_cases hnone : separator 1 = []
      · cases ts with
        | nil => simp [spreadPieces, separatorPieces, hnone, Piece.Apart]
        | cons u us =>
          rw [spreadPieces, separatorPieces, if_pos hnone]
          exact hseparates.apart rfl hnone
      · cases ts <;> simp [spreadPieces, separatorPieces, hnone, Piece.Apart]
    · exact ih hseparates.tail hts

/-! ## Its tokens -/

theorem place_separatorPieces (separator : List Char) (pieces : List Piece) (afterBlank : Bool)
    (position : Nat) :
    ∃ after start, Piece.place afterBlank position (separatorPieces separator ++ pieces) =
      Piece.place after start pieces ∧ (separator = [] → start = position) := by
  unfold separatorPieces
  split
  · exact ⟨afterBlank, position, rfl, fun _ => rfl⟩
  · next hne => exact ⟨true, _, rfl, fun h => absurd h hne⟩

theorem place_spread_cons (separator : ℕ → List Char) (t : Token) (ts : List Token)
    (afterBlank : Bool) (position : Nat) :
    ∃ start, Piece.place afterBlank position (spreadPieces separator (t :: ts)) =
        t.placed start (start + t.chars.length) ::
          Piece.place false (start + t.chars.length)
            (spreadPieces (fun i => separator (i + 1)) ts) ∧
      (separator 0 = [] → start = position) := by
  obtain ⟨after, start, hplace, hstart⟩ := place_separatorPieces (separator 0)
    (.lexeme t.kind t.chars t.chars :: spreadPieces (fun i => separator (i + 1)) ts) afterBlank
    position
  exact ⟨start, by rw [spreadPieces, hplace]; rfl, hstart⟩

/-- The tokens of a layout of tokens are the same ones at other places; where nothing is written
between the tokens of the property accesses, these remain. -/
theorem retold_place {separator : ℕ → List Char} {ts : List Token}
    (haccess : ∀ i, beginsAccess (ts.drop i) = true →
      separator (i + 1) = [] ∧ separator (i + 2) = []) (afterBlank : Bool) (position : Nat) :
    Retold ts (Piece.place afterBlank position (spreadPieces separator ts)) := by
  induction ts generalizing separator afterBlank position with
  | nil =>
    obtain ⟨_, _, hplace, -⟩ := place_separatorPieces (separator 0) [] afterBlank position
    rw [List.append_nil] at hplace
    rw [spreadPieces, hplace]
    exact .nil
  | cons t ts ih =>
    have htail : ∀ start, Retold ts
        (Piece.place false start (spreadPieces (fun i => separator (i + 1)) ts)) :=
      ih (fun i hi => haccess (i + 1) (by rwa [List.drop_succ_cons])) false
    obtain ⟨start, hplace, -⟩ := place_spread_cons separator t ts afterBlank position
    rw [hplace]
    refine .cons (fun hbegins => ?_) (htail _)
    obtain ⟨hnone, hnone'⟩ := haccess 0 hbegins
    obtain ⟨_, point, part, rest, heq, hproperty⟩ := exists_of_beginsAccess hbegins
    cases heq
    obtain ⟨howner, hpoint, hpart, -, -⟩ := Scan.isPropertyAccess_iff.mp hproperty
    obtain ⟨start', hplace', hstart'⟩ := place_spread_cons (fun i => separator (i + 1)) point
      (part :: rest) false (start + t.chars.length)
    obtain ⟨start'', hplace'', hstart''⟩ := place_spread_cons (fun i => separator (i + 1 + 1)) part
      rest false (start' + point.chars.length)
    rw [hplace', hplace'']
    exact Scan.isPropertyAccess_iff.mpr
      ⟨howner, hpoint, hpart, (hstart' hnone).symm, (hstart'' hnone').symm⟩

/-! ## Its program -/

theorem head?_gap {gap : List Char} (h : Source.IsGap gap) :
    ∃ c ∈ gap.head?, c ≠ Source.byteOrderMark := by
  induction h with
  | @blank c hblank hcontrol =>
    refine ⟨c, rfl, ?_⟩
    rintro rfl
    exact absurd hblank (by decide)
  | comment h => exact ⟨'/', rfl, by decide⟩
  | append hxs hys ihx ihy =>
    obtain ⟨c, hc, hne⟩ := ihx
    exact ⟨c, List.mem_head?_append_of_mem_head? hc, hne⟩

theorem head?_spread {separator : ℕ → List Char} {ts : List Token}
    (hseparates : Separates separator ts) (hts : ∀ t ∈ ts, IsLexeme t.kind t.chars) :
    (spread separator ts).head? ≠ some Source.byteOrderMark := by
  intro hmark
  have hgap : ∀ {rest : List Char}, Source.IsGap (separator 0) →
      (separator 0 ++ rest).head? ≠ some Source.byteOrderMark := by
    intro rest hgap hmark
    obtain ⟨c, hc, hne⟩ := head?_gap hgap
    exact hne (Option.some.inj ((List.mem_head?_append_of_mem_head? hc).symm.trans hmark))
  rcases hseparates.gap 0 (Nat.zero_le _) with hnone | hfirst
  · cases ts with
    | nil =>
      rw [spread, hnone] at hmark
      cases hmark
    | cons t ts =>
      have hlexeme := hts t (by simp)
      obtain ⟨c, cs, hcs⟩ := List.exists_cons_of_ne_nil (isLexeme_ne_nil hlexeme)
      rw [spread, hnone, List.nil_append, hcs, List.cons_append] at hmark
      cases hmark
      have hhigh := (toNat_head?_lexeme hlexeme Source.byteOrderMark (by rw [hcs]; rfl)).2
      exact absurd hhigh (by decide)
  · cases ts with
    | nil => exact @hgap [] hfirst (by rwa [List.append_nil])
    | cons t ts =>
      rw [spread, List.append_assoc] at hmark
      exact hgap hfirst hmark

/-- Separators that are empty inside the property accesses alone keep all tokens apart. -/
theorem separates_of_insideAccess {separator : ℕ → List Char} {ts : List Token}
    (hgap : ∀ i ≤ ts.length, separator i = [] ∨ Source.IsGap (separator i))
    (hinside : ∀ i, i + 1 < ts.length → separator (i + 1) = [] → InsideAccess ts i) :
    Separates separator ts where
  gap := hgap
  apart := by
    intro i t u rest hdrop hnone
    have hlength : i + 1 < ts.length := by
      have := congrArg List.length hdrop
      simp only [List.length_drop, List.length_cons] at this
      omega
    rcases hinside i hlength hnone with hbegins | ⟨hne, hbegins⟩
    · -- a point after a word
      obtain ⟨owner, point, part, rest', heq, hproperty⟩ := exists_of_beginsAccess hbegins
      obtain ⟨howner, hpoint, -⟩ := Scan.isPropertyAccess_iff.mp hproperty
      obtain ⟨rfl, hrest⟩ := List.cons.inj (hdrop.symm.trans heq)
      obtain ⟨rfl, -⟩ := List.cons.inj hrest
      rw [howner, (Token.isMark_iff.mp hpoint).2]
      rintro c ⟨⟩
      decide
    · -- what follows the point
      obtain ⟨owner, point, part, rest', heq, hproperty⟩ := exists_of_beginsAccess hbegins
      obtain ⟨-, hpoint, -⟩ := Scan.isPropertyAccess_iff.mp hproperty
      have hpoints : ts.drop i = point :: part :: rest' := by
        rw [← Nat.succ_pred_eq_of_ne_zero hne, Nat.succ_eq_add_one, ← List.tail_drop]
        exact congrArg List.tail heq
      obtain ⟨rfl, -⟩ := List.cons.inj (hdrop.symm.trans hpoints)
      rw [(Token.isMark_iff.mp hpoint).1]
      trivial

/-- The tokens of an accepted document, written with any separators of blanks and comments that
are empty between the tokens of a property access and nowhere else, are read as the same
program. -/
theorem parse_spread {document : String} {p : Program} {separator : ℕ → List Char}
    (h : (parse document).value = .ok p) :
    let tokens := (scan (Source.buffer document.toList)).tokens
    (∀ i ≤ tokens.length, separator i = [] ∨ Source.IsGap (separator i)) →
      (∀ i, i + 1 < tokens.length → (separator (i + 1) = [] ↔ InsideAccess tokens i)) →
        (parse (String.ofList (spread separator tokens))).value = .ok p := by
  intro tokens hgap hinside
  obtain ⟨-, ds, rfl, hds⟩ := parse_eq_ok_iff.mp h
  obtain ⟨_, _, htiles, -⟩ := exists_tiles (Source.buffer document.toList) 0
  have hlexeme : ∀ t ∈ tokens, IsLexeme t.kind t.chars := (of_scanFrom _ 0).2
  have hseparates : Separates separator tokens :=
    separates_of_insideAccess hgap fun i hi => (hinside i hi).mp
  have hspaced : Piece.Spaced (spreadPieces separator tokens) := by
    refine spaced_spread hseparates fun t ht => ⟨hlexeme t ht, ?_⟩
    exact becomes_of_isPrepared (hlexeme t ht)
      ((Source.isPrepared_buffer _).of_part (htiles.isInfix t ht))
  have hretold : Retold tokens (Piece.place false 0 (spreadPieces separator tokens)) := by
    refine retold_place (fun i hi => ?_) false 0
    obtain ⟨_, _, _, _, heq, -⟩ := exists_of_beginsAccess hi
    have hlength := congrArg List.length heq
    simp only [List.length_drop, List.length_cons] at hlength
    exact ⟨(hinside i (by omega)).mpr (.inl hi),
      (hinside (i + 1) (by omega)).mpr (.inr ⟨by omega, hi⟩)⟩
  have hmark := head?_spread hseparates hlexeme
  rw [← raw_spreadPieces] at hmark ⊢
  obtain ⟨htokens, herror⟩ := Piece.scan_raw hspaced hmark
  refine parse_eq_ok_iff.mpr ⟨?_, ds, rfl, ?_⟩
  · rw [String.toList_ofList]
    exact herror
  · rw [String.toList_ofList, htokens]
    exact Grammar.transfers_many Grammar.transfers_isDefinition hds hretold

theorem parse_spread_access :
    let document := "workflow W \x7b if (a.b) \x7b x(1); \x7d \x7d"
    let tokens := (scan (Source.buffer document.toList)).tokens
    let separator : ℕ → List Char := fun i => if i = 6 ∨ i = 7 then [] else "\t// a note\n".toList
    let p : Program := ⟨[], [], [], [⟨"W", [.decision (.property "a" "b")
      [.call "x" [⟨none, .number ⟨false, Decimal.magnitude ⟨1, 0⟩⟩⟩]] []]⟩]⟩
    (parse document).value = .ok p ∧
      (parse (String.ofList (spread separator tokens))).value = .ok p := by
  intro document tokens separator p
  have hdocument : (parse document).value = .ok p := by decide +kernel
  have hnote : Source.IsGap ('/' :: '/' :: " a note".toList ++ ['\n']) := .comment (by decide)
  have hgap : Source.IsGap "\t// a note\n".toList :=
    .append (.blank (c := '\t') (by decide) (by decide)) hnote
  have hinside : ∀ i < 16, separator (i + 1) = [] ↔ InsideAccess tokens i := by decide +kernel
  have hlength : ∀ i, i + 1 < tokens.length → i < 16 := by
    intro i hi
    rw [show tokens.length = 17 by decide +kernel] at hi
    omega
  refine ⟨hdocument, parse_spread hdocument (fun i _ => ?_) fun i hi => hinside i (hlength i hi)⟩
  by_cases hi : i = 6 ∨ i = 7
  · exact .inl (if_pos hi)
  · right
    rw [show separator i = "\t// a note\n".toList from if_neg hi]
    exact hgap

end RoleFlow
