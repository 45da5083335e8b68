import RoleFlow.Proofs.Endings
import RoleFlow.Proofs.Following

/-!
# The first error

A document whose buffer scans is refused at the first token that does not fit: what comes before it
begins an accepted document, and with it no accepted document goes on. A lexical error that comes
later is not seen then, unless a value is looked for: that is where three tokens are looked at, and
the lexical error may be among them.

Results:
* `parse_refuses_first_misfit`: where a document whose buffer scans is refused.
* `parse_eq_lexical_error_iff`: when a document is refused with its lexical error.
-/

namespace RoleFlow

variable {document : String} {p : Program} {e : SyntaxError} {t : Token} {k : List Due}
  {before after rest : List Token}

/-- Tokens that an accepted document begins with, at the same places. -/
def Begins (tokens : List Token) : Prop :=
  ∃ document p, (parse document).value = .ok p ∧
    tokens <+: (scan (Source.buffer document.toList)).tokens

/-- Kinds and characters of tokens that an accepted document begins with, at any places. -/
def BeginsLike (lexemes : List Lexeme) : Prop :=
  ∃ document p, (parse document).value = .ok p ∧
    lexemes <+: (scan (Source.buffer document.toList)).tokens.map Token.lexeme

/-! ## The steps of a document -/

/-- An accepted document is led to its end. -/
theorem leads_of_parse (h : (parse document).value = .ok p) :
    Leads false ([], (scan (Source.buffer document.toList)).tokens) ([], []) := by
  obtain ⟨herror, -⟩ := parse_eq_ok_iff.mp h
  have hleads := (scan (Source.buffer document.toList)).outcome_definitions
    (scan (Source.buffer document.toList)).tokens
  rw [parse_value] at h
  cases hds : ((scan (Source.buffer document.toList)).definitions
      (scan (Source.buffer document.toList)).tokens).value with
  | error e =>
    rw [hds] at h
    cases h
  | ok ds =>
    rw [hds] at hleads
    rw [Scan.Outcome, Scan.isCut, herror] at hleads
    exact hleads

/-- A document that is refused is led to where no step is left. -/
theorem stops_of_parse (h : (parse document).value = .error e) :
    let s := scan (Source.buffer document.toList)
    ∃ before after k, s.tokens = before ++ after ∧
      Leads s.isCut ([], before ++ after) (k, after) ∧ s.Stops (k, after) e := by
  intro s
  have hstops := s.outcome_definitions s.tokens
  rw [parse_value] at h
  cases hds : (s.definitions s.tokens).value with
  | error e' =>
    rw [hds] at h hstops
    cases h
    obtain ⟨⟨k, after⟩, hleads, hstops⟩ := hstops
    obtain ⟨before, hbefore⟩ : ∃ before, s.tokens = before ++ after := exists_suffix hleads
    rw [hbefore] at hleads
    exact ⟨before, after, k, hbefore, hleads, hstops⟩
  | ok ds =>
    rw [hds] at h
    cases h

/-- What is scanned and led to its end is accepted. -/
theorem parse_of_leads (herror : (scan (Source.buffer document.toList)).error = none)
    (h : Leads false ([], (scan (Source.buffer document.toList)).tokens) ([], [])) :
    ∃ p, (parse document).value = .ok p := by
  cases hvalue : (parse document).value with
  | ok p => exact ⟨p, rfl⟩
  | error e =>
    obtain ⟨before, after, k, htokens, hleads, hstuck, hunfinished, -⟩ := stops_of_parse hvalue
    rw [Scan.isCut, herror] at hleads hstuck
    rw [htokens] at h
    exact absurd (eq_of_stuck hleads h hstuck stuck_end) (hunfinished herror)

/-! ## What begins an accepted document -/

/-- Tokens of a buffer begin an accepted document if plain ones after them lead to the end. -/
theorem exists_begins {ls : List Lexeme}
    (htokens : (scan (Source.buffer document.toList)).tokens = before ++ after)
    (hls : ∀ l ∈ ls, IsPlain l)
    (h : ∀ us, us.map Token.lexeme = ls → Leads false ([], before ++ us) ([], [])) :
    ∃ us, us.map Token.lexeme = ls ∧ Begins (before ++ us) := by
  obtain ⟨other, us, hus, hother, herror⟩ := Source.exists_document htokens hls
  rw [← String.toList_ofList (l := other)] at hother herror
  obtain ⟨p, hp⟩ := parse_of_leads herror (by rw [hother]; exact h us hus)
  exact ⟨us, hus, _, p, hp, hother ▸ List.prefix_rfl⟩

theorem Begins.of_append {tokens more : List Token} (h : Begins (tokens ++ more)) :
    Begins tokens := by
  obtain ⟨document, p, hp, hprefix⟩ := h
  exact ⟨document, p, hp, (List.prefix_append tokens more).trans hprefix⟩

/-- Tokens that are taken begin an accepted document. -/
theorem begins_of_leads (htokens : (scan (Source.buffer document.toList)).tokens = before ++ after)
    (h : Leads false ([], before ++ rest) (k, rest)) : Begins before := by
  obtain ⟨ls, hls, hends⟩ := exists_ending h rfl
  obtain ⟨us, -, hbegins⟩ := exists_begins htokens hls hends
  exact hbegins.of_append

/-- So do they with a number after them, where a value is looked for. -/
theorem begins_number (htokens : (scan (Source.buffer document.toList)).tokens = before ++ after)
    (h : Leads false ([], before ++ rest) (k, rest)) (haccess : (ruleOf k).access = true) :
    ∃ t, t.kind = .number ∧ Begins (before ++ [t]) := by
  obtain ⟨ls, hls, ⟨l, hl, hnumber⟩, hends⟩ := exists_ending_number h rfl haccess
  obtain ⟨us, hus, hbegins⟩ := exists_begins htokens hls hends
  obtain ⟨more, rfl⟩ := List.head?_eq_some_iff.mp hl
  obtain ⟨start, stop, vs, rfl, -⟩ := exists_of_map_lexeme hus
  refine ⟨⟨l.1, l.2, start, stop⟩, hnumber, ?_⟩
  rw [List.append_cons] at hbegins
  exact hbegins.of_append

/-- Where no step is left and no point comes, no accepted document goes on. -/
theorem not_beginsLike_of_stuck (h : Leads false ([], before ++ t :: rest) (k, t :: rest))
    (hstuck : Stuck false (k, t :: rest)) (hpoint : ¬ t.isMark '.' = true) :
    ¬ BeginsLike ((before ++ [t]).map Token.lexeme) := by
  rintro ⟨document, p, hp, more, hmore⟩
  rw [List.map_append, List.append_assoc] at hmore
  obtain ⟨before', others, htokens, hbefore, hothers⟩ := List.map_eq_append_iff.mp hmore.symm
  obtain ⟨t', rest', rfl, ht, -⟩ := List.map_eq_cons_iff.mp hothers
  refine not_leads_of_stuck h hstuck hpoint hbefore ht rest' ?_
  rw [← htokens]
  exact leads_of_parse hp

/-! ## Where the error is -/

theorem position_refuse (s : Scan) (fault : Option Token → SyntaxFault) (herror : s.error = none)
    (tokens : List Token) :
    (s.refuse fault tokens).position = (tokens.head?.map Token.start).getD s.buffer.length := by
  cases tokens with
  | nil => rw [Scan.refuse, herror]; rfl
  | cons t rest => rfl

/-- The characters that an error shows around its position. -/
theorem context_refuse (s : Scan) (fault : Option Token → SyntaxFault) (herror : s.error = none)
    (tokens : List Token) :
    let position := (s.refuse fault tokens).position
    (s.refuse fault tokens).context =
      String.ofList ((s.buffer.take position).drop (position - 20) ++
        '[' :: (s.buffer[position]?.elim "EOF".toList fun c => [c]) ++
        ']' :: (s.buffer.drop (position + 1)).take 20) := by
  have hcontext : ∀ fault position, (SyntaxError.ofFault fault s.buffer position).context =
      String.ofList ((s.buffer.take position).drop (position - 20) ++
        '[' :: (s.buffer[position]?.elim "EOF".toList fun c => [c]) ++
        ']' :: (s.buffer.drop (position + 1)).take 20) := by
    intro fault position
    show bracketed ((s.buffer.take position).drop (position - 20)) s.buffer[position]?
      ((s.buffer.drop (position + 1)).take 20) = _
    cases s.buffer[position]? <;> rfl
  cases tokens with
  | nil =>
    rw [Scan.refuse, herror]
    exact hcontext _ _
  | cons t rest => exact hcontext _ _

/-- Tokens end where the next one begins, or before, and all tokens end in the buffer. -/
theorem stop_le_next {buffer : List Char} (h : (scan buffer).tokens = before ++ after) :
    ∀ t ∈ before, t.stop ≤ (after.head?.map Token.start).getD buffer.length := by
  obtain ⟨stop, rest, htiles, -⟩ := exists_tiles buffer 0
  obtain ⟨front, hfront, hstop, -⟩ := htiles.replace
  rw [← scan_tokens, h] at htiles
  obtain ⟨-, hpairwise, hplaces⟩ := htiles.places
  intro t ht
  cases after with
  | nil =>
    have hlength : stop ≤ buffer.length := by
      rw [hfront, List.length_append]
      omega
    exact (hplaces t (List.mem_append_left _ ht)).2.2.trans hlength
  | cons u after => exact (List.pairwise_append.mp hpairwise).2.2 t ht u List.mem_cons_self

theorem next_lt_stop {buffer : List Char} (h : (scan buffer).tokens = before ++ t :: rest) :
    ∀ u ∈ t :: rest, t.start < u.stop := by
  obtain ⟨stop, left, htiles, -⟩ := exists_tiles buffer 0
  rw [← scan_tokens, h] at htiles
  obtain ⟨-, hpairwise, hplaces⟩ := htiles.places
  have hafter := List.pairwise_cons.mp (List.pairwise_append.mp hpairwise).2.1
  have hlt : ∀ u ∈ t :: rest, u.start < u.stop := fun u hu =>
    (hplaces u (List.mem_append_right _ hu)).2.1
  refine List.forall_mem_cons.mpr ⟨hlt t List.mem_cons_self, fun u hu => ?_⟩
  calc t.start < t.stop := hlt t List.mem_cons_self
    _ ≤ u.start := hafter.1 u hu
    _ < u.stop := hlt u (List.mem_cons_of_mem _ hu)

/-- The tokens of a buffer that end at a token or before it are those that come before it. -/
theorem filter_stop {buffer : List Char} (h : (scan buffer).tokens = before ++ after) :
    (scan buffer).tokens.filter
      (fun t => t.stop ≤ (after.head?.map Token.start).getD buffer.length) = before := by
  rw [h, List.filter_append, List.filter_eq_self.mpr, List.filter_eq_nil_iff.mpr,
    List.append_nil]
  · intro u hu
    rw [decide_eq_true_iff, not_le]
    cases after with
    | nil => cases hu
    | cons t rest => exact next_lt_stop h u hu
  · exact fun t ht => decide_eq_true (stop_le_next h t ht)

/-- A document whose buffer scans is refused where no step is left. -/
theorem refused_of_scan (hscan : (scan (Source.buffer document.toList)).error = none)
    (h : (parse document).value = .error e) :
    let s := scan (Source.buffer document.toList)
    ∃ before after k fault, s.tokens = before ++ after ∧
      before = s.tokens.filter (fun t => t.stop ≤ e.position) ∧
      Leads false ([], before ++ after) (k, after) ∧ Stuck false (k, after) ∧
      e = s.refuse fault after := by
  intro s
  obtain ⟨before, after, k, htokens, hleads, hstuck, -, hcause⟩ := stops_of_parse h
  rw [Scan.isCut, hscan] at hleads hstuck
  rcases hcause with ⟨-, herror⟩ | ⟨-, fault, rfl⟩
  · rw [hscan] at herror
    cases herror
  · refine ⟨before, after, k, fault, htokens, ?_, hleads, hstuck, rfl⟩
    rw [position_refuse s fault hscan after]
    exact (filter_stop htokens).symm

/-- Where a document whose buffer scans is refused: the tokens that end up to there begin an
accepted document, and with the next one, unless it is a point, no accepted document begins,
wherever its tokens stand. The error is at the next token, or at the end, and shows the characters
around it. -/
theorem parse_refuses_first_misfit {document : String} {e : SyntaxError}
    (hscan : (scan (Source.buffer document.toList)).error = none)
    (h : (parse document).value = .error e) :
    let buffer := Source.buffer document.toList
    ∃ before after, (scan buffer).tokens = before ++ after ∧
      before = (scan buffer).tokens.filter (fun t => t.stop ≤ e.position) ∧
      e.position = (after.head?.map Token.start).getD buffer.length ∧
      Begins before ∧
      (∀ t ∈ after.head?, ¬ t.isMark '.' = true →
        ¬ BeginsLike ((before ++ [t]).map Token.lexeme)) ∧
      e.context = String.ofList ((buffer.take e.position).drop (e.position - 20) ++
        '[' :: (buffer[e.position]?.elim "EOF".toList fun c => [c]) ++
        ']' :: (buffer.drop (e.position + 1)).take 20) := by
  intro buffer
  obtain ⟨before, after, k, fault, htokens, hbefore, hleads, hstuck, rfl⟩ := refused_of_scan hscan h
  refine ⟨before, after, htokens, hbefore, position_refuse _ fault hscan after,
    begins_of_leads htokens hleads, fun t ht hpoint => ?_, context_refuse _ fault hscan after⟩
  obtain ⟨rest, rfl⟩ := List.head?_eq_some_iff.mp ht
  exact not_beginsLike_of_stuck hleads hstuck hpoint

/-- A comma in place of an argument: the tokens up to the parenthesis begin an accepted document,
and with the comma they begin none. -/
theorem parse_refuses_first_misfit_comma :
    let document := "workflow W \x7b A(, \x7d"
    let s := scan (Source.buffer document.toList)
    let e : SyntaxError :=
      ⟨.expectedName (some ⟨.mark, [','], 15, 16⟩), 15, "workflow W \x7b A([,] \x7d"⟩
    s.error = none ∧ (parse document).value = .error e ∧ Begins (s.tokens.take 5) ∧
      ¬ BeginsLike ((s.tokens.take 6).map Token.lexeme) := by
  intro document s e
  have hscan : s.error = none := by decide +kernel
  have hparse : (parse document).value = .error e := by decide +kernel
  obtain ⟨before, after, htokens, hbefore, -, hbegins, hnot, -⟩ :=
    parse_refuses_first_misfit hscan hparse
  obtain rfl : before = s.tokens.take 5 := hbefore.trans (by decide +kernel)
  have hsplit : s.tokens = s.tokens.take 5 ++ ⟨.mark, [','], 15, 16⟩ :: s.tokens.drop 6 := by
    decide +kernel
  obtain rfl := List.append_cancel_left (htokens.symm.trans hsplit)
  refine ⟨hscan, hparse, hbegins, ?_⟩
  rw [show s.tokens.take 6 = s.tokens.take 5 ++ [⟨.mark, [','], 15, 16⟩] by decide +kernel]
  exact hnot _ rfl (by decide)

/-! ## Lexical errors -/

/-- A lexical error lies behind the tokens. -/
theorem start_lt_of_error {buffer : List Char} (h : (scan buffer).error = some e) :
    ∀ t ∈ (scan buffer).tokens, t.start < e.position := by
  intro t ht
  obtain ⟨stop, rest, htiles, hrest⟩ := exists_tiles buffer 0
  obtain ⟨⟨fault, place⟩, hfault, rfl⟩ := Option.map_eq_some_iff.mp h
  obtain ⟨-, hlt, hle⟩ := htiles.places.2.2 t ht
  have hplace := (place_of_fault (hrest.trans (Prod.ext rfl hfault))).1
  show t.start < place
  omega

/-- A document with a lexical error is refused with it, or with an error at a token before it. -/
theorem refused_of_error (hscan : (scan (Source.buffer document.toList)).error = some e) :
    ∃ before after k, (scan (Source.buffer document.toList)).tokens = before ++ after ∧
      Leads true ([], before ++ after) (k, after) ∧
      ((parse document).value = .error e ∧ (after = [] ∨ Short k after) ∨
        (parse document).value ≠ .error e ∧ Stuck true (k, after) ∧ ¬ Short k after ∧
          after ≠ []) := by
  cases hvalue : (parse document).value with
  | ok p =>
    rw [(parse_eq_ok_iff.mp hvalue).1] at hscan
    cases hscan
  | error e' =>
    obtain ⟨before, after, k, htokens, hleads, hstuck, -, hcause⟩ := stops_of_parse hvalue
    rw [Scan.isCut, hscan] at hleads hstuck
    refine ⟨before, after, k, htokens, hleads, ?_⟩
    rcases hcause with ⟨hshort, herror⟩ | ⟨hseen, fault, rfl⟩
    · cases hscan.symm.trans herror
      exact .inl ⟨rfl, .inr hshort⟩
    · cases after with
      | nil =>
        left
        rw [Scan.refuse, hscan]
        exact ⟨rfl, .inl rfl⟩
      | cons t rest =>
        refine .inr ⟨fun heq => ?_, hstuck, hseen (by rw [Scan.isCut, hscan]; rfl), by simp⟩
        have hlt := start_lt_of_error hscan t (by rw [htokens]; simp)
        rw [← Except.error.inj heq] at hlt
        exact absurd hlt (lt_irrefl _)

/-- Where a step is missing at a token before the error, no accepted document goes on. -/
theorem not_begins_of_cut (h : Leads true ([], before ++ t :: rest) (k, t :: rest))
    (hstuck : Stuck true (k, t :: rest)) (hseen : ¬ Short k (t :: rest)) :
    ¬ Begins (before ++ t :: rest) := by
  rintro ⟨document, p, hp, more, hmore⟩
  have hends := leads_of_parse hp
  rw [← hmore] at hends
  exact not_leads_of_cut h hstuck hseen more hends

/-- Where a value is looked for, no accepted document goes on with a punctuation mark. -/
theorem not_begins_of_access (h : Leads false ([], before ++ t :: rest) (k, t :: rest))
    (haccess : (ruleOf k).access = true) (ht : t.kind = .mark) : ¬ Begins (before ++ [t]) := by
  rintro ⟨document, p, hp, more, hmore⟩
  obtain ⟨k', hk', hother⟩ := exists_detached h rfl
  have hends := leads_of_parse hp
  rw [← hmore, List.append_assoc] at hends
  have hleads := (hother (t :: more) (.inr ⟨trivial, haccess⟩)).trans (leads_of_head? hk' rfl)
  obtain ⟨hpasses, hnone⟩ := access_rule haccess
  have hstuck : Stuck false (k, t :: more) :=
    stuck_of_takes_eq_none (by rintro u ⟨⟩; exact (hnone t).mpr ht) hpasses
  cases eq_of_stuck hends hleads stuck_end hstuck

/-- Where a number may come, a value is looked for, unless a punctuation mark is there that may come
as well. -/
theorem leads_or_begins {u : Token} {ahead : List Token}
    (htokens : (scan (Source.buffer document.toList)).tokens = before ++ ahead)
    (hu : u.kind = .number) (h : Begins (before ++ [u])) :
    (∃ k, (ruleOf k).access = true ∧ Leads false ([], before ++ ahead) (k, ahead)) ∨
      ∃ t ∈ ahead.head?, t.kind = .mark ∧ Begins (before ++ [t]) := by
  obtain ⟨document', p, hp, more, hmore⟩ := h
  have hends := leads_of_parse hp
  rw [← hmore, List.append_assoc] at hends
  obtain ⟨k, hk, haccess⟩ := exists_access_of_number hu hends rfl
  obtain ⟨k', hk', hother⟩ := exists_detached hk rfl
  have hahead := hother ahead (.inr ⟨trivial, haccess⟩)
  rcases leads_or_takes_mark hk' haccess ahead with
    hvalue | ⟨t, ht, hkind, k'', next, hpart, htakes⟩
  · exact .inl ⟨k, haccess, hahead.trans hvalue⟩
  · obtain ⟨rest, rfl⟩ := List.head?_eq_some_iff.mp ht
    have hnot : beginsAccess (t :: rest) = false :=
      not_beginsAccess_of_kind (by rw [hkind]; decide)
    have hleads := (hahead.trans hpart).tail (.takes (by simp) (fun _ => hnot) htakes)
    rw [List.append_cons] at htokens hleads
    exact .inr ⟨t, rfl, hkind, begins_of_leads htokens hleads⟩

/-- A document with a lexical error is refused with it exactly if its tokens begin an accepted
document, or if a value is looked for after all of them but the last one or two: a number may come
there, and the token that is there, if it is a punctuation mark, may not. -/
theorem parse_eq_lexical_error_iff {document : String} {e : SyntaxError}
    (hscan : (scan (Source.buffer document.toList)).error = some e) :
    let tokens := (scan (Source.buffer document.toList)).tokens
    (parse document).value = .error e ↔ Begins tokens ∨
      ∃ before ahead, tokens = before ++ ahead ∧ ahead.length ≤ 2 ∧
        (∃ t, t.kind = .number ∧ Begins (before ++ [t])) ∧
        ∀ t ∈ ahead.head?, t.kind = .mark → ¬ Begins (before ++ [t]) := by
  intro tokens
  obtain ⟨before, after, k, htokens, hleads, hcase⟩ := refused_of_error hscan
  constructor
  · intro h
    rcases hcase with ⟨-, rfl | ⟨haccess, hlength⟩⟩ | ⟨hne, -⟩
    · left
      rw [show tokens = before by rw [← List.append_nil before]; exact htokens]
      exact begins_of_leads htokens (leads_of_cut hleads)
    · refine .inr ⟨before, after, htokens, hlength,
        begins_number htokens (leads_of_cut hleads) haccess, fun t ht hmark => ?_⟩
      obtain ⟨rest, rfl⟩ := List.head?_eq_some_iff.mp ht
      exact not_begins_of_access (leads_of_cut hleads) haccess hmark
    · exact absurd h hne
  · intro h
    rcases hcase with ⟨hvalue, -⟩ | ⟨-, hstuck, hseen, hne⟩
    · exact hvalue
    exfalso
    obtain ⟨t, rest, rfl⟩ := List.exists_cons_of_ne_nil hne
    rcases h with hbegins | ⟨front, ahead, hfront, hlength, ⟨u, hu, hbegins⟩, hmark⟩
    · rw [show tokens = before ++ t :: rest from htokens] at hbegins
      exact not_begins_of_cut hleads hstuck hseen hbegins
    · rcases leads_or_begins hfront hu hbegins with ⟨k', haccess, hvalue⟩ | ⟨v, hv, hkind, hnext⟩
      · rw [← hfront, show tokens = before ++ t :: rest from htokens] at hvalue
        exact not_short_of_cut hleads hstuck hseen hvalue ⟨haccess, hlength⟩
      · exact hmark v hv hkind hnext

/-- A comma in place of an argument, and a stray character after it: an argument is looked for at
the comma, so the lexical error is seen. -/
theorem parse_eq_lexical_error_iff_comma :
    let document := "workflow W \x7b A(, @ \x7d"
    let s := scan (Source.buffer document.toList)
    let e : SyntaxError := ⟨.unexpectedCharacter '@', 17, "workflow W \x7b A(, [@] \x7d"⟩
    s.error = some e ∧ (Begins s.tokens ∨
      ∃ before ahead, s.tokens = before ++ ahead ∧ ahead.length ≤ 2 ∧
        (∃ t, t.kind = .number ∧ Begins (before ++ [t])) ∧
        ∀ t ∈ ahead.head?, t.kind = .mark → ¬ Begins (before ++ [t])) := by
  intro document s e
  have hscan : s.error = some e := by decide +kernel
  exact ⟨hscan, (parse_eq_lexical_error_iff hscan).mp (by decide +kernel)⟩

/-- There the lexical error hides an earlier one: no accepted document begins with the tokens before
it, wherever they stand. -/
theorem lexical_error_hides_comma :
    let document := "workflow W \x7b A(, @ \x7d"
    let s := scan (Source.buffer document.toList)
    let e : SyntaxError := ⟨.unexpectedCharacter '@', 17, "workflow W \x7b A(, [@] \x7d"⟩
    s.error = some e ∧ (parse document).value = .error e ∧
      ¬ BeginsLike (s.tokens.map Token.lexeme) := by
  intro document s e
  -- without the stray character, the document is refused at the comma
  let clean := "workflow W \x7b A(, \x7d"
  let t : Token := ⟨.mark, [','], 15, 16⟩
  have hscan : (scan (Source.buffer clean.toList)).error = none := by decide +kernel
  have hparse : (parse clean).value =
      .error ⟨.expectedName (some t), 15, "workflow W \x7b A([,] \x7d"⟩ := by decide +kernel
  obtain ⟨before, after, k, fault, htokens, hbefore, hleads, hstuck, -⟩ :=
    refused_of_scan hscan hparse
  have hbefore' : before = s.tokens.take 5 := hbefore.trans (by decide +kernel)
  have hsplit : (scan (Source.buffer clean.toList)).tokens =
      s.tokens.take 5 ++ t :: (scan (Source.buffer clean.toList)).tokens.drop 6 := by
    decide +kernel
  subst hbefore'
  obtain rfl := List.append_cancel_left (htokens.symm.trans hsplit)
  refine ⟨by decide +kernel, by decide +kernel, ?_⟩
  rw [show s.tokens = s.tokens.take 5 ++ [t] by decide +kernel]
  exact not_beginsLike_of_stuck hleads hstuck (by decide)

end RoleFlow
