import RoleFlow.Proofs.Grammar

/-!
# Readers of tokens

Every reader is compared with its nonterminal in both directions: what it takes is a phrase
(`Sound`), and it takes every phrase from the front of the tokens (`Complete`).

Results:
* `items_sound`, `items_complete`: lists of phrases with commas between them.
* `typeText_sound`, `typeText_complete`: types, to any depth of angle brackets.
* `attributeValue_sound`, `attributeValue_complete`: the value of an attribute, whatever it is.
-/

namespace RoleFlow

/-! ## Tokens -/

namespace Token

theorem isMark_iff {t : Token} {mark : Char} :
    t.isMark mark = true ↔ t.kind = .mark ∧ t.chars = [mark] := by
  simp [isMark]

theorem isWord_iff {t : Token} {word : String} :
    t.isWord word = true ↔ t.kind = .word ∧ t.chars = word.toList := by
  simp [isWord]

theorem kind_of_isMark {t : Token} {mark : Char} (h : t.isMark mark = true) : t.kind = .mark :=
  (isMark_iff.mp h).1

theorem kind_of_isWord {t : Token} {word : String} (h : t.isWord word = true) : t.kind = .word :=
  (isWord_iff.mp h).1

theorem not_isMark_of_isMark {t : Token} {mark other : Char} (h : t.isMark mark = true)
    (hne : mark ≠ other) : ¬ t.isMark other = true := by
  intro hother
  have := (isMark_iff.mp h).2.symm.trans (isMark_iff.mp hother).2
  simp at this
  exact hne this

theorem not_isMark_of_kind {t : Token} (h : t.kind = .word) (mark : Char) :
    ¬ t.isMark mark = true := by
  intro hmark
  rw [kind_of_isMark hmark] at h
  cases h

theorem not_isMark_of_isWord {t : Token} {word : String} (h : t.isWord word = true)
    {mark : Char} : ¬ t.isMark mark = true :=
  not_isMark_of_kind (kind_of_isWord h) mark

theorem not_isWord_of_isMark {t : Token} {mark : Char} (h : t.isMark mark = true)
    {word : String} : ¬ t.isWord word = true :=
  fun hword => not_isMark_of_isWord hword h

theorem not_isWord_of_isWord {t : Token} {word other : String} (h : t.isWord word = true)
    (hne : word ≠ other) : ¬ t.isWord other = true := by
  intro hother
  have := (isWord_iff.mp h).2.symm.trans (isWord_iff.mp hother).2
  exact hne (String.toList_inj.mp this)

end Token

namespace Scan

open Grammar

/-! ## Sound and complete readers -/

section Readers

variable {α β : Type} {tokens tokens' rest rest' : List Token} {x : α} {y : β}

/-- What a reader found is `x`, with `rest` left. -/
def Takes (found : Result α tokens) (x : α) (rest : List Token) : Prop :=
  ∃ h, found = .ok ⟨x, rest, h⟩

theorem takes_pure {r : Reading α tokens} : Takes (pure r : Result α tokens) r.value r.rest :=
  ⟨r.shorter, rfl⟩

theorem takes_pure_iff {r : Reading α tokens} :
    Takes (pure r : Result α tokens) x rest ↔ r.value = x ∧ r.rest = rest := by
  constructor
  · rintro ⟨_, h⟩
    cases h
    exact ⟨rfl, rfl⟩
  · rintro ⟨rfl, rfl⟩
    exact takes_pure

theorem takes_bind {found : Result α tokens} {next : Reading α tokens → Result β tokens'}
    (hfound : Takes found x rest) (hnext : ∀ h, Takes (next ⟨x, rest, h⟩) y rest') :
    Takes (found >>= next) y rest' := by
  obtain ⟨h, rfl⟩ := hfound
  exact hnext h

theorem exists_of_takes_bind {found : Result α tokens}
    {next : Reading α tokens → Result β tokens'} (h : Takes (found >>= next) y rest') :
    ∃ x rest h, Takes found x rest ∧ Takes (next ⟨x, rest, h⟩) y rest' := by
  cases found with
  | error e =>
    obtain ⟨_, h⟩ := h
    cases h
  | ok r => exact ⟨r.value, r.rest, r.shorter, ⟨r.shorter, rfl⟩, h⟩

theorem not_takes_error {e : SyntaxError} : ¬ Takes (.error e : Result α tokens) x rest := by
  rintro ⟨_, h⟩
  cases h

/-- The tokens that a reader takes are a phrase that denotes its value. -/
def Sound (read : (tokens : List Token) → Result α tokens)
    (phrase : List Token → α → Prop) : Prop :=
  ∀ {tokens rest : List Token} {x : α}, Takes (read tokens) x rest →
    ∃ taken, phrase taken x ∧ tokens = taken ++ rest

/-- A reader takes every phrase, if what comes after it satisfies `after`. -/
def Complete (read : (tokens : List Token) → Result α tokens)
    (phrase : List Token → α → Prop) (after : List Token → Prop) : Prop :=
  ∀ {taken rest : List Token} {x : α}, phrase taken x → after rest →
    Takes (read (taken ++ rest)) x rest

end Readers

theorem complete_of_anything {α : Type} {read : (tokens : List Token) → Result α tokens}
    {phrase : List Token → α → Prop} (h : Complete read phrase fun _ => True)
    (after : List Token → Prop) : Complete read phrase after :=
  fun hphrase _ => h hphrase trivial

/-- The marks that can extend a phrase, or make one of another kind of it. -/
def extenders : List Char := ['.', '<', '(', ':']

/-- What does not extend the phrase before it. -/
def Ends (rest : List Token) : Prop :=
  ∀ t ∈ rest.head?, ∀ mark ∈ extenders, ¬ t.isMark mark = true

theorem ends_of_isMark {t : Token} {mark : Char} {rest : List Token} (h : t.isMark mark = true)
    (hmark : mark ∉ extenders) : Ends (t :: rest) := by
  intro u hu other hother
  cases hu
  refine t.not_isMark_of_isMark h ?_
  rintro rfl
  exact hmark hother

variable (s : Scan)

/-! ## Single tokens -/

section Single

variable {accepts : Token → Bool} {fault : Option Token → SyntaxFault} {t found : Token}
  {tokens rest : List Token} {letter : Char} {text : String}

theorem take_cons (h : accepts t = true) : Takes (s.take accepts fault (t :: rest)) t rest := by
  refine ⟨by simp, ?_⟩
  rw [take, if_pos h]

theorem of_take (h : Takes (s.take accepts fault tokens) found rest) :
    accepts found = true ∧ tokens = found :: rest := by
  obtain ⟨_, h⟩ := h
  cases tokens with
  | nil => cases h
  | cons t ts =>
    rw [take] at h
    split at h
    · next haccepts =>
      cases h
      exact ⟨haccepts, rfl⟩
    · cases h

theorem mark_cons (h : t.isMark letter = true) : Takes (s.mark letter (t :: rest)) t rest :=
  s.take_cons h

theorem of_mark (h : Takes (s.mark letter tokens) found rest) :
    found.isMark letter = true ∧ tokens = found :: rest :=
  s.of_take h

theorem word_cons (h : t.isWord text = true) : Takes (s.word text (t :: rest)) t rest :=
  s.take_cons h

theorem of_word (h : Takes (s.word text tokens) found rest) :
    found.isWord text = true ∧ tokens = found :: rest :=
  s.of_take h

theorem name_cons (h : t.kind = .word) : Takes (s.name (t :: rest)) t.text rest :=
  takes_bind (s.take_cons (by simpa using h)) fun _ => takes_pure

theorem of_name (h : Takes (s.name tokens) text rest) :
    ∃ t : Token, t.kind = .word ∧ text = t.text ∧ tokens = t :: rest := by
  obtain ⟨t, _, _, ht, h⟩ := exists_of_takes_bind h
  obtain ⟨hkind, rfl⟩ := s.of_take ht
  obtain ⟨rfl, rfl⟩ := takes_pure_iff.mp h
  exact ⟨t, by simpa using hkind, rfl, rfl⟩

end Single

theorem name_sound : Sound s.name IsName := by
  intro tokens rest x h
  obtain ⟨t, hkind, rfl, rfl⟩ := s.of_name h
  exact ⟨[t], .word hkind, rfl⟩

theorem name_complete : Complete s.name IsName fun _ => True := by
  intro taken rest x h _
  cases h with
  | word h => exact s.name_cons h

theorem quotedText_sound : Sound s.quotedText IsText := by
  intro tokens rest x h
  obtain ⟨t, _, _, ht, h⟩ := exists_of_takes_bind h
  obtain ⟨hkind, rfl⟩ := s.of_take ht
  obtain ⟨rfl, rfl⟩ := takes_pure_iff.mp h
  exact ⟨[t], .text (by simpa using hkind), rfl⟩

theorem quotedText_complete : Complete s.quotedText IsText fun _ => True := by
  intro taken rest x h _
  cases h with
  | text h => exact takes_bind (s.take_cons (by simpa using h)) fun _ => takes_pure

theorem lookAhead_eq_ok (herror : s.error = none) (offset : Nat) (tokens : List Token) :
    s.lookAhead offset tokens = .ok () := by
  rw [lookAhead, herror]
  split
  · next h => cases h
  · rfl

/-! ## Lists -/

section Lists

variable {α : Type} {item : (tokens : List Token) → Result α tokens}
  {phrase : List Token → α → Prop} {opening closing : Char}

theorem items_sound (hitem : Sound item phrase) {tokens rest : List Token} {xs : List α}
    (h : Takes (s.items item closing tokens) xs rest) :
    ∃ taken last, Separated phrase taken xs ∧ last.isMark closing = true ∧
      tokens = taken ++ last :: rest := by
  induction hlen : tokens.length using Nat.strongRecOn generalizing tokens rest xs with
  | ind n ih =>
    subst hlen
    rw [items] at h
    obtain ⟨x, after, hshorter, hx, h⟩ := exists_of_takes_bind h
    obtain ⟨taken, hphrase, htokens⟩ := hitem hx
    dsimp only at h
    split at h
    · exact absurd h not_takes_error
    · next comma inner =>
      split at h
      · next hcomma =>
        obtain ⟨xs, rest, _, hmore, h⟩ := exists_of_takes_bind h
        simp only [takes_pure_iff] at h
        obtain ⟨rfl, rfl⟩ := h
        obtain ⟨taken', last, htail, hlast, rfl⟩ :=
          ih inner.length (by rw [List.length_cons] at hshorter; omega) hmore rfl
        exact ⟨taken ++ comma :: taken', last, .more hphrase hcomma htail, hlast, by
          rw [htokens, List.append_assoc, List.cons_append]⟩
      · obtain ⟨close, rest, _, hclose, h⟩ := exists_of_takes_bind h
        simp only [takes_pure_iff] at h
        obtain ⟨rfl, rfl⟩ := h
        obtain ⟨hmark, hinner⟩ := s.of_mark hclose
        exact ⟨taken, close, .last hphrase, hmark, by rw [htokens, hinner]⟩

theorem items_complete (hitem : Complete item phrase Ends) (hclosing : closing ∉ ',' :: extenders)
    {taken rest : List Token} {last : Token} {xs : List α} (h : Separated phrase taken xs)
    (hlast : last.isMark closing = true) :
    Takes (s.items item closing (taken ++ last :: rest)) xs rest := by
  obtain ⟨hcomma, hextends⟩ := not_or.mp (mt List.mem_cons.mpr hclosing)
  induction h with
  | last head =>
    rw [items]
    refine takes_bind (hitem head (ends_of_isMark hlast hextends)) fun _ => ?_
    dsimp only
    rw [if_neg (last.not_isMark_of_isMark hlast hcomma)]
    exact takes_bind (s.mark_cons hlast) fun _ => takes_pure
  | @more ts us comma x xs head hisComma tail ih =>
    rw [List.append_assoc, List.cons_append, items]
    refine takes_bind (hitem head
      (ends_of_isMark hisComma (by decide))) fun _ => ?_
    dsimp only
    rw [if_pos hisComma]
    exact takes_bind ih fun _ => takes_pure

/-- A phrase begins with a token other than a mark. -/
def BeginsPlain (phrase : List Token → α → Prop) : Prop :=
  ∀ {ts : List Token} {x : α}, phrase ts x → ∃ t us, ts = t :: us ∧ t.kind ≠ .mark

variable (closing) in
theorem separated_cons (hplain : BeginsPlain phrase) {ts : List Token} {xs : List α}
    (h : Separated phrase ts xs) : ∃ t us, ts = t :: us ∧ ¬ t.isMark closing = true := by
  obtain ⟨t, us, rfl, hkind⟩ : ∃ t us, ts = t :: us ∧ t.kind ≠ .mark := by
    cases h with
    | last head => exact hplain head
    | more head _ _ =>
      obtain ⟨t, us, rfl, hkind⟩ := hplain head
      exact ⟨t, _, rfl, hkind⟩
  exact ⟨t, us, rfl, fun hmark => hkind (t.kind_of_isMark hmark)⟩

theorem list_sound (hitem : Sound item phrase) {tokens rest : List Token} {xs : List α}
    (h : Takes (s.list item closing tokens) xs rest) :
    ∃ taken, tokens = taken ++ rest ∧
      ∀ {opening : Char} (first : Token), first.isMark opening →
        Enclosed phrase opening closing (first :: taken) xs := by
  cases tokens with
  | nil =>
    obtain ⟨_, _, _, _, h⟩ := s.items_sound hitem h
    simp at h
  | cons t ts =>
    rw [list] at h
    split at h
    · next hclosing =>
      obtain ⟨_, h⟩ := h
      cases h
      exact ⟨[t], rfl, fun first hfirst => .empty hfirst hclosing⟩
    · obtain ⟨taken, last, hphrases, hlast, htokens⟩ := s.items_sound hitem h
      exact ⟨taken ++ [last], by rw [htokens, List.append_assoc, List.singleton_append],
        fun first hfirst => .full hfirst hlast hphrases⟩

theorem list_complete (hitem : Complete item phrase Ends) (hplain : BeginsPlain phrase)
    (hclosing : closing ∉ ',' :: extenders) {first : Token} {taken rest : List Token} {xs : List α}
    (h : Enclosed phrase opening closing (first :: taken) xs) :
    Takes (s.list item closing (taken ++ rest)) xs rest := by
  cases h with
  | empty hfirst hlast =>
    rw [List.singleton_append, list, if_pos hlast]
    exact ⟨by simp, rfl⟩
  | @full _ last _ _ hfirst hlast inner =>
    obtain ⟨t, us, rfl, hmark⟩ := separated_cons closing hplain inner
    have hitems : Takes (s.items item closing (t :: us ++ last :: rest)) xs rest :=
      s.items_complete hitem hclosing inner hlast
    rw [show (t :: us).append [last] ++ rest = t :: (us ++ last :: rest) by simp]
    rw [list, if_neg hmark]
    exact hitems

/-- What an optional list found is `xs`, with `rest` left. -/
def Passes {tokens : List Token}
    (found : Except SyntaxError { found : List α × List Token // found.2.length ≤ tokens.length })
    (xs : List α) (rest : List Token) : Prop :=
  ∃ h, found = .ok ⟨(xs, rest), h⟩

theorem passes_bind {β : Type} {tokens tokens' rest rest' : List Token} {xs : List α} {y : β}
    {found : Except SyntaxError { found : List α × List Token // found.2.length ≤ tokens.length }}
    {next : { found : List α × List Token // found.2.length ≤ tokens.length } → Result β tokens'}
    (hfound : Passes found xs rest) (hnext : ∀ h, Takes (next ⟨(xs, rest), h⟩) y rest') :
    Takes (found >>= next) y rest' := by
  obtain ⟨h, rfl⟩ := hfound
  exact hnext h

theorem exists_of_passes_bind {β : Type} {tokens tokens' rest' : List Token} {y : β}
    {found : Except SyntaxError { found : List α × List Token // found.2.length ≤ tokens.length }}
    {next : { found : List α × List Token // found.2.length ≤ tokens.length } → Result β tokens'}
    (h : Takes (found >>= next) y rest') :
    ∃ xs rest h, Passes found xs rest ∧ Takes (next ⟨(xs, rest), h⟩) y rest' := by
  cases found with
  | error e => exact absurd h not_takes_error
  | ok r => exact ⟨r.1.1, r.1.2, r.2, ⟨r.2, rfl⟩, h⟩

theorem parenthesized_sound (hitem : Sound item phrase) {tokens rest : List Token} {xs : List α}
    (h : Passes (s.parenthesized item tokens) xs rest) :
    ∃ taken, Parenthesized phrase taken xs ∧ tokens = taken ++ rest := by
  obtain ⟨_, h⟩ := h
  cases tokens with
  | nil =>
    cases h
    exact ⟨[], .absent, rfl⟩
  | cons t ts =>
    rw [parenthesized] at h
    split at h
    · next hparen =>
      cases hlist : s.list item ')' ts with
      | error e =>
        rw [hlist] at h
        cases h
      | ok r =>
        rw [hlist] at h
        cases h
        obtain ⟨taken, htokens, henclosed⟩ :=
          s.list_sound hitem ⟨r.shorter, hlist⟩
        exact ⟨t :: taken, .present (henclosed t hparen), congrArg (t :: ·) htokens⟩
    · cases h
      exact ⟨[], .absent, rfl⟩

theorem parenthesized_complete (hitem : Complete item phrase Ends) (hplain : BeginsPlain phrase)
    {taken rest : List Token} {xs : List α} (h : Parenthesized phrase taken xs)
    (hrest : Ends rest) : Passes (s.parenthesized item (taken ++ rest)) xs rest := by
  cases h with
  | absent =>
    cases rest with
    | nil => exact ⟨by simp, rfl⟩
    | cons t ts =>
      refine ⟨Nat.le_refl _, ?_⟩
      change s.parenthesized item (t :: ts) = _
      rw [parenthesized, if_neg (hrest t rfl '(' (by decide))]
  | present h =>
    obtain ⟨first, ts, rfl, hfirst⟩ : ∃ first ts, taken = first :: ts ∧ first.isMark '(' := by
      cases h with
      | empty hfirst _ => exact ⟨_, _, rfl, hfirst⟩
      | full hfirst _ _ => exact ⟨_, _, rfl, hfirst⟩
    obtain ⟨_, hlist⟩ : Takes (s.list item ')' (ts ++ rest)) xs rest :=
      s.list_complete hitem hplain
      (by decide) h
    refine ⟨by simp only [List.length_cons, List.length_append]; omega, ?_⟩
    change s.parenthesized item (first :: (ts ++ rest)) = _
    rw [parenthesized, if_pos hfirst, hlist]
    rfl

end Lists

/-! ## Types, parameters and actors -/

theorem typeText_sound : Sound s.typeText IsType := by
  intro tokens rest x h
  fun_induction typeText s tokens generalizing x rest with
  | case1 => exact absurd h not_takes_error
  | case2 t htype bracket inner hless ih =>
    obtain ⟨argument, after, _, hargument, h⟩ := exists_of_takes_bind h
    obtain ⟨close, rest, _, hclose, h⟩ := exists_of_takes_bind h
    simp only [takes_pure_iff] at h
    obtain ⟨rfl, rfl⟩ := h
    obtain ⟨hgreater, hafter⟩ := s.of_mark hclose
    obtain ⟨taken, hphrase, rfl⟩ := ih hargument
    subst hafter
    exact ⟨t :: bracket :: taken ++ [close], .generic htype hless hphrase hgreater, by simp⟩
  | case3 t htype bracket inner hless =>
    obtain ⟨_, h⟩ := h
    cases h
    exact ⟨[t], .plain htype, rfl⟩
  | case4 t htype =>
    obtain ⟨_, h⟩ := h
    cases h
    exact ⟨[t], .plain htype, rfl⟩
  | case5 => exact absurd h not_takes_error

theorem typeText_complete : Complete s.typeText IsType Ends := by
  intro taken rest x h hrest
  induction h generalizing rest with
  | @plain t h =>
    cases rest with
    | nil =>
      rw [List.singleton_append, typeText, if_pos h]
      exact ⟨by simp, rfl⟩
    | cons u us =>
      rw [List.singleton_append, typeText, if_pos h, if_neg (hrest u rfl '<' (by decide))]
      exact ⟨by simp, rfl⟩
  | @generic t less greater ts argument h hless inner hgreater ih =>
    have hargument : Takes (s.typeText (ts ++ greater :: rest)) argument (greater :: rest) :=
      ih (ends_of_isMark hgreater (by decide))
    rw [List.append_assoc, List.cons_append, List.cons_append, typeText, if_pos h, if_pos hless]
    refine takes_bind hargument fun _ => ?_
    exact takes_bind (s.mark_cons hgreater) fun _ => takes_pure

theorem typedName_sound : Sound s.typedName IsTypedName := by
  intro tokens rest x h
  obtain ⟨name, _, _, hname, h⟩ := exists_of_takes_bind h
  obtain ⟨colon, _, _, hcolon, h⟩ := exists_of_takes_bind h
  obtain ⟨type, _, _, htype, h⟩ := exists_of_takes_bind h
  simp only [takes_pure_iff] at h
  obtain ⟨rfl, rfl⟩ := h
  obtain ⟨t, hkind, rfl, rfl⟩ := s.of_name hname
  obtain ⟨hmark, rfl⟩ := s.of_mark hcolon
  obtain ⟨taken, hphrase, rfl⟩ := s.typeText_sound htype
  exact ⟨t :: colon :: taken, .mk hkind hmark hphrase, rfl⟩

theorem typedName_complete : Complete s.typedName IsTypedName Ends := by
  intro taken rest x h hrest
  cases h with
  | mk hname hcolon htype =>
    refine takes_bind (s.name_cons hname) fun _ => takes_bind (s.mark_cons hcolon) fun _ => ?_
    exact takes_bind (s.typeText_complete htype hrest) fun _ => takes_pure

theorem typedName_plain : BeginsPlain IsTypedName := by
  intro ts x h
  cases h with
  | mk hname _ _ => exact ⟨_, _, rfl, by rw [hname]; decide⟩

theorem actorKind_sound : Sound s.actorKind IsKind := by
  intro tokens rest x h
  obtain ⟨t, _, _, ht, h⟩ := exists_of_takes_bind h
  obtain ⟨hsome, rfl⟩ := s.of_take ht
  obtain ⟨rfl, rfl⟩ := takes_pure_iff.mp h
  refine ⟨[t], ?_, rfl⟩
  simp only [Reading.map, actorOfWord?] at hsome ⊢
  split
  · next h =>
    rcases Bool.or_eq_true _ _ ▸ h with h | h
    · exact .ai h
    · exact .al h
  · split
    · next h => exact .human h
    · next h h' => simp [h, h'] at hsome

theorem actorKind_complete : Complete s.actorKind IsKind fun _ => True := by
  intro taken rest x h _
  have hread : ∀ {t : Token} {kind : ActorKind}, actorOfWord? t = some kind →
      Takes (s.actorKind (t :: rest)) kind rest := by
    intro t kind hkind
    refine takes_bind (s.take_cons (by rw [hkind]; rfl)) fun _ => ?_
    simp [takes_pure_iff, Reading.map, hkind]
  cases h with
  | ai h => exact hread (by simp [actorOfWord?, h])
  | al h => exact hread (by simp [actorOfWord?, h])
  | human h =>
    refine hread ?_
    simp [actorOfWord?, h, Token.not_isWord_of_isWord h]

theorem performer_sound : Sound s.performer IsActor := by
  intro tokens rest x h
  cases tokens with
  | nil => exact absurd h not_takes_error
  | cons t ts =>
    rw [performer] at h
    split at h
    · next hrole =>
      obtain ⟨name, _, _, hname, h⟩ := exists_of_takes_bind h
      simp only [takes_pure_iff] at h
      obtain ⟨rfl, rfl⟩ := h
      obtain ⟨u, hkind, rfl, rfl⟩ := s.of_name hname
      exact ⟨[t, u], .role hrole hkind, rfl⟩
    · obtain ⟨kind, _, _, hkind, h⟩ := exists_of_takes_bind h
      obtain ⟨rfl, rfl⟩ := takes_pure_iff.mp h
      obtain ⟨taken, hphrase, htokens⟩ := s.actorKind_sound hkind
      exact ⟨taken, .kind hphrase, htokens⟩

theorem performer_complete : Complete s.performer IsActor fun _ => True := by
  intro taken rest x h _
  cases h with
  | role hkeyword hname =>
    rw [List.cons_append, performer, if_pos hkeyword]
    exact takes_bind (s.name_cons hname) fun _ => takes_pure
  | @kind _ kind h =>
    obtain ⟨t, rfl, hrole⟩ : ∃ t : Token, taken = [t] ∧ ¬ t.isWord "role" = true := by
      cases h with
      | ai h => exact ⟨_, rfl, Token.not_isWord_of_isWord h (by decide)⟩
      | al h => exact ⟨_, rfl, Token.not_isWord_of_isWord h (by decide)⟩
      | human h => exact ⟨_, rfl, Token.not_isWord_of_isWord h (by decide)⟩
    have hkind : Takes (s.actorKind (t :: rest)) kind rest := s.actorKind_complete h trivial
    rw [List.singleton_append]
    rw [performer, if_neg hrole]
    exact takes_bind hkind fun _ => takes_pure

/-! ## Attributes -/

section Attributes

variable {α : Type} {value : (tokens : List Token) → Result α tokens}
  {phrase : List Token → α → Prop}

theorem attributeValue_sound (hvalue : Sound value phrase) {tokens rest : List Token} {x : α}
    (h : Takes (s.attributeValue value tokens) x rest) :
    ∃ taken, tokens = taken ++ rest ∧
      ∀ {word : Token} {keyword : String}, word.isWord keyword →
        IsAttribute keyword phrase (word :: taken) x := by
  obtain ⟨colon, _, _, hcolon, h⟩ := exists_of_takes_bind h
  obtain ⟨found, _, _, hfound, h⟩ := exists_of_takes_bind h
  obtain ⟨semicolon, _, _, hsemicolon, h⟩ := exists_of_takes_bind h
  simp only [takes_pure_iff] at h
  obtain ⟨rfl, rfl⟩ := h
  obtain ⟨hmark, rfl⟩ := s.of_mark hcolon
  obtain ⟨taken, hphrase, rfl⟩ := hvalue hfound
  obtain ⟨hend, rfl⟩ := s.of_mark hsemicolon
  exact ⟨colon :: taken ++ [semicolon], by simp, fun hword => .mk hword hmark hphrase hend⟩

/-- An attribute is a keyword, and what the reader of its value takes. -/
theorem attributeValue_complete (hvalue : Complete value phrase Ends) {keyword : String}
    {tokens : List Token} {x : α} (h : IsAttribute keyword phrase tokens x) :
    ∃ word taken, tokens = word :: taken ∧ word.isWord keyword ∧
      ∀ rest, Takes (s.attributeValue value (taken ++ rest)) x rest := by
  cases h with
  | @mk word colon semicolon ts _ hword hcolon hphrase hsemicolon =>
    refine ⟨word, colon :: ts ++ [semicolon], rfl, hword, fun rest => ?_⟩
    rw [show colon :: ts ++ [semicolon] ++ rest = colon :: (ts ++ semicolon :: rest) by simp]
    refine takes_bind (s.mark_cons hcolon) fun _ => ?_
    refine takes_bind (hvalue hphrase
      (ends_of_isMark hsemicolon (by decide))) fun _ => ?_
    exact takes_bind (s.mark_cons hsemicolon) fun _ => takes_pure

end Attributes

theorem names_sound : Sound s.names (Enclosed IsName '[' ']') := by
  intro tokens rest x h
  obtain ⟨bracket, _, _, hbracket, h⟩ := exists_of_takes_bind h
  obtain ⟨found, _, _, hfound, h⟩ := exists_of_takes_bind h
  obtain ⟨rfl, rfl⟩ := takes_pure_iff.mp h
  obtain ⟨hmark, rfl⟩ := s.of_mark hbracket
  obtain ⟨taken, rfl, henclosed⟩ := s.list_sound (s.name_sound) hfound
  exact ⟨bracket :: taken, henclosed bracket hmark, rfl⟩

theorem isName_plain : BeginsPlain IsName := by
  intro ts x h
  cases h with
  | word h => exact ⟨_, _, rfl, by rw [h]; decide⟩

theorem names_complete : Complete s.names (Enclosed IsName '[' ']') fun _ => True := by
  intro taken rest x h _
  obtain ⟨first, ts, rfl, hfirst⟩ : ∃ first ts, taken = first :: ts ∧ first.isMark '[' := by
    cases h with
    | empty hfirst _ => exact ⟨_, _, rfl, hfirst⟩
    | full hfirst _ _ => exact ⟨_, _, rfl, hfirst⟩
  refine takes_bind (s.mark_cons hfirst) fun _ => ?_
  refine takes_bind (s.list_complete (complete_of_anything s.name_complete _) isName_plain
    (by decide) h) fun _ => takes_pure

end Scan

end RoleFlow
