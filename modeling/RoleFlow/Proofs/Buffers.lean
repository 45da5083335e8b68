import RoleFlow.Proofs.Formatting

/-!
# What buffers look like

A buffer holds no control characters, no blanks but single spaces, and no two slashes together. A
text of this kind that does not begin with a byte-order mark is its own buffer.

Results:
* `isPrepared_buffer`, `buffer_of_isPrepared`: buffers are the texts that are their own buffers.
* `buffer_normal_form`: the same of documents, by what does not occur in them.
* `exists_buffer_feed`: the buffer of two documents with a line feed between them.
-/

namespace RoleFlow

namespace Source

/-- No control characters, no blanks but single spaces, and no two slashes together. -/
structure IsPrepared (cs : List Char) : Prop where
  kept : ∀ c ∈ cs, isStrayControl c = false ∧ (isBlank c = true → c = ' ')
  single : cs.IsChain fun a b => ¬ (a = ' ' ∧ b = ' ')
  commentFree : CommentFree cs

/-! ## Buffers are prepared -/

theorem head?_dropComments {cs : List Char} (h : cs.head? ≠ some '/') :
    (dropComments false cs).head? ≠ some '/' := by
  cases cs with
  | nil => simp [dropComments]
  | cons c cs => rwa [dropComments_cons fun heq => h (congrArg some heq)]

/-- What is left without comments has no two slashes together. -/
theorem commentFree_dropComments (inComment : Bool) (cs : List Char) :
    CommentFree (dropComments inComment cs) := by
  fun_induction dropComments inComment cs with
  | case1 => exact .nil
  | case2 cs ih => exact commentFree_cons (by decide) ih
  | case3 c cs hfeed ih => exact ih
  | case4 cs ih => exact ih
  | case5 c cs hslash ih =>
    refine List.isChain_cons.mpr ⟨?_, ih⟩
    rintro d hd ⟨rfl, rfl⟩
    refine head?_dropComments (fun hhead => ?_) hd
    obtain ⟨ds, rfl⟩ := List.head?_eq_some_iff.mp hhead
    exact hslash ds rfl rfl

theorem head?_collapseBlanks {afterBlank : Bool} {cs : List Char}
    (h : (collapseBlanks afterBlank cs).head? = some '/') (hafter : afterBlank = false) :
    cs.head? = some '/' := by
  subst hafter
  cases cs with
  | nil => cases h
  | cons c cs =>
    by_cases hblank : isBlank c = true
    · rw [collapseBlanks_blank hblank] at h
      cases h
    · rwa [collapseBlanks_of_head (Bool.eq_false_iff.mpr hblank)] at h

/-- Blanks that collapse bring no two slashes together. -/
theorem commentFree_collapseBlanks {cs : List Char} (h : CommentFree cs) (afterBlank : Bool) :
    CommentFree (collapseBlanks afterBlank cs) := by
  induction cs generalizing afterBlank with
  | nil => exact .nil
  | cons c cs ih =>
    have hrest : CommentFree cs := h.tail
    by_cases hblank : isBlank c = true
    · rw [collapseBlanks_blank hblank]
      cases afterBlank with
      | true => exact ih hrest true
      | false => exact commentFree_cons (by decide) (ih hrest true)
    · rw [collapseBlanks_of_head (Bool.eq_false_iff.mpr hblank)]
      refine List.isChain_cons.mpr ⟨?_, ih hrest false⟩
      rintro d hd ⟨rfl, rfl⟩
      obtain ⟨ds, rfl⟩ := List.head?_eq_some_iff.mp (head?_collapseBlanks hd rfl)
      exact (List.isChain_cons_cons.mp h).1 ⟨rfl, rfl⟩

/-- Every buffer is prepared. -/
theorem isPrepared_buffer (document : List Char) : IsPrepared (buffer document) where
  kept := fun _ => mem_buffer
  single := (chain_collapseBlanks _ _).1
  commentFree := commentFree_collapseBlanks (commentFree_dropComments _ _) _

/-! ## Prepared texts are their own buffers -/

theorem dropComments_of_commentFree {cs : List Char} (h : CommentFree cs) :
    dropComments false cs = cs := by
  induction cs with
  | nil => rfl
  | cons c cs ih =>
    have hrest := ih h.tail
    by_cases hc : c = '/'
    · cases cs with
      | nil => rw [hc]; rfl
      | cons d ds =>
        have hd : d ≠ '/' := fun hd => (List.isChain_cons_cons.mp h).1 ⟨hc, hd⟩
        rw [hc, dropComments_slash hd, hrest]
    · rw [dropComments_cons hc, hrest]

theorem filter_of_kept {cs : List Char} (h : ∀ c ∈ cs, isStrayControl c = false) :
    (cs.filter fun c => !isStrayControl c) = cs :=
  List.filter_eq_self.mpr fun c hc => by rw [h c hc]; rfl

theorem tidy_of_isPrepared {cs : List Char} (h : IsPrepared cs) : tidy false cs = cs := by
  rw [tidy, filter_of_kept fun c hc => (h.kept c hc).1, dropComments_of_commentFree h.commentFree,
    collapseBlanks_of_single (fun c hc => (h.kept c hc).2) h.single fun hafter => by cases hafter]

/-- A prepared text that does not begin with a byte-order mark is its own buffer. -/
theorem buffer_of_isPrepared {cs : List Char} (h : IsPrepared cs)
    (hmark : cs.head? ≠ some byteOrderMark) : buffer cs = cs := by
  rw [buffer_eq_tidy hmark, tidy_of_isPrepared h]

namespace IsPrepared

variable {cs ds : List Char}

/-- A part of a prepared text is prepared. -/
theorem of_part (h : IsPrepared cs) (hpart : ds <:+: cs) : IsPrepared ds where
  kept := fun c hc => h.kept c (hpart.subset hc)
  single := h.single.infix hpart
  commentFree := h.commentFree.infix hpart

/-- Prepared texts with a space between them are prepared, where no other space touches it. -/
theorem append_space (hcs : IsPrepared cs) (hds : IsPrepared ds) (hlast : cs.getLast? ≠ some ' ')
    (hhead : ds.head? ≠ some ' ') : IsPrepared (cs ++ ' ' :: ds) where
  kept := by
    refine List.forall_mem_append.mpr ⟨hcs.kept, List.forall_mem_cons.mpr ⟨?_, hds.kept⟩⟩
    exact ⟨by decide, fun _ => rfl⟩
  single := by
    refine List.isChain_append.mpr ⟨hcs.single, List.isChain_cons.mpr ⟨?_, hds.single⟩, ?_⟩
    · rintro d hd ⟨-, rfl⟩
      exact hhead hd
    · rintro c hc _ - ⟨rfl, -⟩
      exact hlast hc
  commentFree := by
    refine List.isChain_append.mpr
      ⟨hcs.commentFree, commentFree_cons (by decide) hds.commentFree, ?_⟩
    rintro c - d hd ⟨-, rfl⟩
    cases hd

end IsPrepared

/-! ## The normal form -/

/-- The normal form of documents: no control characters, no comments, and no blanks but single
spaces. -/
structure IsNormal (cs : List Char) : Prop where
  control : ∀ c ∈ cs, 0x1F < c.toNat
  comment : ¬ ['/', '/'] <:+: cs
  blank : ∀ c ∈ cs, isBlank c = true → c = ' '
  single : ¬ [' ', ' '] <:+: cs

/-- No neighbours are equal to `c` both if `c` does not come twice in a row. -/
theorem isChain_not_twice_iff {c : Char} {cs : List Char} :
    (cs.IsChain fun a b => ¬ (a = c ∧ b = c)) ↔ ¬ [c, c] <:+: cs := by
  constructor
  · intro h htwice
    simpa using h.infix htwice
  · intro h
    refine (List.isChain_isInfix cs).imp fun a b hpair => ?_
    rintro ⟨rfl, rfl⟩
    exact h hpair

/-- A control character that is not stray is a blank other than the space. -/
theorem kept_iff {c : Char} :
    (isStrayControl c = false ∧ (isBlank c = true → c = ' ')) ↔
      0x1F < c.toNat ∧ (isBlank c = true → c = ' ') := by
  refine and_congr_left fun hblank => ⟨fun h => ?_, fun h => ?_⟩
  · by_contra hcontrol
    simp only [isStrayControl, Bool.and_eq_false_iff, decide_eq_false_iff_not, bne_eq_false_iff_eq]
      at h
    rcases h with ((hlarge | rfl) | rfl) | rfl
    · omega
    · exact absurd (hblank (by decide)) (by decide)
    · exact absurd (hblank (by decide)) (by decide)
    · exact absurd (hblank (by decide)) (by decide)
  · have hlarge : ¬ c.toNat < 0x20 := by omega
    simp [isStrayControl, hlarge]

theorem isPrepared_iff_isNormal {cs : List Char} : IsPrepared cs ↔ IsNormal cs := by
  constructor
  · intro h
    have hkept := fun c hc => kept_iff.mp (h.kept c hc)
    exact ⟨fun c hc => (hkept c hc).1, isChain_not_twice_iff.mp h.commentFree,
      fun c hc => (hkept c hc).2, isChain_not_twice_iff.mp h.single⟩
  · intro h
    exact ⟨fun c hc => kept_iff.mpr ⟨h.control c hc, h.blank c hc⟩,
      isChain_not_twice_iff.mpr h.single, isChain_not_twice_iff.mpr h.comment⟩

theorem isNormal_buffer (document : List Char) : IsNormal (buffer document) :=
  isPrepared_iff_isNormal.mp (isPrepared_buffer document)

/-- The texts that are their own buffers. -/
theorem buffer_eq_self_iff {cs : List Char} :
    buffer cs = cs ↔ IsNormal cs ∧ cs.head? ≠ some byteOrderMark := by
  constructor
  · intro h
    have hnormal : IsNormal cs := h ▸ isNormal_buffer cs
    refine ⟨hnormal, fun hmark => ?_⟩
    obtain ⟨rest, rfl⟩ := List.head?_eq_some_iff.mp hmark
    have hrest : IsPrepared rest :=
      (isPrepared_iff_isNormal.mpr hnormal).of_part (List.suffix_cons _ rest).isInfix
    have hbuffer : buffer (byteOrderMark :: rest) = rest := tidy_of_isPrepared hrest
    rw [hbuffer] at h
    exact List.cons_ne_self _ rest h.symm
  · rintro ⟨hnormal, hmark⟩
    exact buffer_of_isPrepared (isPrepared_iff_isNormal.mpr hnormal) hmark

/-- Every document has a buffer in normal form. The documents that are their own buffers are those
in normal form that do not begin with a byte-order mark; so to prepare a buffer once more changes
nothing unless it begins with one. -/
theorem buffer_normal_form (document : List Char) :
    IsNormal (buffer document) ∧
      (buffer document = document ↔
        IsNormal document ∧ document.head? ≠ some byteOrderMark) ∧
      (buffer (buffer document) = buffer document ↔
        (buffer document).head? ≠ some byteOrderMark) :=
  ⟨isNormal_buffer document, buffer_eq_self_iff,
    buffer_eq_self_iff.trans (and_iff_right (isNormal_buffer document))⟩

/-! ## Two documents with a line feed between them -/

theorem dropComments_feed (inComment : Bool) (cs rest : List Char) :
    dropComments inComment (cs ++ '\n' :: rest) =
      dropComments inComment cs ++ '\n' :: dropComments false rest := by
  fun_induction dropComments inComment cs with
  | case1 inComment =>
    cases inComment with
    | true => rw [List.nil_append, dropComments, if_pos rfl]; rfl
    | false => exact dropComments_cons (by decide) rest
  | case2 cs ih => rw [List.cons_append, dropComments, if_pos rfl, ih]; rfl
  | case3 c cs hfeed ih => rw [List.cons_append, dropComments, if_neg hfeed, ih]
  | case4 cs ih => rw [List.cons_append, List.cons_append, dropComments, ih]
  | case5 c cs hslash ih =>
    rw [List.cons_append, List.cons_append, dropComments, ih]
    intro ds hc hds
    cases cs with
    | nil => cases hds
    | cons d cs => exact hslash cs hc (by rw [(List.cons.inj hds).1])

/-- Blanks collapse in two parts one after the other; what is before the second one decides whether
a blank in front of it stays. -/
theorem collapseBlanks_parts (afterBlank : Bool) (cs rest : List Char) :
    collapseBlanks afterBlank (cs ++ rest) =
      collapseBlanks afterBlank cs ++
        collapseBlanks ((cs.getLast?.map isBlank).getD afterBlank) rest := by
  induction cs generalizing afterBlank with
  | nil => rfl
  | cons c cs ih =>
    have hlast : ((c :: cs).getLast?.map isBlank).getD afterBlank =
        (cs.getLast?.map isBlank).getD (isBlank c) := by
      rw [List.getLast?_cons]
      cases cs.getLast? <;> rfl
    rw [hlast, List.cons_append]
    by_cases hblank : isBlank c = true
    · rw [collapseBlanks_blank hblank, collapseBlanks_blank hblank, ih, hblank, List.append_assoc]
    · rw [collapseBlanks_of_head (Bool.eq_false_iff.mpr hblank),
        collapseBlanks_of_head (Bool.eq_false_iff.mpr hblank), ih, Bool.eq_false_iff.mpr hblank]
      rfl

theorem getLast?_collapseBlanks {cs : List Char} (afterBlank : Bool)
    (h : cs.getLast?.map isBlank = some true) :
    collapseBlanks afterBlank cs = [] ∧ afterBlank = true ∨
      (collapseBlanks afterBlank cs).getLast? = some ' ' := by
  induction cs generalizing afterBlank with
  | nil => cases h
  | cons c cs ih =>
    cases cs with
    | nil =>
      have hblank : isBlank c = true := Option.some.inj h
      rw [collapseBlanks_blank hblank]
      cases afterBlank with
      | true => exact .inl ⟨rfl, rfl⟩
      | false => exact .inr rfl
    | cons d ds =>
      rw [List.getLast?_cons_cons] at h
      by_cases hblank : isBlank c = true
      · rw [collapseBlanks_blank hblank]
        cases afterBlank with
        | true => exact (ih true h).imp_left fun hnil => ⟨hnil.1, rfl⟩
        | false =>
          right
          rcases ih true h with ⟨hnil, -⟩ | hspace
          · rw [hnil]; rfl
          · rw [List.getLast?_append, hspace]; rfl
      · rw [collapseBlanks_of_head (Bool.eq_false_iff.mpr hblank)]
        right
        rcases ih false h with ⟨-, hfalse⟩ | hspace
        · cases hfalse
        · rw [List.getLast?_cons, hspace]; rfl

/-- The buffer of two documents with a line feed between them: the first buffer, with a space at
its end, and what the second one is but for a space at its front. -/
theorem exists_buffer_feed (first : List Char) {second : List Char}
    (h : second.head? ≠ some byteOrderMark) :
    ∃ seam lead rest, (seam = [' '] ∨ seam = [] ∧ (buffer first).getLast? = some ' ') ∧
      (lead = [' '] ∨ lead = []) ∧ buffer (first ++ '\n' :: second) = buffer first ++ seam ++ rest ∧
      buffer second = lead ++ rest := by
  have hmark : dropMark (first ++ '\n' :: second) = dropMark first ++ '\n' :: second := by
    cases first with
    | nil => rfl
    | cons c cs =>
      rw [List.cons_append, dropMark, dropMark]
      split <;> rfl
  let kept : List Char := dropComments false ((dropMark first).filter fun c => !isStrayControl c)
  let later : List Char := dropComments false (second.filter fun c => !isStrayControl c)
  have hjoined : buffer (first ++ '\n' :: second) =
      buffer first ++ (if (kept.getLast?.map isBlank).getD false then [] else [' ']) ++
        collapseBlanks true later := by
    rw [buffer, hmark, List.filter_append, List.filter_cons_of_pos (by decide), dropComments_feed,
      collapseBlanks_parts, collapseBlanks_blank (by decide), ← List.append_assoc]
    rfl
  have hsecond : ∃ lead, (lead = [' '] ∨ lead = []) ∧
      buffer second = lead ++ collapseBlanks true later := by
    have hbuffer : buffer second = collapseBlanks false later := buffer_eq_tidy h
    rw [hbuffer]
    generalize later = cs
    cases cs with
    | nil => exact ⟨[], .inr rfl, rfl⟩
    | cons c cs =>
      by_cases hblank : isBlank c = true
      · refine ⟨[' '], .inl rfl, ?_⟩
        rw [collapseBlanks_blank hblank, collapseBlanks_blank hblank]
        rfl
      · refine ⟨[], .inr rfl, ?_⟩
        rw [collapseBlanks_of_head (Bool.eq_false_iff.mpr hblank),
          collapseBlanks_of_head (Bool.eq_false_iff.mpr hblank)]
        rfl
  obtain ⟨lead, hlead, hsecond⟩ := hsecond
  refine ⟨_, lead, _, ?_, hlead, hjoined, hsecond⟩
  cases hlast : kept.getLast?.map isBlank with
  | none => exact .inl rfl
  | some blank =>
    cases blank with
    | false => exact .inl rfl
    | true =>
      refine .inr ⟨rfl, ?_⟩
      exact (getLast?_collapseBlanks false hlast).resolve_left fun hnil => by cases hnil.2

end Source

end RoleFlow
