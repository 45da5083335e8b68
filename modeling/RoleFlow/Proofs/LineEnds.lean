import RoleFlow.Proofs.Layout
import RoleFlow.Source.Parser

/-!
# Line ends

A document may end its lines with a carriage return and a line feed or with a line feed alone. The
carriage return is a blank before a blank, or part of a comment that the line feed ends, so that the
buffer is the same.

Main definitions:
* `joinLineEnds`: the document with line feeds alone.
* `Joined`: the same, or some of it, as a relation that every stage of the buffer keeps.

Results:
* `Joined.buffer_eq`: the buffer does not depend on the line ends.
* `parseFile_eq_parse`: neither does parsing, of a text or of a file.
-/

namespace RoleFlow

namespace Source

/-- Every carriage return comes directly before a line feed. -/
def IsPaired (cs : List Char) : Prop := ∀ i, cs[i]? = some '\r' → cs[i + 1]? = some '\n'

instance (cs : List Char) : Decidable (IsPaired cs) :=
  decidable_of_iff (∀ i < cs.length, cs[i]? = some '\r' → cs[i + 1]? = some '\n')
    ⟨fun h i hi => h i (List.getElem?_eq_some_iff.mp hi).1 hi, fun h i _ => h i⟩

/-- The text with every carriage return that comes before a line feed taken away. -/
def joinLineEnds : List Char → List Char
  | [] => []
  | '\r' :: '\n' :: cs => '\n' :: joinLineEnds cs
  | c :: cs => c :: joinLineEnds cs

/-- The second text is the first one without some of the carriage returns before line feeds. -/
inductive Joined : List Char → List Char → Prop
  | nil : Joined [] []
  | cons (c : Char) {xs ys : List Char} (h : Joined xs ys) : Joined (c :: xs) (c :: ys)
  | pair {xs ys : List Char} (h : Joined xs ys) : Joined ('\r' :: '\n' :: xs) ('\n' :: ys)

theorem joined_joinLineEnds (cs : List Char) : Joined cs (joinLineEnds cs) := by
  fun_induction joinLineEnds cs with
  | case1 => exact .nil
  | case2 cs ih => exact .pair ih
  | case3 c cs _ ih => exact .cons c ih

/-! ## Stages of the buffer -/

namespace Joined

variable {xs ys : List Char}

/-- The front is the same unless a carriage return was taken away there. -/
theorem head?_eq_some_iff (h : Joined xs ys) {c : Char} (hreturn : c ≠ '\r') (hfeed : c ≠ '\n') :
    xs.head? = some c ↔ ys.head? = some c := by
  cases h with
  | nil => exact Iff.rfl
  | cons d h => exact Iff.rfl
  | pair h => simp [hreturn.symm, hfeed.symm]

theorem dropMark (h : Joined xs ys) : Joined (dropMark xs) (dropMark ys) := by
  cases h with
  | nil => exact .nil
  | cons c h =>
    rw [Source.dropMark, Source.dropMark]
    split
    · exact h
    · exact .cons c h
  | pair h => exact .pair h

theorem filter (h : Joined xs ys) {p : Char → Bool} (hreturn : p '\r' = true)
    (hfeed : p '\n' = true) : Joined (xs.filter p) (ys.filter p) := by
  induction h with
  | nil => exact .nil
  | cons c h ih =>
    rw [List.filter_cons, List.filter_cons]
    split
    · exact .cons c ih
    · exact ih
  | pair h ih =>
    rw [List.filter_cons_of_pos hreturn, List.filter_cons_of_pos hfeed,
      List.filter_cons_of_pos hfeed]
    exact .pair ih

end Joined

/-- A slash begins a comment if another one follows. -/
theorem dropComments_slash_eq (cs : List Char) :
    dropComments false ('/' :: cs) =
      if cs.head? = some '/' then dropComments true cs else '/' :: dropComments false cs := by
  cases cs with
  | nil => rfl
  | cons d ds =>
    by_cases hd : d = '/'
    · subst hd
      rw [if_pos (List.head?_cons), dropComments, dropComments, if_neg (by decide)]
    · rw [List.head?_cons, if_neg (fun h => hd (Option.some.inj h)), dropComments_slash hd]

namespace Joined

variable {xs ys : List Char}

/-- A carriage return that is taken away inside a comment was part of the comment. -/
theorem dropComments (h : Joined xs ys) (inComment : Bool) :
    Joined (dropComments inComment xs) (dropComments inComment ys) := by
  induction h generalizing inComment with
  | nil => cases inComment <;> exact .nil
  | @cons c xs ys h ih =>
    cases inComment with
    | true =>
      rw [Source.dropComments, Source.dropComments]
      split
      · exact .cons c (ih false)
      · exact ih true
    | false =>
      by_cases hc : c = '/'
      · subst hc
        rw [dropComments_slash_eq, dropComments_slash_eq]
        simp only [h.head?_eq_some_iff (c := '/') (by decide) (by decide)]
        split
        · exact ih true
        · exact .cons '/' (ih false)
      · rw [dropComments_cons hc, dropComments_cons hc]
        exact .cons c (ih false)
  | @pair xs ys h ih =>
    cases inComment with
    | true =>
      rw [Source.dropComments, if_neg (by decide), Source.dropComments, if_pos rfl,
        Source.dropComments, if_pos rfl]
      exact .cons '\n' (ih false)
    | false =>
      rw [dropComments_cons (by decide), dropComments_cons (by decide),
        dropComments_cons (by decide)]
      exact .pair (ih false)

theorem collapseBlanks_eq (h : Joined xs ys) (afterBlank : Bool) :
    collapseBlanks afterBlank xs = collapseBlanks afterBlank ys := by
  induction h generalizing afterBlank with
  | nil => rfl
  | cons c h ih => rw [collapseBlanks, collapseBlanks, ih, ih]
  | pair h ih =>
    rw [collapseBlanks_blank (by decide), collapseBlanks_blank (by decide),
      collapseBlanks_blank (by decide), ih]
    rfl

/-- The buffer does not depend on the line ends. -/
theorem buffer_eq (h : Joined xs ys) : buffer xs = buffer ys :=
  ((h.dropMark.filter (by decide) (by decide)).dropComments false).collapseBlanks_eq false

theorem bufferRecords_eq (h : Joined xs ys) : bufferRecords xs = bufferRecords ys := by
  have hmark := h.head?_eq_some_iff (c := byteOrderMark) (by decide) (by decide)
  simp only [bufferRecords, hmark]

end Joined

/-! ## Files -/

theorem IsPaired.tail {c : Char} {cs : List Char} (h : IsPaired (c :: cs)) : IsPaired cs :=
  fun i hi => h (i + 1) hi

/-- Where every carriage return comes before a line feed, files are read as the text without
these carriage returns. -/
theorem normalizeLineEnds_of_isPaired {cs : List Char} (h : IsPaired cs) :
    normalizeLineEnds cs = joinLineEnds cs := by
  fun_induction joinLineEnds cs with
  | case1 => rfl
  | case2 cs ih => rw [normalizeLineEnds, ih h.tail.tail]
  | case3 c cs hpair ih =>
    have hc : c ≠ '\r' := by
      rintro rfl
      obtain ⟨rest, rfl⟩ := List.head?_eq_some_iff.mp (List.head?_eq_getElem?.trans (h 0 rfl))
      exact hpair rest rfl rfl
    rw [normalizeLineEnds, if_neg hc, ih h.tail]
    exact hpair

end Source

/-- A parse depends on the buffer and on a mark in front. -/
theorem parse_of_joined {document other : String}
    (h : Source.Joined document.toList other.toList) : parse document = parse other := by
  rw [parse, parse, h.buffer_eq, h.bufferRecords_eq]

/-- A document has the same buffer with either kind of line ends, and so the same program or the
same error at the same place. From a file it is read as it stands if each of its carriage returns
comes directly before a line feed. -/
theorem parseFile_eq_parse (document : String) :
    Source.buffer (Source.joinLineEnds document.toList) = Source.buffer document.toList ∧
      parse (String.ofList (Source.joinLineEnds document.toList)) = parse document ∧
      (Source.IsPaired document.toList → parseFile document = parse document) := by
  have hjoined := Source.joined_joinLineEnds document.toList
  have hparse : parse (String.ofList (Source.joinLineEnds document.toList)) = parse document :=
    (parse_of_joined (by rwa [String.toList_ofList])).symm
  refine ⟨hjoined.buffer_eq.symm, hparse, fun hpaired => ?_⟩
  rw [parseFile, Source.normalizeLineEnds_of_isPaired hpaired, hparse]

theorem parseFile_eq_parse_comment :
    let document := "\uFEFF// one\r\nrole R \x7b\r\n\x01\r\n description: \"a\r\n b\"; // two\r\n @"
    let e : SyntaxError := ⟨.unexpectedCharacter '@', 30, "description: \"a b\"; [@]"⟩
    Source.IsPaired document.toList ∧ parseFile document = parse document ∧
      (parseFile document).value = .error e := by
  intro document e
  have hpaired : Source.IsPaired document.toList := by decide +kernel
  have hparse : parseFile document = parse document := (parseFile_eq_parse document).2.2 hpaired
  have herror : (parse document).value = .error e := by decide +kernel
  exact ⟨hpaired, hparse, hparse ▸ herror⟩

-- a carriage return alone ends a comment only in a file
example :
    (parse "// one\rrole R \x7b \x7d").value = .ok .empty ∧
      (parseFile "// one\rrole R \x7b \x7d").value = .ok ⟨[], [], [⟨"R", "", none⟩], []⟩ := by
  decide +kernel

end RoleFlow
