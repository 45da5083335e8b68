import RoleFlow.Proofs.Buffers
import RoleFlow.Proofs.Retelling

/-!
# Documents one after the other

A line feed ends a comment, a run of blanks ends at the token after it, and an accepted document
leaves no token unfinished. So in a document that an accepted one comes before, with a line feed
between the two, the same tokens are scanned further on, and the definitions of the first come
before its own.

Results:
* `exists_scan_feed`: the tokens of two documents with a line feed between them.
* `parse_append_feed`: their program.
-/

namespace RoleFlow

/-! ## Tokens -/

/-- The characters in the same order, with spaces in front, have their tokens further on. -/
theorem scanFrom_spaces_moved (spaces : Nat) (cs : List Char) (position : Nat) :
    (scanFrom (List.replicate spaces ' ' ++ cs) position).1 =
        (scanFrom cs 0).1.map (Token.moved (position + spaces)) ∧
      ((scanFrom (List.replicate spaces ' ' ++ cs) position).2 = none ↔
        (scanFrom cs 0).2 = none) := by
  have hmoved := scanFrom_moved (position + spaces) cs 0
  rw [Nat.zero_add] at hmoved
  rw [scanFrom_spaces, hmoved]
  exact ⟨rfl, Option.map_eq_none_iff⟩

namespace Source

variable {first second : List Char}

/-- After a scanned document and a line feed, a document has its tokens further on. -/
theorem exists_scan_feed (hfirst : (scan (buffer first)).error = none)
    (hmark : second.head? ≠ some byteOrderMark) :
    ∃ (ts : List Token) (distance further : Nat),
      (scan (buffer (first ++ '\n' :: second))).tokens =
          (scan (buffer first)).tokens ++ ts.map (Token.moved further) ∧
        (scan (buffer second)).tokens = ts.map (Token.moved distance) ∧
        ((scan (buffer (first ++ '\n' :: second))).error = none ↔
          (scan (buffer second)).error = none) := by
  obtain ⟨seam, lead, rest, hseam, hlead, hjoined, hsecond⟩ := exists_buffer_feed first hmark
  obtain ⟨stop, left, htiles, hleft⟩ := exists_tiles (buffer first) 0
  obtain ⟨front, hfront, -, hlast, hreplace⟩ := htiles.replace
  rw [error_scan_eq_none_iff.mp hfirst] at hleft
  obtain ⟨spaces, rfl⟩ := eq_spaces_of_scanFrom hleft
  -- between the tokens of the first buffer and what comes after them there is a space
  obtain ⟨between, hbetween⟩ : ∃ between,
      List.replicate spaces ' ' ++ seam ++ rest = List.replicate (between + 1) ' ' ++ rest := by
    rcases hseam with rfl | ⟨rfl, hspace⟩
    · exact ⟨spaces, by rw [List.replicate_succ']⟩
    · cases spaces with
      | zero =>
        rw [hfront, List.replicate_zero, List.append_nil] at hspace
        exact absurd hspace hlast
      | succ n => exact ⟨n, by rw [List.append_nil]⟩
  have hbuffer : buffer (first ++ '\n' :: second) =
      front ++ (List.replicate (between + 1) ' ' ++ rest) := by
    rw [hjoined, hfront, ← hbetween]
    simp only [List.append_assoc]
  have hother : ∀ kind, EndsToken kind (List.replicate (between + 1) ' ' ++ rest) :=
    fun kind => endsToken_space kind _
  obtain ⟨htokens, herror⟩ := scanFrom_spaces_moved (between + 1) rest stop
  have hscan := scanFrom_of_tiles (hreplace _ hother)
  rw [← hbuffer, htokens] at hscan
  obtain ⟨ahead, hahead⟩ : ∃ ahead, lead = List.replicate ahead ' ' := by
    rcases hlead with rfl | rfl
    · exact ⟨1, rfl⟩
    · exact ⟨0, rfl⟩
  obtain ⟨htokens', herror'⟩ := scanFrom_spaces_moved ahead rest 0
  rw [← hahead, ← hsecond] at htokens' herror'
  refine ⟨(scanFrom rest 0).1, 0 + ahead, stop + (between + 1), ?_, htokens', ?_⟩
  · rw [scan_tokens, hscan]
    rfl
  · rw [error_scan_eq_none_iff, error_scan_eq_none_iff, hscan, herror']
    exact herror

end Source

/-! ## Programs -/

open Grammar

/-- Definitions in front are read first. -/
theorem Scan.definitions_append (s : Scan) (herror : s.error = none) {ts : List Token}
    {ds : List Definition} (h : Many (IsDefinition IsKind) ts ds) (rest : List Token) :
    (s.definitions (ts ++ rest)).value = (s.definitions rest).value.map (ds ++ ·) := by
  induction h with
  | nil =>
    rw [List.nil_append]
    cases (s.definitions rest).value <;> rfl
  | cons head tail ih =>
    rw [List.append_assoc, s.definitions_of_takes (s.definition_complete herror head trivial), ih]
    cases (s.definitions rest).value <;> rfl

theorem ofDefinitions_append (ds es : List Definition) :
    Program.ofDefinitions (ds ++ es) =
      ⟨(Program.ofDefinitions ds).actions ++ (Program.ofDefinitions es).actions,
        (Program.ofDefinitions ds).entities ++ (Program.ofDefinitions es).entities,
        (Program.ofDefinitions ds).roles ++ (Program.ofDefinitions es).roles,
        (Program.ofDefinitions ds).workflows ++ (Program.ofDefinitions es).workflows⟩ := by
  simp only [Program.ofDefinitions, List.filterMap_append]

/-- An accepted document may come before any other one, with a line feed between the two: both
together are accepted exactly if the other one is, and each kind of definition is collected from
the first document and then from the second. -/
theorem parse_append_feed {first second : String} {p : Program}
    (hfirst : (parse first).value = .ok p)
    (hmark : second.toList.head? ≠ some Source.byteOrderMark) :
    ((∃ r, (parse (first ++ "\n" ++ second)).value = .ok r) ↔
        ∃ q, (parse second).value = .ok q) ∧
      ∀ q, (parse second).value = .ok q →
        (parse (first ++ "\n" ++ second)).value =
          .ok ⟨p.actions ++ q.actions, p.entities ++ q.entities, p.roles ++ q.roles,
            p.workflows ++ q.workflows⟩ := by
  obtain ⟨herror, ds, rfl, hds⟩ := parse_eq_ok_iff.mp hfirst
  obtain ⟨ts, distance, further, htokens, htokens', hboth⟩ := Source.exists_scan_feed herror hmark
  have hdocument : (first ++ "\n" ++ second).toList = first.toList ++ '\n' :: second.toList := by
    simp
  rw [← hdocument] at htokens hboth
  have hjoined : ∀ q, (parse second).value = .ok q →
      (parse (first ++ "\n" ++ second)).value =
        .ok ⟨(Program.ofDefinitions ds).actions ++ q.actions,
          (Program.ofDefinitions ds).entities ++ q.entities,
          (Program.ofDefinitions ds).roles ++ q.roles,
          (Program.ofDefinitions ds).workflows ++ q.workflows⟩ := by
    intro q hq
    obtain ⟨herror', es, rfl, hes⟩ := parse_eq_ok_iff.mp hq
    rw [htokens'] at hes
    refine parse_eq_ok_iff.mpr ⟨hboth.mpr herror', ds ++ es, ofDefinitions_append ds es, ?_⟩
    rw [htokens]
    exact many_append hds
      (transfers_many transfers_isDefinition hes (retold_moved distance further ts))
  refine ⟨⟨?_, fun ⟨q, hq⟩ => ⟨_, hjoined q hq⟩⟩, hjoined⟩
  rintro ⟨r, hr⟩
  obtain ⟨herror', -⟩ := parse_eq_ok_iff.mp hr
  rw [parse_value, htokens, Scan.definitions_append _ herror' hds] at hr
  cases hmore : ((scan (Source.buffer (first ++ "\n" ++ second).toList)).definitions
      (ts.map (Token.moved further))).value with
  | error e =>
    rw [hmore] at hr
    cases hr
  | ok es =>
    have hes := Scan.definitions_sound _ hmore
    refine ⟨_, parse_eq_ok_iff.mpr ⟨hboth.mp herror', es, rfl, ?_⟩⟩
    rw [htokens']
    exact transfers_many transfers_isDefinition hes (retold_moved further distance ts)

theorem parse_append_feed_comment :
    let first := "role R \x7b \x7d // the end"
    let second := " action A by AI \x7b \x7d"
    let p : Program := ⟨[], [], [⟨"R", "", none⟩], []⟩
    let q : Program := ⟨[⟨"A", .ai, none, [], "", [], []⟩], [], [], []⟩
    (parse first).value = .ok p ∧ (parse second).value = .ok q ∧
      (parse (first ++ "\n" ++ second)).value = .ok ⟨q.actions, [], p.roles, []⟩ := by
  intro first second p q
  have hfirst : (parse first).value = .ok p := by decide +kernel
  have hsecond : (parse second).value = .ok q := by decide +kernel
  exact ⟨hfirst, hsecond, (parse_append_feed hfirst (by decide)).2 q hsecond⟩

end RoleFlow
