import RoleFlow.Proofs.JsonLiterals

/-!
# JSON text reads back

A value that is written as text is read back as it is, if the members of each object have different
names and integers have not too many digits. A list or an object is read back where its parts are.

Main definitions:
* `IsReadable`: the values that their text determines.

Results:
* `readsBack_list`, `readsBack_object`: lists and objects.
* `parse_indented`: the text of a value is read as the value.
-/

namespace RoleFlow

namespace Json

/-! ## Readers of lists and objects -/

theorem gives_readValue_emptyList {input rest : List Char}
    (h : skipSeparators input = ']' :: rest) :
    Gives (readValue ('[' :: input)) (.list []) rest := by
  have hle := length_skipSeparators_le input
  refine ⟨by rw [h] at hle; exact Nat.lt_trans hle (Nat.lt_succ_self _), ?_⟩
  rw [readValue]
  split
  · next after hafter =>
    cases hafter.symm.trans h
    rfl
  · next hother => exact absurd h (hother rest)

theorem gives_readValue_list {input start rest : List Char} {items : List Json}
    (hstart : skipSeparators input = start) (hne : start.head? ≠ some ']')
    (h : Gives (readItems start) items rest) :
    Gives (readValue ('[' :: input)) (.list items) rest := by
  obtain ⟨hshorter, hitems⟩ := h
  have hle := length_skipSeparators_le input
  subst hstart
  refine ⟨Nat.lt_succ_of_lt (Nat.lt_of_lt_of_le hshorter hle), ?_⟩
  rw [readValue]
  split
  · next after hafter =>
    rw [hafter] at hne
    exact absurd rfl hne
  · rw [hitems]
    rfl

theorem gives_readItems_last {input middle rest : List Char} {item : Json}
    (h : Gives (readValue input) item middle) (hrest : skipSeparators middle = ']' :: rest) :
    Gives (readItems input) [item] rest := by
  obtain ⟨hshorter, hitem⟩ := h
  have hle := length_skipSeparators_le middle
  have hlt : rest.length < input.length := by
    rw [hrest, List.length_cons] at hle
    omega
  refine ⟨hlt, ?_⟩
  rw [readItems, hitem]
  dsimp only
  split
  · next after hafter =>
    cases hafter.symm.trans hrest
    rfl
  · next after hafter => cases hafter.symm.trans hrest
  · next hother _ => exact absurd hrest (hother rest)

theorem gives_readItems_more {input middle after rest : List Char} {item : Json}
    {items : List Json} (h : Gives (readValue input) item middle)
    (hafter : skipSeparators middle = ',' :: after)
    (hmore : Gives (readItems (skipSeparators after)) items rest) :
    Gives (readItems input) (item :: items) rest := by
  obtain ⟨hshorter, hitem⟩ := h
  obtain ⟨hshorter', hitems⟩ := hmore
  have hle := length_skipSeparators_le middle
  have hle' := length_skipSeparators_le after
  have hlt : rest.length < input.length := by
    rw [hafter, List.length_cons] at hle
    omega
  refine ⟨hlt, ?_⟩
  rw [readItems, hitem]
  dsimp only
  split
  · next other hother => cases hother.symm.trans hafter
  · next other hother =>
    cases hother.symm.trans hafter
    rw [hitems]
    rfl
  · next _ hother => exact absurd hafter (hother after)

theorem gives_readValue_emptyObject {input rest : List Char}
    (h : skipSeparators input = '\x7d' :: rest) :
    Gives (readValue ('\x7b' :: input)) (.object []) rest := by
  have hle := length_skipSeparators_le input
  refine ⟨by rw [h] at hle; exact Nat.lt_trans hle (Nat.lt_succ_self _), ?_⟩
  rw [readValue]
  split
  · next after hafter =>
    cases hafter.symm.trans h
    rfl
  · next hother => exact absurd h (hother rest)

theorem gives_readValue_object {input start rest : List Char} {members : List (String × Json)}
    (hstart : skipSeparators input = start) (hne : start.head? ≠ some '\x7d')
    (h : Gives (readMembers start) members rest) :
    Gives (readValue ('\x7b' :: input)) (.object (Fields.ofList members)) rest := by
  obtain ⟨hshorter, hmembers⟩ := h
  have hle := length_skipSeparators_le input
  subst hstart
  refine ⟨Nat.lt_succ_of_lt (Nat.lt_of_lt_of_le hshorter hle), ?_⟩
  rw [readValue]
  split
  · next after hafter =>
    rw [hafter] at hne
    exact absurd rfl hne
  · rw [hmembers]
    rfl

theorem gives_readMembers_last {input name afterName afterColon middle rest : List Char}
    {value : Json} (hname : Gives (readText input) name afterName)
    (hcolon : skipSeparators afterName = ':' :: afterColon)
    (hvalue : Gives (readValue (skipSeparators afterColon)) value middle)
    (hrest : skipSeparators middle = '\x7d' :: rest) :
    Gives (readMembers ('"' :: input)) [(String.ofList name, value)] rest := by
  obtain ⟨hshorter, hname⟩ := hname
  obtain ⟨hshorter', hvalue⟩ := hvalue
  have hle := length_skipSeparators_le afterName
  have hle' := length_skipSeparators_le afterColon
  have hle'' := length_skipSeparators_le middle
  have hlt : rest.length < ('"' :: input).length := by
    rw [hcolon, List.length_cons] at hle
    rw [hrest, List.length_cons] at hle''
    rw [List.length_cons]
    omega
  refine ⟨hlt, ?_⟩
  rw [readMembers, hname]
  dsimp only
  split
  · next other hother =>
    cases hother.symm.trans hcolon
    rw [hvalue]
    dsimp only
    split
    · next after hafter =>
      cases hafter.symm.trans hrest
      rfl
    · next after hafter => cases hafter.symm.trans hrest
    · next hother _ => exact absurd hrest (hother rest)
  · next hother => exact absurd hcolon (hother afterColon)

theorem gives_readMembers_more {input name afterName afterColon middle after rest : List Char}
    {value : Json} {members : List (String × Json)} (hname : Gives (readText input) name afterName)
    (hcolon : skipSeparators afterName = ':' :: afterColon)
    (hvalue : Gives (readValue (skipSeparators afterColon)) value middle)
    (hafter : skipSeparators middle = ',' :: after)
    (hmore : Gives (readMembers (skipSeparators after)) members rest) :
    Gives (readMembers ('"' :: input)) ((String.ofList name, value) :: members) rest := by
  obtain ⟨hshorter, hname⟩ := hname
  obtain ⟨hshorter', hvalue⟩ := hvalue
  obtain ⟨hshorter'', hmembers⟩ := hmore
  have hle := length_skipSeparators_le afterName
  have hle' := length_skipSeparators_le afterColon
  have hle'' := length_skipSeparators_le middle
  have hle''' := length_skipSeparators_le after
  have hlt : rest.length < ('"' :: input).length := by
    rw [hcolon, List.length_cons] at hle
    rw [hafter, List.length_cons] at hle''
    rw [List.length_cons]
    omega
  refine ⟨hlt, ?_⟩
  rw [readMembers, hname]
  dsimp only
  split
  · next other hother =>
    cases hother.symm.trans hcolon
    rw [hvalue]
    dsimp only
    split
    · next other hother => cases hother.symm.trans hafter
    · next other hother =>
      cases hother.symm.trans hafter
      rw [hmembers]
      rfl
    · next _ hother => exact absurd hafter (hother after)
  · next hother => exact absurd hcolon (hother afterColon)

/-! ## Values -/

theorem readValue_eq_none {c : Char} (hc : c ∈ [' ', '\t', '\n', '\r', ']']) (rest : List Char) :
    readValue (c :: rest) = none := by
  have hstart : c ∉ ['"', '[', '\x7b', '-'] ∧ c.isDigit = false ∧
      ∀ word ∈ ["null", "true", "false", "Infinity"], word.toList.head? ≠ some c := by
    simp only [List.mem_cons, List.not_mem_nil, or_false] at hc
    rcases hc with rfl | rfl | rfl | rfl | rfl <;> decide
  obtain ⟨hmark, hdigit, hword⟩ := hstart
  rw [readValue_word hmark hdigit,
    readWord_of_head_ne (hword _ (by decide)), readWord_of_head_ne (hword _ (by decide)),
    readWord_of_head_ne (hword _ (by decide)), readWord_of_head_ne (hword _ (by decide))]
  rfl

/-- No value starts with a separator or a closing bracket. -/
theorem head_of_gives {input rest : List Char} {json : Json}
    (h : Gives (readValue input) json rest) :
    skipSeparators input = input ∧ input.head? ≠ some ']' := by
  obtain ⟨hshorter, hread⟩ := h
  cases input with
  | nil => exact absurd hshorter (Nat.not_lt_zero _)
  | cons c input =>
    have hc : c ∉ [' ', '\t', '\n', '\r', ']'] := fun hc => by
      rw [readValue_eq_none hc] at hread
      cases hread
    simp only [List.mem_cons, List.not_mem_nil, or_false, not_or] at hc
    obtain ⟨hspace, htab, hline, hreturn, hbracket⟩ := hc
    refine ⟨?_, by simpa using hbracket⟩
    rw [skipSeparators, List.dropWhile_cons_of_neg]
    simp [isSeparator, hspace, htab, hline, hreturn]

theorem skipSeparators_newLine (depth : Nat) (rest : List Char) :
    skipSeparators ((newLine depth).toList ++ rest) = skipSeparators rest := by
  refine List.dropWhile_append_of_pos fun c hc => ?_
  simp only [newLine, String.toList_append, String.toList_ofList, List.mem_append,
    List.mem_replicate] at hc
  rcases hc with hc | ⟨-, rfl⟩
  · obtain rfl : c = '\n' := by simpa using hc
    decide
  · decide

theorem ends_newLine (depth : Nat) (rest : List Char) : Ends ((newLine depth).toList ++ rest) := by
  simp [newLine, Ends]

/-- The text of the value is read as the value, wherever it stands. -/
def ReadsBack (json : Json) : Prop :=
  ∀ depth rest, Ends rest → Gives (readValue ((json.write depth).toList ++ rest)) json rest

/-- Where a value stands on a line of its own, it is what is read first. -/
theorem ReadsBack.start {json : Json} (h : ReadsBack json) (line depth : Nat) {rest : List Char}
    (hrest : Ends rest) :
    skipSeparators ((newLine line).toList ++ ((json.write depth).toList ++ rest)) =
        (json.write depth).toList ++ rest ∧
      ((json.write depth).toList ++ rest).head? ≠ some ']' := by
  obtain ⟨hskip, hhead⟩ := head_of_gives (h depth rest hrest)
  exact ⟨(skipSeparators_newLine line _).trans hskip, hhead⟩

theorem ends_writeItems (depth outer : Nat) (items : List Json) (rest : List Char) :
    Ends ((writeItems depth items).toList ++ ((newLine outer).toList ++ rest)) := by
  cases items with
  | nil => exact ends_newLine outer rest
  | cons item items => simp [writeItems, Ends]

theorem gives_readItems_write {item : Json} {items : List Json} (hitem : ReadsBack item)
    (hitems : ∀ item ∈ items, ReadsBack item) (depth outer : Nat) (rest : List Char) :
    Gives (readItems ((item.write depth).toList ++ ((writeItems depth items).toList ++
      ((newLine outer).toList ++ ']' :: rest)))) (item :: items) rest := by
  induction items generalizing item with
  | nil =>
    exact gives_readItems_last (hitem depth _ (ends_newLine outer _))
      (skipSeparators_newLine outer _)
  | cons next items ih =>
    obtain ⟨hnext, hmore⟩ := List.forall_mem_cons.mp hitems
    have hread := ih hnext hmore
    have hends := ends_writeItems depth outer items (']' :: rest)
    have htext : (writeItems depth (next :: items)).toList ++
        ((newLine outer).toList ++ ']' :: rest) =
        ',' :: ((newLine depth).toList ++ ((next.write depth).toList ++
          ((writeItems depth items).toList ++ ((newLine outer).toList ++ ']' :: rest)))) := by
      simp [writeItems]
    rw [htext]
    refine gives_readItems_more (hitem depth _ (by simp [Ends])) rfl ?_
    rw [(hnext.start depth depth hends).1]
    exact hread

theorem readsBack_list {items : List Json} (h : ∀ item ∈ items, ReadsBack item) :
    ReadsBack (.list items) := by
  intro depth rest hrest
  cases items with
  | nil =>
    rw [show (write depth (.list [])).toList ++ rest = '[' :: ']' :: rest by simp [write]]
    exact gives_readValue_emptyList rfl
  | cons item items =>
    obtain ⟨hitem, hitems⟩ := List.forall_mem_cons.mp h
    have hends := ends_writeItems (depth + 1) depth items (']' :: rest)
    obtain ⟨hstart, hhead⟩ := hitem.start (depth + 1) (depth + 1) hends
    have htext : (write depth (.list (item :: items))).toList ++ rest =
        '[' :: ((newLine (depth + 1)).toList ++ ((item.write (depth + 1)).toList ++
          ((writeItems (depth + 1) items).toList ++ ((newLine depth).toList ++ ']' :: rest)))) := by
      simp [write]
    rw [htext]
    exact gives_readValue_list hstart hhead
      (gives_readItems_write hitem hitems (depth + 1) depth rest)

/-- The value of a member is what is read behind the colon. -/
theorem ReadsBack.afterColon {json : Json} (h : ReadsBack json) (depth : Nat) {rest : List Char}
    (hrest : Ends rest) :
    Gives (readValue (skipSeparators (' ' :: ((json.write depth).toList ++ rest)))) json rest := by
  have hread := h depth rest hrest
  have hskip : skipSeparators (' ' :: ((json.write depth).toList ++ rest)) =
      skipSeparators ((json.write depth).toList ++ rest) := rfl
  rw [hskip, (head_of_gives hread).1]
  exact hread

theorem gives_readMembers_write (name : String) {value : Json} {fields : List (String × Json)}
    (hvalue : ReadsBack value) (hfields : ∀ field ∈ fields, ReadsBack field.2) (depth outer : Nat)
    (rest : List Char) :
    Gives (readMembers ('"' :: (name.toList.flatMap escapeChar ++ '"' :: ':' :: ' ' ::
      ((value.write depth).toList ++ ((writeFields depth fields).toList ++
        ((newLine outer).toList ++ '\x7d' :: rest)))))) ((name, value) :: fields) rest := by
  have hname (after : List Char) :
      Gives (readText (name.toList.flatMap escapeChar ++ '"' :: after)) name.toList after :=
    gives_readText name.toList after
  have hcolon (after : List Char) : skipSeparators (':' :: after) = ':' :: after := rfl
  induction fields generalizing name value with
  | nil =>
    have hend := ends_newLine outer ('\x7d' :: rest)
    have hread := gives_readMembers_last (hname _) (hcolon _) (hvalue.afterColon depth hend)
      (skipSeparators_newLine outer ('\x7d' :: rest))
    rw [String.ofList_toList] at hread
    exact hread
  | cons next fields ih =>
    obtain ⟨nextName, nextValue⟩ := next
    obtain ⟨hnext, hmore⟩ := List.forall_mem_cons.mp hfields
    have hnextRead := ih nextName hnext hmore (gives_readText nextName.toList)
    have hend (after : List Char) : Ends (',' :: after) := by simp [Ends]
    have hcomma (after : List Char) : skipSeparators (',' :: after) = ',' :: after := rfl
    have hstart (after : List Char) :
        skipSeparators ((newLine depth).toList ++ '"' :: after) = '"' :: after :=
      skipSeparators_newLine depth _
    have htext : (writeFields depth ((nextName, nextValue) :: fields)).toList ++
        ((newLine outer).toList ++ '\x7d' :: rest) =
        ',' :: ((newLine depth).toList ++ '"' :: (nextName.toList.flatMap escapeChar ++
          '"' :: ':' :: ' ' :: ((nextValue.write depth).toList ++
            ((writeFields depth fields).toList ++
              ((newLine outer).toList ++ '\x7d' :: rest))))) := by
      simp [writeFields, textLiteral]
    rw [← hstart] at hnextRead
    have hread := gives_readMembers_more (hname _) (hcolon _) (hvalue.afterColon depth (hend _))
      (hcomma _) hnextRead
    rw [String.ofList_toList] at hread
    rw [htext]
    exact hread

theorem put_of_notMem {fields : Fields} {name : String} (h : name ∉ fields.map (·.1))
    (value : Json) : Fields.put fields name value = fields ++ [(name, value)] := by
  induction fields with
  | nil => rfl
  | cons field fields ih =>
    obtain ⟨key, old⟩ := field
    rw [List.map_cons, List.mem_cons, not_or] at h
    rw [Fields.put, if_neg (Ne.symm h.1), ih h.2, List.cons_append]

theorem ofList_of_nodup {fields : Fields} (h : (fields.map (·.1)).Nodup) :
    Fields.ofList fields = fields := by
  have happend : ∀ front : Fields, ((front ++ fields).map (·.1)).Nodup →
      fields.foldl (fun fields field => Fields.put fields field.1 field.2) front =
        front ++ fields := by
    clear h
    induction fields with
    | nil => exact fun front _ => (List.append_nil front).symm
    | cons field fields ih =>
      intro front hnodup
      obtain ⟨name, value⟩ := field
      have hname : name ∉ front.map (·.1) := by
        rw [List.map_append, List.nodup_append] at hnodup
        exact fun hmem => hnodup.2.2 name hmem name (by simp) rfl
      have hput : Fields.put front name value = front ++ [(name, value)] :=
        put_of_notMem hname value
      have hmore := ih (front ++ [(name, value)]) (by simpa using hnodup)
      rw [List.append_assoc, List.singleton_append, ← hput] at hmore
      exact hmore
  exact happend [] h

theorem readsBack_object {fields : List (String × Json)} (hnames : (fields.map (·.1)).Nodup)
    (h : ∀ field ∈ fields, ReadsBack field.2) : ReadsBack (.object fields) := by
  intro depth rest hrest
  cases fields with
  | nil =>
    rw [show (write depth (.object [])).toList ++ rest = '\x7b' :: '\x7d' :: rest by simp [write]]
    exact gives_readValue_emptyObject rfl
  | cons field fields =>
    obtain ⟨name, value⟩ := field
    obtain ⟨hvalue, hfields⟩ := List.forall_mem_cons.mp h
    have hread := gives_readMembers_write name hvalue hfields (depth + 1) depth rest
    have htext : (write depth (.object ((name, value) :: fields))).toList ++ rest =
        '\x7b' :: ((newLine (depth + 1)).toList ++ '"' :: (name.toList.flatMap escapeChar ++
          '"' :: ':' :: ' ' :: ((value.write (depth + 1)).toList ++
            ((writeFields (depth + 1) fields).toList ++ ((newLine depth).toList ++
              '\x7d' :: rest))))) := by
      simp [write, textLiteral]
    rw [htext, ← ofList_of_nodup hnames]
    have hstart (after : List Char) :
        skipSeparators ((newLine (depth + 1)).toList ++ '"' :: after) = '"' :: after :=
      skipSeparators_newLine (depth + 1) _
    exact gives_readValue_object (hstart _) (by simp) hread

/-- A value that its text determines: the members of an object have different names, and no integer
has too many digits to be read. -/
inductive IsReadable : Json → Prop
  | null : IsReadable .null
  | bool (value : Bool) : IsReadable (.bool value)
  | int {i : Int} (hi : (Nat.toDigits 10 i.natAbs).length ≤ maxIntDigits) : IsReadable (.int i)
  | float (x : Double) : IsReadable (.float x)
  | str (text : String) : IsReadable (.str text)
  | list {items : List Json} (hitems : ∀ item ∈ items, IsReadable item) : IsReadable (.list items)
  | object {fields : List (String × Json)} (hnames : (fields.map (·.1)).Nodup)
    (hfields : ∀ field ∈ fields, IsReadable field.2) : IsReadable (.object fields)

theorem readsBack_of_isReadable {json : Json} (h : json.IsReadable) : ReadsBack json := by
  induction h with
  | null =>
    intro depth rest hrest
    simpa [write] using gives_readValue_null rest
  | bool value =>
    intro depth rest hrest
    cases value with
    | true => simpa [write] using gives_readValue_true rest
    | false => simpa [write] using gives_readValue_false rest
  | int hi => exact fun depth rest hrest => gives_readValue_int hi hrest
  | float x => exact fun depth rest hrest => gives_readValue_float x hrest
  | str text =>
    intro depth rest hrest
    obtain ⟨hshorter, hread⟩ := gives_readText text.toList rest
    have hchars : (write depth (.str text)).toList ++ rest =
        '"' :: (text.toList.flatMap escapeChar ++ '"' :: rest) := by
      simp [write, textLiteral]
    rw [hchars]
    refine ⟨Nat.lt_succ_of_lt hshorter, ?_⟩
    rw [readValue, hread]
    simp
  | list hitems ih => exact readsBack_list ih
  | object hnames hfields ih => exact readsBack_object hnames ih

/-- The text of a value is read as the value. -/
theorem parse_indented {json : Json} (h : json.IsReadable) :
    Json.parse json.indented = some json := by
  have hread := readsBack_of_isReadable h 0 [] (by simp [Ends])
  rw [List.append_nil] at hread
  have hskip := (head_of_gives hread).1
  rw [← hskip] at hread
  obtain ⟨hshorter, hread⟩ := hread
  simp only [Json.parse, indented, hread]
  rfl

end Json

end RoleFlow
