import RoleFlow.Proofs.Standing

/-!
# Descents and their readers

A descent and the reader of the same part take the same tokens, and are refused at the same ones. A
loop of a descent is compared pass by pass: what one pass reads is brought out of the reader, which
reads all of the loop and the mark after it.

Main definitions:
* `moreItems`, `itemAfterComma`: what comes after an item of a list, and one pass over it.
* `actionAttribute`, `entityAttribute`, `roleAttribute`: one pass over a block.

Results:
* `reads_list`, `mirrors_parenthesized`: lists.
* `mirrors_typeText`: types, to any depth of angle brackets.
* `reads_untilBrace`: the loop of a block, up to its closing brace.
* `reads_action`, `reads_entity`, `reads_role`: definitions but for workflows.
-/

namespace RoleFlow

namespace Scan

variable {s : Scan} {α β : Type} {t : Token} {tokens rest : List Token}

/-! ## Outcomes -/

theorem raises_mark {mark : Char} (h : tokens = []) : s.Raises (s.mark mark tokens) := by
  subst h
  exact raises_refuse _

/-- A reading that is passed on with the same value and the same rest. -/
theorem map_bind_pure {γ δ : Type} {x : Except SyntaxError γ} {view : γ → β} {f : γ → δ}
    {view' : δ → β} (h : ∀ r, view' (f r) = view r) :
    (x >>= fun r => pure (f r)).map view' = x.map view := by
  cases x with
  | error e => rfl
  | ok r => exact congrArg Except.ok (h r)

/-- What comes after a step, read in one go with it or from where it ends. -/
theorem map_bind_bind {γ δ : Type} {x : Except SyntaxError γ} {first : γ → δ}
    {more : γ → Except SyntaxError α} {view : α → β} {next : δ → Except SyntaxError β}
    (h : ∀ r, (more r).map view = next (first r)) :
    (x >>= more).map view = (x >>= fun r => pure (first r)) >>= next := by
  cases x with
  | error e => rfl
  | ok r => exact h r

/-- An item in front of the items read after it, and at the end of those read before. -/
theorem map_cons_eq_append {x : Except SyntaxError (Reading (List α) tokens)} (before : List α)
    (item : α) {f : Reading (List α) tokens → Reading (List α) rest}
    (hvalue : ∀ r, (f r).value = item :: r.value) (hrest : ∀ r, (f r).rest = r.rest) :
    (x >>= fun r => pure (f r)).map (fun r => (before ++ r.value, r.rest)) =
      x.map fun r => (before ++ [item] ++ r.value, r.rest) := by
  refine map_bind_pure fun r => ?_
  rw [hvalue, hrest, List.append_assoc, List.singleton_append]

/-! ## Lists -/

section Lists

variable {item : (tokens : List Token) → Result α tokens} {reader : Descent α} {closing : Char}

/-- What comes after an item of a list: a comma and more items, or the closing mark. -/
def moreItems (s : Scan) (item : (tokens : List Token) → Result α tokens) (closing : Char)
    (tokens : List Token) : Except SyntaxError (List α × List Token) :=
  match tokens with
  | [] => .error (s.refuse (.expected (String.singleton closing)) [])
  | token :: rest =>
    if token.isMark ',' then (s.items item closing rest).map Reading.ends
    else (s.mark closing (token :: rest)).map fun close => ([], close.rest)

theorem ends_items (tokens : List Token) :
    (s.items item closing tokens).map Reading.ends = item tokens >>= fun first =>
      (s.moreItems item closing first.rest).map fun more => (first.value :: more.1, more.2) := by
  rw [items]
  cases item tokens with
  | error e => rfl
  | ok first =>
    obtain ⟨x, rest, hshorter⟩ := first
    cases rest with
    | nil => rfl
    | cons t rest =>
      change Except.map _ (ite _ _ _) = Except.map _ (ite _ _ _)
      split
      · cases s.items item closing rest <;> rfl
      · cases s.mark closing (t :: rest) <;> rfl

/-- The items so far, with one more after a comma. -/
def itemAfterComma (s : Scan) (item : (tokens : List Token) → Result α tokens) (found : List α)
    (tokens : List Token) : Result (List α) tokens := do
  let comma ← s.mark ',' tokens
  let x ← item comma.rest
  return ⟨found ++ [x.value], x.rest, x.shorter.trans comma.shorter⟩

theorem itemAfterComma_cons (h : t.isMark ',' = true) (found : List α) :
    s.itemAfterComma item found (t :: rest) = (item rest).map fun x =>
      ⟨found ++ [x.value], x.rest, x.shorter_cons t⟩ := by
  obtain ⟨_, hmark⟩ : Takes (s.mark ',' (t :: rest)) t rest := s.mark_cons h
  rw [itemAfterComma, hmark]
  rfl

/-- What comes after an item is read in passes, one for each comma. -/
theorem reads_moreItems
    (hitem : ∀ tokens, s.Mirrors True reader tokens ((item tokens).map Reading.ends))
    (found : List α) (tokens : List Token) :
    s.Reads (do
      let found ← Descent.passes (.isAt ',') (.itemAfterComma reader) found
      let _ ← Descent.mark closing
      return found) tokens
      ((s.moreItems item closing tokens).map fun more => (found ++ more.1, more.2)) := by
  refine mirrors_loop (s.itemAfterComma item)
    (fun found tokens => (s.moreItems item closing tokens).map fun more =>
      (found ++ more.1, more.2))
    (looks_isAt (by decide : isMark ',' = true)) ?pass ?more ?ended ?raises found tokens
    (Nat.le_refl _)
  case pass =>
    intro found tokens _ _
    exact reads_next (reads_mark ',' tokens) fun comma =>
      mirrors_map (hitem comma.rest) fun _ => rfl
  case more =>
    intro found tokens hcomma
    cases tokens with
    | nil => cases hcomma
    | cons t rest =>
      change t.isMark ',' = true at hcomma
      rw [moreItems, if_pos hcomma, ends_items, itemAfterComma_cons hcomma]
      cases item rest with
      | error e => rfl
      | ok x =>
        change Except.map _ (Except.map _ (s.moreItems item closing x.rest)) = Except.map _ _
        cases s.moreItems item closing x.rest with
        | error e => rfl
        | ok more => simp only [Except.map, List.append_assoc, List.singleton_append]
  case ended =>
    intro found tokens _ hcomma
    have hclose := s.reads_mark closing tokens
    cases tokens with
    | nil => exact mirrors_of_error hclose
    | cons t rest =>
      change t.isMark ',' = false at hcomma
      rw [moreItems, if_neg (by rw [hcomma]; decide)]
      cases hmark : s.mark closing (t :: rest) with
      | error e =>
        rw [hmark] at hclose
        exact mirrors_of_error hclose
      | ok close =>
        rw [hmark] at hclose
        refine mirrors_after hclose ?_
        change s.Reads (pure found) close.rest (.ok (found ++ [], close.rest))
        rw [List.append_nil]
        exact mirrors_pure
  case raises => exact fun found => raises_map (raises_refuse _)

theorem reads_items
    (hitem : ∀ tokens, s.Mirrors True reader tokens ((item tokens).map Reading.ends))
    (tokens : List Token) :
    s.Reads (do
      let first ← reader
      let found ← Descent.passes (.isAt ',') (.itemAfterComma reader) [first]
      let _ ← Descent.mark closing
      return found) tokens ((s.items item closing tokens).map Reading.ends) := by
  rw [ends_items]
  refine mirrors_next (hitem tokens) (fun first => reads_moreItems hitem [first.value] first.rest)
    fun _ first hrest => ?_
  rw [show first.rest = [] from hrest]
  exact raises_map (raises_refuse _)

/-- The items of a list and its closing mark. -/
theorem reads_list (hclosing : isMark closing = true)
    (hitem : ∀ tokens, s.Mirrors True reader tokens ((item tokens).map Reading.ends))
    (hend : s.Raises (item [])) (tokens : List Token) :
    s.Reads (do
      let found ← Descent.items reader closing
      let _ ← Descent.mark closing
      return found) tokens ((s.list item closing tokens).map Reading.ends) := by
  have hitems : ∀ tokens, s.Reads _ tokens ((s.items item closing tokens).map Reading.ends) :=
    reads_items hitem
  rw [Descent.items, bind_assoc]
  cases tokens with
  | nil =>
    refine looks_nil (looks_isAt hclosing) ?_ fun _ => ?_
    · change s.Raises ((s.items item closing []).map Reading.ends)
      rw [ends_items]
      exact raises_bind hend
    · rw [Option.any_none, if_neg Bool.false_ne_true, bind_assoc]
      exact hitems []
  | cons t rest =>
    refine looks_cons (looks_isAt hclosing) ?_
    rw [list, Option.any_some]
    split
    · next hclose =>
      rw [pure_bind]
      exact mirrors_after (reads_take_cons hclose rest) mirrors_pure
    · rw [bind_assoc]
      exact hitems (t :: rest)

/-- A list in parentheses, if there is one. -/
theorem mirrors_parenthesized
    (hitem : ∀ tokens, s.Mirrors True reader tokens ((item tokens).map Reading.ends))
    (hend : s.Raises (item [])) (tokens : List Token) :
    s.Mirrors True (.parenthesized reader) tokens
      ((s.parenthesized item tokens).map Subtype.val) := by
  cases tokens with
  | nil => exact looks_nil_early (looks_isAt (by decide)) fun _ => mirrors_pure
  | cons t rest =>
    refine looks_cons (looks_isAt (by decide)) ?_
    rw [parenthesized, Option.any_some]
    split
    · next hparen =>
      refine mirrors_after (reads_take_cons hparen rest) ?_
      rw [map_bind_pure fun found => rfl]
      exact (reads_list (by decide) hitem hend rest).mirrors
    · exact mirrors_pure

end Lists

theorem reads_names (tokens : List Token) :
    s.Reads (.enclosed '[' ']' .name) tokens ((s.names tokens).map Reading.ends) := by
  refine reads_next (reads_mark '[' tokens) fun bracket => ?_
  rw [map_bind_pure fun found => rfl]
  exact reads_list (by decide) (fun tokens => (reads_name tokens).mirrors) (raises_refuse _)
    bracket.rest

/-! ## Types, parameters and actors -/

theorem mirrors_typeText (tokens : List Token) :
    s.Mirrors True .typeText tokens ((s.typeText tokens).map Reading.ends) := by
  have hrecursive : s.Mirrors True (Descent.typeText >>= pure) tokens
      ((s.typeText tokens).map Reading.ends) := by
    refine mirrors_recursive (fun tokens => (s.typeText tokens).map Reading.ends)
      (fun inner tokens hinner => ?_) tokens
    simp only [bind_pure] at hinner ⊢
    cases tokens with
    | nil => exact mirrors_of_error (reads_take (fun _ => by nofun) [])
    | cons t rest =>
      by_cases htype : t.isTypeName = true
      · refine mirrors_after (reads_take_cons htype rest) ?_
        cases rest with
        | nil =>
          rw [typeText, if_pos htype]
          exact looks_nil_early (looks_isAt (by decide)) fun _ => mirrors_pure
        | cons bracket argument =>
          rw [typeText, if_pos htype]
          refine looks_cons (looks_isAt (by decide)) ?_
          simp only [Option.any_some]
          split
          · next hless =>
            refine mirrors_after (reads_take_cons hless argument) ?_
            have hargument := hinner argument (by simp only [List.length_cons]; omega)
            refine mirrors_next_map (mirrors_taking hargument fun r => r.shorter) (fun r => ?_)
              fun _ r hrest => raises_bind (raises_mark hrest)
            exact reads_next (reads_mark '>' r.rest) fun _ => mirrors_pure
          · exact mirrors_pure
      · have hrefuse : s.typeText (t :: rest) = .error (s.refuse .expectedType (t :: rest)) := by
          rw [typeText.eq_def]
          exact if_neg htype
        rw [hrefuse]
        exact mirrors_of_error (reads_take_refuse (fun _ => by nofun) htype rest)
  rwa [bind_pure] at hrecursive

theorem mirrors_typedName (tokens : List Token) :
    s.Mirrors True .typedName tokens ((s.typedName tokens).map Reading.ends) :=
  reads_next (reads_name tokens) fun name => reads_next (reads_mark ':' name.rest) fun colon =>
    mirrors_map (mirrors_typeText colon.rest) fun _ => rfl

/-- A word that is looked for is the current one if the current token is that word. -/
theorem wordOf_eq_iff {word : String} (h : word ≠ "") :
    Descent.wordOf (some t) = word ↔ t.isWord word = true := by
  rw [Token.isWord_iff, Descent.wordOf]
  split
  · next hkind => simp [hkind, Token.text, ← String.toList_inj]
  · next hkind => simp [hkind, h.symm]

theorem reads_performer (tokens : List Token) :
    s.Reads .performer tokens ((s.performer tokens).map Reading.ends) := by
  cases tokens with
  | nil =>
    refine looks_nil looks_peekWord (raises_refuse _) fun _ => ?_
    rw [if_neg (by decide)]
    exact mirrors_of_error (reads_actorKind [])
  | cons t rest =>
    refine looks_cons looks_peekWord ?_
    rw [performer]
    simp only [wordOf_eq_iff (by decide : "role" ≠ "")]
    split
    · next hrole =>
      refine mirrors_after (reads_take_cons hrole rest) ?_
      exact reads_next (reads_name rest) fun _ => mirrors_pure
    · exact reads_next (reads_actorKind (t :: rest)) fun _ => mirrors_pure

/-! ## Blocks -/

/-- An attribute, from its keyword. -/
theorem reads_attributeValue {value : (tokens : List Token) → Result α tokens} {reader : Descent α}
    {keyword : String} (hkeyword : t.isWord keyword = true)
    (hvalue : ∀ tokens, s.Reads reader tokens ((value tokens).map Reading.ends))
    (rest : List Token) :
    s.Reads (.attributeValue keyword reader) (t :: rest)
      ((s.attributeValue value rest).map Reading.ends) :=
  mirrors_after (reads_take_cons hkeyword rest) <|
    reads_next (reads_mark ':' rest) fun colon => reads_next (hvalue colon.rest) fun found =>
      reads_next (reads_mark ';' found.rest) fun _ => mirrors_pure

/-- A loop up to a closing brace, and that brace. -/
theorem reads_untilBrace {pass : β → Descent β} {limit : Nat}
    (step : β → (tokens : List Token) → Result β tokens)
    (loop : β → List Token → Except SyntaxError (β × List Token))
    (hpass : ∀ b tokens, tokens.length ≤ limit → ¬ tokens.head?.any (·.isMark '}') = true →
      s.Mirrors True (pass b) tokens ((step b tokens).map Reading.ends))
    (hmore : ∀ b tokens, ¬ tokens.head?.any (·.isMark '}') = true →
      loop b tokens = step b tokens >>= fun r => loop r.value r.rest)
    (hover : ∀ b {t}, t.isMark '}' = true → ∀ rest, loop b (t :: rest) = .ok (b, rest))
    (hend : ∀ b, s.Raises (loop b [])) (b : β) (tokens : List Token)
    (hlimit : tokens.length ≤ limit) :
    s.Reads (.closed (.untilBrace pass b)) tokens (loop b tokens) := by
  refine mirrors_loop step loop (looks_map (! ·) (looks_isAt (by decide : isMark '}' = true)))
    (fun b tokens hle hgo => hpass b tokens hle (by simpa using hgo))
    (fun b tokens hgo => hmore b tokens (by simpa using hgo))
    (fun b tokens _ hstop => ?_) hend b tokens hlimit
  cases tokens with
  | nil => cases hstop
  | cons t rest =>
    have hbrace : t.isMark '}' = true := by simpa using hstop
    rw [hover b hbrace rest]
    exact mirrors_after (reads_take_cons hbrace rest) mirrors_pure

/-! ## Actions, entities and roles -/

/-- An attribute of an action. -/
def actionAttribute (s : Scan) (action : ActionDef) (tokens : List Token) :
    Result ActionDef tokens :=
  match tokens with
  | [] => .error (s.refuse .unexpectedActionAttribute [])
  | token :: rest =>
    if token.isWord "description" then do
      let found ← s.attributeValue s.quotedText rest
      return ⟨{ action with description := found.value }, found.rest, found.shorter_cons token⟩
    else if token.isWord "inputs" then do
      let found ← s.attributeValue s.names rest
      return ⟨{ action with inputs := found.value }, found.rest, found.shorter_cons token⟩
    else if token.isWord "outputs" then do
      let found ← s.attributeValue s.names rest
      return ⟨{ action with outputs := found.value }, found.rest, found.shorter_cons token⟩
    else .error (s.refuse .unexpectedActionAttribute (token :: rest))

theorem reads_actionAttribute (action : ActionDef) (tokens : List Token) :
    s.Reads (.actionAttribute action) tokens
      ((s.actionAttribute action tokens).map Reading.ends) := by
  cases tokens with
  | nil =>
    refine looks_nil looks_peekWord (raises_refuse _) fun _ => ?_
    rw [if_neg (by decide), if_neg (by decide), if_neg (by decide)]
    exact reads_refuse (fun _ => by nofun) []
  | cons t rest =>
    refine looks_cons looks_peekWord ?_
    rw [actionAttribute]
    simp only [wordOf_eq_iff (by decide : "description" ≠ ""),
      wordOf_eq_iff (by decide : "inputs" ≠ ""), wordOf_eq_iff (by decide : "outputs" ≠ "")]
    split
    · next hword =>
      exact reads_next (reads_attributeValue hword reads_quotedText rest) fun _ => mirrors_pure
    split
    · next hword =>
      exact reads_next (reads_attributeValue hword reads_names rest) fun _ => mirrors_pure
    split
    · next hword =>
      exact reads_next (reads_attributeValue hword reads_names rest) fun _ => mirrors_pure
    · exact reads_refuse (fun _ => by nofun) (t :: rest)

theorem actionAttributes_eq {action : ActionDef} {tokens : List Token}
    (h : ¬ tokens.head?.any (·.isMark '}') = true) :
    (s.actionAttributes action tokens).map Reading.ends =
      s.actionAttribute action tokens >>= fun r =>
        (s.actionAttributes r.value r.rest).map Reading.ends := by
  cases tokens with
  | nil =>
    rw [actionAttributes, actionAttribute]
    rfl
  | cons t rest =>
    rw [actionAttributes, actionAttribute, if_neg (by simpa using h)]
    split
    · exact map_bind_bind fun _ => map_bind_pure fun _ => rfl
    split
    · exact map_bind_bind fun _ => map_bind_pure fun _ => rfl
    split
    · exact map_bind_bind fun _ => map_bind_pure fun _ => rfl
    · rfl

theorem reads_actionAttributes (action : ActionDef) (tokens : List Token) :
    s.Reads (.closed (.untilBrace .actionAttribute action)) tokens
      ((s.actionAttributes action tokens).map Reading.ends) := by
  refine reads_untilBrace s.actionAttribute
    (fun action tokens => (s.actionAttributes action tokens).map Reading.ends)
    (fun action tokens _ _ => (reads_actionAttribute action tokens).mirrors)
    (fun _ _ h => actionAttributes_eq h) (fun action t hbrace rest => ?_) (fun action => ?_)
    action tokens (Nat.le_refl _)
  · rw [actionAttributes, if_pos hbrace]
    rfl
  · rw [actionAttributes]
    exact raises_map (raises_refuse _)

theorem reads_action (ht : t.isWord "action" = true) (rest : List Token) :
    s.Reads .action (t :: rest) ((s.action rest).map Reading.ends) := by
  refine mirrors_after (reads_take_cons ht rest) ?_
  rw [action]
  refine reads_next (reads_name rest) fun name => ?_
  refine reads_next (reads_word "by" name.rest) fun byWord => ?_
  refine reads_next (reads_performer byWord.rest) fun performer => ?_
  refine mirrors_next_map (mirrors_parenthesized mirrors_typedName (raises_refuse _) performer.rest)
    (fun parameters => ?_) fun _ parameters hrest => raises_bind (raises_mark hrest)
  refine reads_next (reads_mark '{' _) fun brace => ?_
  rw [map_bind_pure fun _ => rfl]
  exact reads_actionAttributes _ brace.rest

/-- An attribute of an entity, after those before it. -/
def entityAttribute (s : Scan) (before : List TypedName) (tokens : List Token) :
    Result (List TypedName) tokens := do
  let found ← s.typedName tokens
  let semicolon ← s.mark ';' found.rest
  return ⟨before ++ [found.value], semicolon.rest, semicolon.shorter.trans found.shorter⟩

theorem reads_entityAttribute (before : List TypedName) (tokens : List Token) :
    s.Reads (.entityAttribute before) tokens
      ((s.entityAttribute before tokens).map Reading.ends) :=
  mirrors_next_map (mirrors_typedName tokens)
    (fun found => reads_next (reads_mark ';' found.rest) fun _ => mirrors_pure)
    fun _ _ hrest => raises_bind (raises_mark hrest)

theorem entityAttributes_eq {before : List TypedName} {tokens : List Token}
    (h : ¬ tokens.head?.any (·.isMark '}') = true) :
    (s.entityAttributes tokens).map (fun r => (before ++ r.value, r.rest)) =
      s.entityAttribute before tokens >>= fun r =>
        (s.entityAttributes r.rest).map fun more => (r.value ++ more.value, more.rest) := by
  cases tokens with
  | nil =>
    rw [entityAttributes]
    rfl
  | cons t rest =>
    rw [entityAttributes, if_neg (by simpa using h), entityAttribute]
    cases s.typedName (t :: rest) with
    | error e => rfl
    | ok found =>
      change Except.map _ (s.mark ';' found.rest >>= _) = (s.mark ';' found.rest >>= _) >>= _
      exact map_bind_bind fun semicolon =>
        map_cons_eq_append before found.value (fun _ => rfl) fun _ => rfl

theorem reads_entityAttributes (tokens : List Token) :
    s.Reads (.closed (.untilBrace .entityAttribute [])) tokens
      ((s.entityAttributes tokens).map Reading.ends) := by
  refine reads_untilBrace s.entityAttribute
    (fun before tokens => (s.entityAttributes tokens).map fun r => (before ++ r.value, r.rest))
    (fun before tokens _ _ => (reads_entityAttribute before tokens).mirrors)
    (fun _ _ h => entityAttributes_eq h) (fun before t hbrace rest => ?_) (fun before => ?_)
    [] tokens (Nat.le_refl _)
  · rw [entityAttributes, if_pos hbrace]
    exact congrArg (fun xs => Except.ok (xs, rest)) (List.append_nil before)
  · rw [entityAttributes]
    exact raises_map (raises_refuse _)

theorem reads_entity (ht : t.isWord "entity" = true) (rest : List Token) :
    s.Reads .entity (t :: rest) ((s.entity rest).map Reading.ends) := by
  refine mirrors_after (reads_take_cons ht rest) ?_
  refine reads_next (reads_name rest) fun name => ?_
  rw [Descent.braced, bind_assoc]
  exact reads_next (reads_mark '{' name.rest) fun brace =>
    mirrors_map (reads_entityAttributes brace.rest) fun _ => rfl

/-- An attribute of a role. -/
def roleAttribute (s : Scan) (role : RoleDef) (tokens : List Token) : Result RoleDef tokens :=
  match tokens with
  | [] => .error (s.refuse .unexpectedRoleAttribute [])
  | token :: rest =>
    if token.isWord "description" then do
      let found ← s.attributeValue s.quotedText rest
      return ⟨{ role with description := found.value }, found.rest, found.shorter_cons token⟩
    else if token.isWord "type" then do
      let found ← s.attributeValue s.actorKind rest
      return ⟨{ role with kind := some found.value }, found.rest, found.shorter_cons token⟩
    else .error (s.refuse .unexpectedRoleAttribute (token :: rest))

theorem reads_roleAttribute (role : RoleDef) (tokens : List Token) :
    s.Reads (.roleAttribute role) tokens ((s.roleAttribute role tokens).map Reading.ends) := by
  cases tokens with
  | nil =>
    refine looks_nil looks_peekWord (raises_refuse _) fun _ => ?_
    rw [if_neg (by decide), if_neg (by decide)]
    exact reads_refuse (fun _ => by nofun) []
  | cons t rest =>
    refine looks_cons looks_peekWord ?_
    rw [roleAttribute]
    simp only [wordOf_eq_iff (by decide : "description" ≠ ""),
      wordOf_eq_iff (by decide : "type" ≠ "")]
    split
    · next hword =>
      exact reads_next (reads_attributeValue hword reads_quotedText rest) fun _ => mirrors_pure
    split
    · next hword =>
      exact reads_next (reads_attributeValue hword reads_actorKind rest) fun _ => mirrors_pure
    · exact reads_refuse (fun _ => by nofun) (t :: rest)

theorem roleAttributes_eq {role : RoleDef} {tokens : List Token}
    (h : ¬ tokens.head?.any (·.isMark '}') = true) :
    (s.roleAttributes role tokens).map Reading.ends =
      s.roleAttribute role tokens >>= fun r =>
        (s.roleAttributes r.value r.rest).map Reading.ends := by
  cases tokens with
  | nil =>
    rw [roleAttributes, roleAttribute]
    rfl
  | cons t rest =>
    rw [roleAttributes, roleAttribute, if_neg (by simpa using h)]
    split
    · exact map_bind_bind fun _ => map_bind_pure fun _ => rfl
    split
    · exact map_bind_bind fun _ => map_bind_pure fun _ => rfl
    · rfl

theorem reads_roleAttributes (role : RoleDef) (tokens : List Token) :
    s.Reads (.closed (.untilBrace .roleAttribute role)) tokens
      ((s.roleAttributes role tokens).map Reading.ends) := by
  refine reads_untilBrace s.roleAttribute
    (fun role tokens => (s.roleAttributes role tokens).map Reading.ends)
    (fun role tokens _ _ => (reads_roleAttribute role tokens).mirrors)
    (fun _ _ h => roleAttributes_eq h) (fun role t hbrace rest => ?_) (fun role => ?_)
    role tokens (Nat.le_refl _)
  · rw [roleAttributes, if_pos hbrace]
    rfl
  · rw [roleAttributes]
    exact raises_map (raises_refuse _)

theorem reads_role (ht : t.isWord "role" = true) (rest : List Token) :
    s.Reads .role (t :: rest) ((s.role rest).map Reading.ends) := by
  refine mirrors_after (reads_take_cons ht rest) ?_
  refine reads_next (reads_name rest) fun name => ?_
  refine reads_next (reads_mark '{' name.rest) fun brace => ?_
  rw [map_bind_pure fun _ => rfl]
  exact reads_roleAttributes _ brace.rest

end Scan

end RoleFlow
