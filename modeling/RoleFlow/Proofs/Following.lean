import RoleFlow.Proofs.Dues

/-!
# The readers keep to what is due

A reader that is given the tokens where its part is due takes the steps of that part: if it
succeeds, up to where the part is over, and if it fails, up to where no step is left. The error is
then the one at the tokens that are left there, or the lexical error, if the reader looks further
ahead than there are tokens.

Results:
* `Follows`, `follows_expression`, `follows_body` and others: the steps of each reader.
* `outcome_definitions`: the steps of the definitions of a document.
-/

namespace RoleFlow

variable {k more : List Due} {due : Due} {t : Token} {tokens rest : List Token}

namespace Scan

variable (s : Scan)

/-! ## Outcomes -/

/-- Whether a lexical error comes after the tokens. -/
abbrev isCut : Bool := s.error.isSome

/-- The error that a document is refused with where no step is left. -/
structure Stops (a : List Due × List Token) (e : SyntaxError) : Prop where
  stuck : Stuck s.isCut a
  unfinished : s.error = none → a ≠ ([], [])
  cause : Short a.1 a.2 ∧ s.error = some e ∨
    (s.isCut = true → ¬ Short a.1 a.2) ∧ ∃ fault, e = s.refuse fault a.2

/-- What is found leads from `a` to the stack `k` with its rest, or to where no step is left. -/
def Outcome {α : Type} (rest : α → List Token) (a : List Due × List Token) (k : List Due) :
    Except SyntaxError α → Prop
  | .ok found => Leads s.isCut a (k, rest found)
  | .error e => ∃ b, Leads s.isCut a b ∧ s.Stops b e

/-- The steps of a reader are those of the part. -/
def Follows {α : Type} (read : (tokens : List Token) → Result α tokens) (due : Due) : Prop :=
  ∀ tokens k, s.Outcome Reading.rest (due :: k, tokens) k (read tokens)

section Outcomes

variable {s} {α β : Type} {restOf : α → List Token} {restOf' : β → List Token}
  {a b : List Due × List Token} {k k' : List Due} {found : Except SyntaxError α}

theorem outcome_pure {x : α} {rest : List Token} (h : restOf x = rest) :
    s.Outcome restOf (k, rest) k (pure x) := by
  subst h
  exact Relation.ReflTransGen.refl

theorem outcome_of_step (hstep : Step s.isCut a b) (h : s.Outcome restOf b k found) :
    s.Outcome restOf a k found := by
  cases found with
  | ok x => exact Relation.ReflTransGen.head hstep h
  | error e =>
    obtain ⟨c, hleads, hstops⟩ := h
    exact ⟨c, Relation.ReflTransGen.head hstep hleads, hstops⟩

theorem outcome_of_leads (hleads : Leads s.isCut a b) (h : s.Outcome restOf b k found) :
    s.Outcome restOf a k found := by
  cases found with
  | ok x => exact Relation.ReflTransGen.trans hleads h
  | error e =>
    obtain ⟨c, hmore, hstops⟩ := h
    exact ⟨c, Relation.ReflTransGen.trans hleads hmore, hstops⟩

theorem outcome_bind {next : α → Except SyntaxError β} (h : s.Outcome restOf a k found)
    (hnext : ∀ x, s.Outcome restOf' (k, restOf x) k' (next x)) :
    s.Outcome restOf' a k' (found >>= next) := by
  cases found with
  | ok x => exact outcome_of_leads h (hnext x)
  | error e => exact h

theorem outcome_map {f : α → β} (h : s.Outcome restOf a k found)
    (hf : ∀ x, restOf' (f x) = restOf x) : s.Outcome restOf' a k (found.map f) := by
  cases found with
  | ok x =>
    show Leads s.isCut a (k, restOf' (f x))
    rw [hf]
    exact h
  | error e => exact h

theorem outcome_of_stops {e : SyntaxError} (h : s.Stops a e) : s.Outcome restOf a k (.error e) :=
  ⟨a, .refl, h⟩

end Outcomes

variable {s}

/-- Where the token in front is not taken, the document is refused there. -/
theorem stops_of_takes_eq_none (fault : Option Token → SyntaxFault)
    (hnone : ∀ t ∈ tokens.head?, (ruleOf k).takes t = none) (hpasses : (ruleOf k).passes = none)
    (hshort : s.isCut = true → ¬ Short k tokens) (hne : (k, tokens) ≠ ([], [])) :
    s.Stops (k, tokens) (s.refuse fault tokens) where
  stuck := stuck_of_takes_eq_none hnone hpasses
  unfinished := fun _ => hne
  cause := .inr ⟨hshort, fault, rfl⟩

theorem stops_refuse (fault : Option Token → SyntaxFault)
    (hnone : ∀ t ∈ tokens.head?, due.rule.takes t = none) (hpasses : due.rule.passes = none)
    (haccess : (ruleOf (due :: k)).access = false) :
    s.Stops (due :: k, tokens) (s.refuse fault tokens) :=
  stops_of_takes_eq_none fault hnone hpasses (fun _ => not_short_of_access haccess tokens)
    fun h => by cases h

variable (s)

/-! ## Single tokens -/

/-- A token is taken where the rule takes just such tokens. -/
theorem outcome_take {accepts : Token → Bool} {fault : Option Token → SyntaxFault}
    (hrule : due.rule = ⟨false, fun t => if accepts t then some more else none, none⟩)
    (tokens : List Token) (k : List Due) :
    s.Outcome Reading.rest (due :: k, tokens) (more ++ k) (s.take accepts fault tokens) := by
  have htakes : ∀ t, due.rule.takes t = if accepts t then some more else none := by simp [hrule]
  have haccess : due.rule.access = false := by rw [hrule]
  have hpasses : due.rule.passes = none := by rw [hrule]
  cases tokens with
  | nil => exact outcome_of_stops (stops_refuse fault (by simp) hpasses haccess)
  | cons t rest =>
    rw [take]
    split
    · next haccepts =>
      exact outcome_of_step (step_takes haccess ((htakes t).trans (if_pos haccepts)))
        (outcome_pure rfl)
    · next haccepts =>
      refine outcome_of_stops (stops_refuse fault ?_ hpasses haccess)
      rintro u ⟨⟩
      exact (htakes t).trans (if_neg haccepts)

theorem follows_take {accepts : Token → Bool} {fault : Option Token → SyntaxFault}
    (hrule : due.rule = ⟨false, fun t => if accepts t then some [] else none, none⟩) :
    s.Follows (s.take accepts fault) due :=
  s.outcome_take hrule

theorem follows_mark (sign : Sign) : s.Follows (s.mark sign.char) (.mark sign) :=
  s.follows_take rfl

theorem follows_byWord : s.Follows (s.word "by") .byWord := s.follows_take rfl

theorem follows_name : s.Follows s.name .name := fun tokens k =>
  outcome_bind (s.follows_take rfl tokens k) fun _ => outcome_pure rfl

theorem follows_quotedText : s.Follows s.quotedText .text := fun tokens k =>
  outcome_bind (s.follows_take rfl tokens k) fun _ => outcome_pure rfl

theorem follows_actorKind : s.Follows s.actorKind .kind := fun tokens k =>
  outcome_bind (s.follows_take rfl tokens k) fun _ => outcome_pure rfl

/-! ## Lists -/

section Lists

variable {α : Type} {item : (tokens : List Token) → Result α tokens}

theorem outcome_items (hitem : s.Follows item due) (closing : Sign) (tokens : List Token)
    (k : List Due) :
    s.Outcome Reading.rest (due :: .more due closing :: k, tokens) k
      (s.items item closing.char tokens) := by
  induction hlen : tokens.length using Nat.strongRecOn generalizing tokens with
  | ind n ih =>
    subst hlen
    rw [items]
    refine outcome_bind (hitem tokens _) fun found => ?_
    obtain ⟨x, after, hshorter⟩ := found
    cases after with
    | nil =>
      refine outcome_of_step (.passes (by simp) rfl) (outcome_of_stops ?_)
      exact stops_refuse _ (by simp) rfl rfl
    | cons t rest =>
      dsimp only
      split
      · next hcomma =>
        refine outcome_of_step (step_takes rfl (if_pos hcomma)) ?_
        refine outcome_bind (ih rest.length ?_ rest rfl) fun _ => outcome_pure rfl
        rw [List.length_cons] at hshorter
        omega
      · next hcomma =>
        refine outcome_of_step (.passes ?_ rfl) ?_
        · rintro u ⟨⟩
          exact if_neg hcomma
        · exact outcome_bind (s.follows_mark closing _ _) fun _ => outcome_pure rfl

theorem follows_list (hitem : s.Follows item due) (closing : Sign) :
    s.Follows (s.list item closing.char) (.list due closing) := by
  intro tokens k
  have hitems : (∀ t ∈ tokens.head?, ¬ t.isMark closing.char = true) →
      s.Outcome Reading.rest (.list due closing :: k, tokens) k
        (s.items item closing.char tokens) := fun hclosing =>
    outcome_of_step (.passes (fun t ht => if_neg (hclosing t ht)) rfl)
      (s.outcome_items hitem closing tokens k)
  cases tokens with
  | nil => exact hitems (by simp)
  | cons t rest =>
    rw [list]
    split
    · next hclosing => exact outcome_of_step (step_takes rfl (if_pos hclosing)) (outcome_pure rfl)
    · next hclosing =>
      refine hitems ?_
      rintro u ⟨⟩
      exact hclosing

theorem outcome_parenthesized (hitem : s.Follows item due) (tokens : List Token) (k : List Due) :
    s.Outcome (fun found => found.1.2) (.parenthesized due :: k, tokens) k
      (s.parenthesized item tokens) := by
  cases tokens with
  | nil => exact outcome_of_step (.passes (by simp) rfl) (outcome_pure rfl)
  | cons t rest =>
    rw [parenthesized]
    split
    · next hparen =>
      refine outcome_of_step (step_takes rfl (if_pos hparen)) ?_
      exact outcome_bind (s.follows_list hitem .rightParen rest k) fun _ => outcome_pure rfl
    · next hparen =>
      refine outcome_of_step (.passes ?_ rfl) (outcome_pure rfl)
      rintro u ⟨⟩
      exact if_neg hparen

end Lists

theorem follows_names : s.Follows s.names .names := fun tokens k =>
  outcome_bind (s.outcome_take rfl tokens k) fun _ =>
    outcome_bind (s.follows_list s.follows_name .rightBracket _ k) fun _ => outcome_pure rfl

/-! ## Types, parameters and actors -/

theorem follows_typeText : s.Follows s.typeText .type := by
  intro tokens k
  fun_induction typeText s tokens generalizing k with
  | case1 => exact outcome_of_stops (stops_refuse _ (by simp) rfl rfl)
  | case2 t htype bracket inner hless ih =>
    refine outcome_of_step (step_takes rfl (if_pos htype)) ?_
    refine outcome_of_step (step_takes rfl (if_pos hless)) ?_
    refine outcome_bind (ih (.mark .greater :: k)) fun _ => ?_
    exact outcome_bind (s.follows_mark .greater _ k) fun _ => outcome_pure rfl
  | case3 t htype bracket inner hless =>
    refine outcome_of_step (step_takes rfl (if_pos htype)) ?_
    refine outcome_of_step (.passes ?_ rfl) (outcome_pure rfl)
    rintro u ⟨⟩
    exact if_neg hless
  | case4 t htype =>
    refine outcome_of_step (step_takes rfl (if_pos htype)) ?_
    exact outcome_of_step (.passes (by simp) rfl) (outcome_pure rfl)
  | case5 t rest htype =>
    refine outcome_of_stops (stops_refuse _ ?_ rfl rfl)
    rintro u ⟨⟩
    exact if_neg htype

theorem follows_typedName : s.Follows s.typedName .typedName := fun tokens k =>
  outcome_bind (outcome_bind (s.outcome_take rfl tokens k) fun _ => outcome_pure rfl) fun _ =>
    outcome_bind (s.follows_mark .colon _ _) fun _ =>
      outcome_bind (s.follows_typeText _ k) fun _ => outcome_pure rfl

theorem follows_performer : s.Follows s.performer .performer := by
  intro tokens k
  cases tokens with
  | nil =>
    refine outcome_of_step (.passes (by simp) rfl) (outcome_of_stops ?_)
    exact stops_refuse _ (by simp) rfl rfl
  | cons t rest =>
    rw [performer]
    split
    · next hrole =>
      refine outcome_of_step (step_takes rfl (if_pos hrole)) ?_
      exact outcome_bind (s.follows_name rest k) fun _ => outcome_pure rfl
    · next hrole =>
      refine outcome_of_step (.passes ?_ rfl) ?_
      · rintro u ⟨⟩
        exact if_neg hrole
      · exact outcome_bind (s.follows_actorKind (t :: rest) k) fun _ => outcome_pure rfl

/-! ## Actions, entities and roles -/

theorem outcome_attributeValue {α : Type} {value : (tokens : List Token) → Result α tokens}
    (hvalue : s.Follows value due) (tokens : List Token) (k : List Due) :
    s.Outcome Reading.rest (.mark .colon :: due :: .mark .semicolon :: k, tokens) k
      (s.attributeValue value tokens) :=
  outcome_bind (s.follows_mark .colon tokens _) fun _ =>
    outcome_bind (hvalue _ _) fun _ =>
      outcome_bind (s.follows_mark .semicolon _ k) fun _ => outcome_pure rfl

/-- An attribute, where its keyword is taken. -/
theorem outcome_given {α β : Type} {value : (tokens : List Token) → Result α tokens}
    {attributes : Due} {restOf : β → List Token} {next : Reading α rest → Except SyntaxError β}
    (hvalue : s.Follows value due) (haccess : attributes.rule.access = false)
    (htakes : attributes.rule.takes t = some (due.given attributes))
    (hnext : ∀ r, s.Outcome restOf (attributes :: k, r.rest) k (next r)) :
    s.Outcome restOf (attributes :: k, t :: rest) k (s.attributeValue value rest >>= next) :=
  outcome_of_step (step_takes haccess htakes)
    (outcome_bind (s.outcome_attributeValue hvalue rest _) hnext)

theorem follows_actionAttributes (a : ActionDef) :
    s.Follows (s.actionAttributes a) .actionAttributes := by
  intro tokens k
  induction hlen : tokens.length using Nat.strongRecOn generalizing a tokens with
  | ind n ih =>
    subst hlen
    cases tokens with
    | nil =>
      rw [actionAttributes]
      exact outcome_of_stops (stops_refuse _ (by simp) rfl rfl)
    | cons t rest =>
      have hmore : ∀ {α : Type} (r : Reading α rest) (b : ActionDef),
          s.Outcome Reading.rest (.actionAttributes :: k, r.rest) k
            (s.actionAttributes b r.rest) :=
        fun r b => ih _ (r.shorter_cons t) b _ rfl
      rw [actionAttributes]
      split
      · next hclosing => exact outcome_of_step (step_takes rfl (if_pos hclosing)) (outcome_pure rfl)
      next hclosing =>
      split
      · next hword =>
        refine s.outcome_given s.follows_quotedText rfl ?_ fun r =>
          outcome_bind (hmore r _) fun _ => outcome_pure rfl
        simp [Due.rule, hclosing, hword]
      next hdescription =>
      split
      · next hword =>
        refine s.outcome_given s.follows_names rfl ?_ fun r =>
          outcome_bind (hmore r _) fun _ => outcome_pure rfl
        simp [Due.rule, hclosing, hdescription, hword]
      next hinputs =>
      split
      · next hword =>
        refine s.outcome_given s.follows_names rfl ?_ fun r =>
          outcome_bind (hmore r _) fun _ => outcome_pure rfl
        simp [Due.rule, hclosing, hdescription, hinputs, hword]
      · next houtputs =>
        refine outcome_of_stops (stops_refuse _ ?_ rfl rfl)
        rintro u ⟨⟩
        simp [Due.rule, hclosing, hdescription, hinputs, houtputs]

/-- An action, from after its keyword. -/
theorem outcome_action (tokens : List Token) (k : List Due) :
    s.Outcome Reading.rest
      (.name :: .byWord :: .performer :: .parenthesized .typedName :: .mark .leftBrace ::
        .actionAttributes :: k, tokens) k (s.action tokens) :=
  outcome_bind (s.follows_name tokens _) fun _ =>
    outcome_bind (s.follows_byWord _ _) fun _ =>
      outcome_bind (s.follows_performer _ _) fun _ =>
        outcome_bind (s.outcome_parenthesized s.follows_typedName _ _) fun _ =>
          outcome_bind (s.follows_mark .leftBrace _ _) fun _ =>
            outcome_bind (s.follows_actionAttributes _ _ k) fun _ => outcome_pure rfl

theorem follows_entityAttributes : s.Follows s.entityAttributes .entityAttributes := by
  intro tokens k
  induction hlen : tokens.length using Nat.strongRecOn generalizing tokens with
  | ind n ih =>
    subst hlen
    cases tokens with
    | nil =>
      rw [entityAttributes]
      refine outcome_of_step (.passes (by simp) rfl) (outcome_of_stops ?_)
      exact stops_refuse _ (by simp) rfl rfl
    | cons t rest =>
      rw [entityAttributes]
      split
      · next hclosing => exact outcome_of_step (step_takes rfl (if_pos hclosing)) (outcome_pure rfl)
      · next hclosing =>
        refine outcome_of_step (.passes ?_ rfl) ?_
        · rintro u ⟨⟩
          exact if_neg hclosing
        refine outcome_bind (s.follows_typedName (t :: rest) _) fun found => ?_
        refine outcome_bind (s.follows_mark .semicolon found.rest _) fun semicolon => ?_
        have := found.shorter
        have := semicolon.shorter
        exact outcome_bind (ih _ (by omega) _ rfl) fun _ => outcome_pure rfl

/-- An entity, from after its keyword. -/
theorem outcome_entity (tokens : List Token) (k : List Due) :
    s.Outcome Reading.rest (.name :: .mark .leftBrace :: .entityAttributes :: k, tokens) k
      (s.entity tokens) :=
  outcome_bind (s.follows_name tokens _) fun _ =>
    outcome_bind (s.follows_mark .leftBrace _ _) fun _ =>
      outcome_bind (s.follows_entityAttributes _ k) fun _ => outcome_pure rfl

theorem follows_roleAttributes (a : RoleDef) :
    s.Follows (s.roleAttributes a) .roleAttributes := by
  intro tokens k
  induction hlen : tokens.length using Nat.strongRecOn generalizing a tokens with
  | ind n ih =>
    subst hlen
    cases tokens with
    | nil =>
      rw [roleAttributes]
      exact outcome_of_stops (stops_refuse _ (by simp) rfl rfl)
    | cons t rest =>
      have hmore : ∀ {α : Type} (r : Reading α rest) (b : RoleDef),
          s.Outcome Reading.rest (.roleAttributes :: k, r.rest) k (s.roleAttributes b r.rest) :=
        fun r b => ih _ (r.shorter_cons t) b _ rfl
      rw [roleAttributes]
      split
      · next hclosing => exact outcome_of_step (step_takes rfl (if_pos hclosing)) (outcome_pure rfl)
      next hclosing =>
      split
      · next hword =>
        refine s.outcome_given s.follows_quotedText rfl ?_ fun r =>
          outcome_bind (hmore r _) fun _ => outcome_pure rfl
        simp [Due.rule, hclosing, hword]
      next hdescription =>
      split
      · next hword =>
        refine s.outcome_given s.follows_actorKind rfl ?_ fun r =>
          outcome_bind (hmore r _) fun _ => outcome_pure rfl
        simp [Due.rule, hclosing, hdescription, hword]
      · next htype =>
        refine outcome_of_stops (stops_refuse _ ?_ rfl rfl)
        rintro u ⟨⟩
        simp [Due.rule, hclosing, hdescription, htype]

/-- A role, from after its keyword. -/
theorem outcome_role (tokens : List Token) (k : List Due) :
    s.Outcome Reading.rest (.name :: .mark .leftBrace :: .roleAttributes :: k, tokens) k
      (s.role tokens) :=
  outcome_bind (s.follows_name tokens _) fun _ =>
    outcome_bind (s.follows_mark .leftBrace _ _) fun _ =>
      outcome_bind (s.follows_roleAttributes _ _ k) fun _ => outcome_pure rfl

/-! ## Expressions and arguments -/

theorem lookAhead_of_seen {offset : ℕ} (h : s.isCut = true → offset < tokens.length) :
    s.lookAhead offset tokens = .ok () := by
  rw [lookAhead]
  split
  · next hnone herror =>
    have hlength := List.getElem?_eq_none_iff.mp hnone
    exact absurd (h (by rw [isCut, herror]; rfl)) (by omega)
  · rfl

theorem lookAhead_of_length {offset : ℕ} {e : SyntaxError} (herror : s.error = some e)
    (h : tokens.length ≤ offset) : s.lookAhead offset tokens = .error e := by
  rw [lookAhead, List.getElem?_eq_none h, herror]

theorem expression_of_length {e : SyntaxError} (herror : s.error = some e)
    (h : tokens.length ≤ 2) : s.expression tokens = .error e := by
  rw [expression, s.lookAhead_of_length herror h]
  rfl

theorem expression_of_seen (h : s.isCut = true → 2 < tokens.length) :
    s.expression tokens = s.propertyOrSimple tokens := by
  rw [expression, s.lookAhead_of_seen h]
  rfl

/-- An argument is not begun with fewer than three tokens either: a name with a colon leaves none
for the expression. -/
theorem argument_of_length {e : SyntaxError} (herror : s.error = some e)
    (h : tokens.length ≤ 2) : s.argument tokens = .error e := by
  match tokens, h with
  | [], _ => rw [argument, s.lookAhead_of_length herror (by simp)]; rfl
  | [t], _ => rw [argument, s.lookAhead_of_length herror (by simp)]; rfl
  | [t, u], _ =>
    rw [argument, s.lookAhead_of_seen (by simp)]
    show s.namedOrPositional [t, u] = .error e
    rw [namedOrPositional]
    split
    · rw [s.expression_of_length herror (by simp)]
      rfl
    · rw [positional, s.expression_of_length herror (by simp)]
      rfl

/-- A property access or a simple expression, where the rule of the part takes one, and leads to
what comes after a simple one. -/
theorem outcome_propertyOrSimple (haccess : (ruleOf (due :: k)).access = true)
    (hshort : s.isCut = true → ¬ Short (due :: k) tokens)
    (hsimple : ∀ {t rest}, tokens = t :: rest → t.kind ≠ .mark → beginsAccess tokens = false →
      Leads s.isCut (due :: k, tokens) (k, rest)) :
    s.Outcome Reading.rest (due :: k, tokens) k (s.propertyOrSimple tokens) := by
  have hrefused : (∀ t ∈ tokens.head?, t.kind = .mark) →
      s.Outcome Reading.rest (due :: k, tokens) k
        (.error (s.refuse .expectedName tokens) : Result Expression tokens) := by
    intro hmark
    refine outcome_of_stops (stops_of_takes_eq_none _ (fun t ht => ?_) (access_rule haccess).1
      hshort fun h => by cases h)
    exact ((access_rule haccess).2 t).mpr (hmark t ht)
  have hother : beginsAccess tokens = false →
      s.Outcome Reading.rest (due :: k, tokens) k (s.simpleExpression tokens) := by
    intro hno
    cases tokens with
    | nil => exact hrefused (by simp)
    | cons t rest =>
      rw [simpleExpression]
      split
      · next hkind => exact hsimple rfl (by rw [hkind]; decide) hno
      · next hkind => exact hsimple rfl (by rw [hkind]; decide) hno
      · next hkind =>
        have hword := hsimple rfl (by rw [hkind]; decide) hno
        split
        · exact hword
        split
        · exact hword
        · exact hword
      · next hkind =>
        refine hrefused ?_
        rintro u ⟨⟩
        exact hkind
  rw [propertyOrSimple.eq_def]
  split
  · next owner point part rest =>
    split
    · next hproperty => exact outcome_of_step (.access haccess hproperty) (outcome_pure rfl)
    · next hproperty => exact hother (Bool.eq_false_iff.mpr hproperty)
  · exact hother rfl
  · exact hother rfl
  · exact hother rfl

/-- Where a lexical error comes too soon, the document is refused with it. -/
theorem stops_of_short {e : SyntaxError} (herror : s.error = some e)
    (haccess : (ruleOf (due :: k)).access = true) (h : tokens.length ≤ 2) :
    s.Stops (due :: k, tokens) e where
  stuck := by
    rw [isCut, herror]
    exact stuck_of_short ⟨haccess, h⟩
  unfinished := fun _ h => by cases h
  cause := .inl ⟨⟨haccess, h⟩, herror⟩

theorem follows_expression : s.Follows s.expression .expression := by
  intro tokens k
  by_cases hshort : s.isCut = true ∧ tokens.length ≤ 2
  · obtain ⟨e, herror⟩ := Option.isSome_iff_exists.mp hshort.1
    rw [s.expression_of_length herror hshort.2]
    exact outcome_of_stops (s.stops_of_short herror rfl hshort.2)
  · rw [s.expression_of_seen fun hcut => Nat.lt_of_not_le fun h => hshort ⟨hcut, h⟩]
    refine s.outcome_propertyOrSimple rfl (fun hcut h => hshort ⟨hcut, h.2⟩) ?_
    rintro t rest rfl hkind hno
    have htakes : (ruleOf (.expression :: k)).takes t = some [] := if_neg (by simpa using hkind)
    exact .single (.takes (fun hcut h => hshort ⟨hcut, h.2⟩) (fun _ => hno) htakes)

theorem beginsAccess_of_isMark_colon {t u : Token} {rest : List Token}
    (h : u.isMark ':' = true) : beginsAccess (t :: u :: rest) = false := by
  match rest with
  | [] => rfl
  | _ :: _ =>
    refine Bool.eq_false_iff.mpr fun haccess => ?_
    exact u.not_isMark_of_isMark h (by decide) (isPropertyAccess_iff.mp haccess).2.1

/-- An argument by position; after a word that is one, no colon comes. -/
theorem outcome_positional (hseen : s.isCut = true → 2 < tokens.length)
    (hunnamed : ∀ {t u us}, tokens = t :: u :: us →
      ¬ (t.kind == .word && u.isMark ':') = true) (k : List Due) :
    s.Outcome Reading.rest (.argument :: k, tokens) k (s.positional tokens) := by
  have hshort : s.isCut = true → ¬ Short (.argument :: k) tokens := fun hcut h =>
    absurd (hseen hcut) (Nat.not_lt.mpr h.2)
  rw [positional, s.expression_of_seen hseen]
  refine outcome_bind (s.outcome_propertyOrSimple rfl hshort ?_) fun _ => outcome_pure rfl
  rintro t rest rfl hkind hno
  by_cases hword : t.kind = .word
  · have htakes : (ruleOf (.argument :: k)).takes t = some [.argumentValue] := by
      simp [ruleOf, Due.rule, hword]
    have hpasses : Step s.isCut (.argumentValue :: k, rest) ([] ++ k, rest) := by
      refine .passes (fun u hu => ?_) rfl
      obtain ⟨us, rfl⟩ := List.head?_eq_some_iff.mp hu
      exact if_neg fun hcolon => hunnamed rfl (by rw [hword, hcolon]; rfl)
    exact .head (.takes hshort (fun _ => hno) htakes) (.single hpasses)
  · have htakes : (ruleOf (.argument :: k)).takes t = some [] := by
      simp [ruleOf, Due.rule, hkind, hword]
    exact .single (.takes hshort (fun _ => hno) htakes)

theorem follows_argument : s.Follows s.argument .argument := by
  intro tokens k
  by_cases hshort : s.isCut = true ∧ tokens.length ≤ 2
  · obtain ⟨e, herror⟩ := Option.isSome_iff_exists.mp hshort.1
    rw [s.argument_of_length herror hshort.2]
    exact outcome_of_stops (s.stops_of_short herror rfl hshort.2)
  · have hseen : s.isCut = true → 2 < tokens.length := fun hcut =>
      Nat.lt_of_not_le fun h => hshort ⟨hcut, h⟩
    rw [argument, s.lookAhead_of_seen fun hcut => Nat.lt_of_succ_lt (hseen hcut)]
    show s.Outcome Reading.rest (.argument :: k, tokens) k (s.namedOrPositional tokens)
    rw [namedOrPositional.eq_def]
    split
    · next name colon rest =>
      split
      · next hnamed =>
        obtain ⟨hword, hcolon⟩ := Bool.and_eq_true _ _ ▸ hnamed
        have htakes : (ruleOf (.argument :: k)).takes name = some [.argumentValue] := by
          simp [ruleOf, Due.rule, beq_iff_eq.mp hword]
        refine outcome_of_step (.takes (fun hcut h => hshort ⟨hcut, h.2⟩)
          (fun _ => beginsAccess_of_isMark_colon hcolon) htakes) ?_
        refine outcome_of_step (step_takes rfl (if_pos hcolon)) ?_
        exact outcome_bind (s.follows_expression rest k) fun _ => outcome_pure rfl
      · next hnamed =>
        refine s.outcome_positional hseen ?_ k
        rintro t u us ⟨⟩
        exact hnamed
    · exact s.outcome_positional hseen (by simp) k
    · exact s.outcome_positional hseen (by simp) k

/-! ## Workflows -/

theorem outcome_call (tokens : List Token) (k : List Due) :
    s.Outcome Reading.rest (.name :: .parenthesized .argument :: .mark .semicolon :: k, tokens) k
      (s.call tokens) :=
  outcome_bind (s.follows_name tokens _) fun _ =>
    outcome_bind (s.outcome_parenthesized s.follows_argument _ _) fun _ =>
      outcome_bind (s.follows_mark .semicolon _ k) fun _ => outcome_pure rfl

theorem outcome_condition (tokens : List Token) (k : List Due) :
    s.Outcome Reading.rest
      (.mark .leftParen :: .expression :: .mark .rightParen :: .mark .leftBrace :: k, tokens) k
      (s.condition tokens) :=
  outcome_bind (s.follows_mark .leftParen tokens _) fun _ =>
    outcome_bind (s.follows_expression _ _) fun _ =>
      outcome_bind (s.follows_mark .rightParen _ _) fun _ =>
        outcome_bind (s.follows_mark .leftBrace _ k) fun _ => outcome_pure rfl

theorem follows_body : s.Follows s.body .body := by
  intro tokens
  induction hlen : tokens.length using Nat.strongRecOn generalizing tokens with
  | ind n ih =>
    subst hlen
    intro k
    -- at the end of the tokens a call is due
    have hnil : s.Outcome Reading.rest (.body :: k, []) k
        (.error (s.refuse .expectedName []) : Result (List Element) tokens) :=
      outcome_of_step (.passes (by simp) rfl) (outcome_of_stops (stops_refuse _ (by simp) rfl rfl))
    cases tokens with
    | nil =>
      rw [body]
      exact hnil
    | cons t rest =>
      rw [body]
      split
      · next hclosing => exact outcome_of_step (step_takes rfl (if_pos hclosing)) (outcome_pure rfl)
      next hclosing =>
      split
      · next hif =>
        refine outcome_of_step (step_takes rfl ((if_neg hclosing).trans (if_pos hif))) ?_
        refine outcome_bind (s.outcome_condition rest (.body :: .afterThen :: k)) fun found => ?_
        have hfound := found.shorter
        refine outcome_bind (ih _ (found.shorter_cons t) _ rfl (.afterThen :: k)) fun inner => ?_
        obtain ⟨thenBody, after, hthen⟩ := inner
        cases after with
        | nil => exact outcome_of_step (.passes (by simp) rfl) hnil
        | cons word afterElse =>
          simp only [List.length_cons] at hthen ih
          dsimp only
          split
          · next helse =>
            refine outcome_of_step (step_takes rfl (if_pos helse)) ?_
            refine outcome_bind (s.follows_mark .leftBrace afterElse _) fun brace => ?_
            have hbrace := brace.shorter
            refine outcome_bind (ih _ (by omega) _ rfl (.body :: k)) fun elseBody => ?_
            have helseBody := elseBody.shorter
            exact outcome_bind (ih _ (by omega) _ rfl k) fun _ => outcome_pure rfl
          · next helse =>
            refine outcome_of_step (.passes ?_ rfl) ?_
            · rintro u ⟨⟩
              exact if_neg helse
            · exact outcome_bind (ih _ (by rw [List.length_cons]; omega) (word :: afterElse) rfl k)
                fun _ => outcome_pure rfl
      · next hif =>
        refine outcome_of_step (.passes ?_ rfl) ?_
        · rintro u ⟨⟩
          exact (if_neg hclosing).trans (if_neg hif)
        refine outcome_bind (s.outcome_call (t :: rest) _) fun found => ?_
        exact outcome_bind (ih _ found.shorter _ rfl k) fun _ => outcome_pure rfl

/-- A workflow, from after its keyword. -/
theorem outcome_workflow (tokens : List Token) (k : List Due) :
    s.Outcome Reading.rest (.name :: .mark .leftBrace :: .body :: k, tokens) k
      (s.workflow tokens) :=
  outcome_bind (s.follows_name tokens _) fun _ =>
    outcome_bind (s.follows_mark .leftBrace _ _) fun _ =>
      outcome_bind (s.follows_body _ k) fun _ => outcome_pure rfl

/-! ## Documents -/

theorem outcome_definition (t : Token) (rest : List Token) :
    s.Outcome Reading.rest ([], t :: rest) [] (s.definition (t :: rest)) := by
  have hafter : ∀ {α : Type} {f : α → Definition} {dues : List Due} {found : Result α rest},
      Rule.top.takes t = some dues → s.Outcome Reading.rest (dues, rest) [] found →
      s.Outcome Reading.rest ([], t :: rest) []
        (Except.map (Reading.ofShorter (by simp)) (found.map (·.map f)) :
          Result Definition (t :: rest)) := by
    intro α f dues found htakes h
    have hstep : Step s.isCut ([], t :: rest) (dues ++ [], rest) := step_takes rfl htakes
    rw [List.append_nil] at hstep
    exact outcome_of_step hstep (outcome_map (outcome_map h fun _ => rfl) fun _ => rfl)
  rw [definition]
  dsimp only
  split
  · next hword => exact hafter (if_pos hword) (s.outcome_action rest [])
  next haction =>
  split
  · next hword =>
    exact hafter ((if_neg haction).trans (if_pos hword)) (s.outcome_entity rest [])
  next hentity =>
  split
  · next hword =>
    refine hafter ?_ (s.outcome_workflow rest [])
    simp [Rule.top, haction, hentity, hword]
  next hworkflow =>
  split
  · next hword =>
    refine hafter ?_ (s.outcome_role rest [])
    simp [Rule.top, haction, hentity, hworkflow, hword]
  · next hrole =>
    refine outcome_of_stops (stops_of_takes_eq_none _ ?_ rfl
      (fun _ => not_short_of_access rfl _) fun h => by cases h)
    rintro u ⟨⟩
    simp [ruleOf, Rule.top, haction, hentity, hworkflow, hrole]

/-- The definitions of a document lead to its end, or to where no step is left. -/
theorem outcome_definitions (tokens : List Token) :
    s.Outcome (fun _ => []) ([], tokens) [] (s.definitions tokens).value := by
  induction hlen : tokens.length using Nat.strongRecOn generalizing tokens with
  | ind n ih =>
    subst hlen
    cases tokens with
    | nil =>
      rw [definitions]
      split
      · next e herror =>
        refine outcome_of_stops ⟨stuck_of_takes_eq_none (by simp) rfl, fun hnone => ?_, .inr
          ⟨fun _ => not_short_of_access rfl _, .unexpectedDefinition, ?_⟩⟩
        · rw [hnone] at herror
          cases herror
        · rw [refuse, herror]
      · exact outcome_pure rfl
    | cons t rest =>
      rw [definitions, Logged.value_bind]
      have hdefinition := s.outcome_definition t rest
      split
      · next e hrefused =>
        rw [hrefused] at hdefinition
        exact hdefinition
      · next found hfound =>
        rw [hfound] at hdefinition
        rw [Logged.value_bind, Logged.value_pure]
        exact outcome_map (outcome_of_leads hdefinition (ih _ found.shorter _ rfl)) fun _ => rfl

end Scan

end RoleFlow
