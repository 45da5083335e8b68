import RoleFlow.Proofs.Dues

/-!
# Prefixes of documents

What is taken from the front of the tokens does not depend on what comes after it, but for a point
after a word, which may be part of a property access. So where no step is left, no document goes on
with the token that comes next.

Results:
* `exists_detached`: other tokens after those that are taken.
* `leads_of_lexemes`: the same tokens at other places.
* `not_leads_of_stuck`: where no step is left, no document goes on.
-/

namespace RoleFlow

/-- The kind and the characters of a token. -/
abbrev Lexeme := TokenKind × List Char

/-- What a token is apart from its place. -/
def Token.lexeme (t : Token) : Lexeme := (t.kind, t.chars)

theorem eq_placed_of_lexeme {t u : Token} (h : t.lexeme = u.lexeme) :
    t = u.placed t.start t.stop := by
  cases t
  cases u
  cases h
  rfl

theorem takes_of_lexeme {t u : Token} (h : t.lexeme = u.lexeme) (k : List Due) :
    (ruleOf k).takes t = (ruleOf k).takes u := by
  rw [eq_placed_of_lexeme h, takes_placed]

theorem isMark_of_lexeme {t u : Token} (h : t.lexeme = u.lexeme) (mark : Char) :
    t.isMark mark = u.isMark mark := by
  rw [eq_placed_of_lexeme h]
  rfl

variable {cut : Bool} {k k' more : List Due} {t : Token} {tokens rest other before : List Token}
  {a b : List Due × List Token}

/-! ## Inversions -/

/-- A step that takes no token replaces a part. -/
theorem exists_pass (h : Step cut a b) (hrest : b.2 = a.2) :
    (∀ t ∈ a.2.head?, (ruleOf a.1).takes t = none) ∧
      ∃ more, (ruleOf a.1).passes = some more ∧ b.1 = more ++ a.1.tail := by
  cases h with
  | access =>
    have := congrArg List.length hrest
    simp only [List.length_cons] at this
    omega
  | takes =>
    have := congrArg List.length hrest
    simp only [List.length_cons] at this
    omega
  | passes hnone hpasses => exact ⟨hnone, _, hpasses, rfl⟩

/-- Steps that take no token replace one part after the other. -/
theorem leads_induction {P : List Due → Prop} (h : Leads cut (k, tokens) (k', tokens)) (hk : P k)
    (hpasses : ∀ {k more}, P k → (∀ t ∈ tokens.head?, (ruleOf k).takes t = none) →
      (ruleOf k).passes = some more → P (more ++ k.tail)) : P k' := by
  suffices hall : ∀ b, Leads cut (k, tokens) b → b.2 = tokens → P b.1 from hall _ h rfl
  intro b hb
  induction hb with
  | refl => exact fun _ => hk
  | @tail c b hleads hstep ih =>
    intro hb
    have hc : c.2 = tokens := by
      refine (suffix_of_leads hleads).eq_of_length_le ?_
      rw [← hb]
      exact (suffix_of_step hstep).length_le
    obtain ⟨hnone, more, hmore, hnext⟩ := exists_pass hstep (hb.trans hc.symm)
    rw [hc] at hnone
    rw [hnext]
    exact hpasses (ih hc) hnone hmore

/-- Steps that take no token look at the token in front alone. -/
theorem leads_of_head? (h : Leads cut (k, tokens) (k', tokens))
    (hhead : other.head? = tokens.head?) : Leads false (k, other) (k', other) := by
  refine leads_induction (P := fun k' => Leads false (k, other) (k', other)) h .refl
    fun hleads hnone hpasses => hleads.tail (.passes ?_ hpasses)
  rwa [hhead]

/-- Where no step is left, the token in front is not taken, and the part is not replaced. -/
theorem rule_of_stuck (h : Stuck cut (k, t :: rest)) (hseen : cut = true → ¬ Short k (t :: rest)) :
    (ruleOf k).takes t = none ∧ (ruleOf k).passes = none := by
  have htakes : (ruleOf k).takes t = none := by
    by_contra hne
    obtain ⟨more, hmore⟩ := Option.ne_none_iff_exists'.mp hne
    by_cases haccess : (ruleOf k).access = true ∧ beginsAccess (t :: rest) = true
    · match rest, haccess with
      | point :: part :: rest, ⟨hrule, hproperty⟩ => exact h _ (.access hrule hproperty)
    · refine h _ (.takes hseen (fun hrule => ?_) hmore)
      exact Bool.eq_false_iff.mpr fun hbegins => haccess ⟨hrule, hbegins⟩
  refine ⟨htakes, ?_⟩
  by_contra hne
  obtain ⟨more, hmore⟩ := Option.ne_none_iff_exists'.mp hne
  refine h _ (.passes ?_ hmore)
  rintro u ⟨⟩
  exact htakes

/-- A document that is not at its end is led on. -/
theorem exists_step_of_leads (h : Leads cut a ([], [])) (ha : a ≠ ([], [])) :
    ∃ c, Step cut a c ∧ Leads cut c ([], []) :=
  h.cases_head.resolve_left ha

/-- What is left at the end of a run is left after its first step. -/
theorem exists_suffix (h : Leads cut a b) : ∃ taken, a.2 = taken ++ b.2 := by
  obtain ⟨taken, htaken⟩ := suffix_of_leads h
  exact ⟨taken, htaken.symm⟩

theorem not_point_of_leads (h : Leads cut (k, t :: rest) b) (hlength : b.2.length ≤ rest.length) :
    ¬ t.isMark '.' = true := by
  intro hpoint
  have := congrArg List.length (eq_of_leads_point h hpoint)
  rw [List.length_cons] at this
  omega

/-! ## Values and what comes after them -/

/-- Whether the part is a value or comes after the word of one. -/
def Due.isValue : Due → Bool
  | .expression => true
  | .argument => true
  | .argumentValue => true
  | _ => false

/-- Whether a value has just been taken: a mark or the rest of a list comes. -/
def AfterValue : List Due → Prop
  | .mark _ :: _ => True
  | .more _ _ :: _ => True
  | .argumentValue :: k => AfterValue k
  | _ => False

/-- After every value a mark or the rest of a list comes. -/
def Guarded : List Due → Prop
  | [] => True
  | due :: k => (due.isValue = true → AfterValue k) ∧ Guarded k

theorem guarded_of_takes (h : (ruleOf k).takes t = some more) (hk : Guarded k) :
    Guarded (more ++ k.tail) := by
  cases k with
  | nil =>
    simp only [ruleOf, Rule.top] at h
    split_ifs at h <;> (cases h; simp [Guarded, Due.isValue])
  | cons due k =>
    obtain ⟨hvalue, hrest⟩ := hk
    cases due with
    | argument =>
      have hafter := hvalue rfl
      simp only [ruleOf, Due.rule] at h
      split_ifs at h <;> cases h
      · exact ⟨fun _ => hafter, hrest⟩
      · exact hrest
    | argumentValue =>
      have hafter := hvalue rfl
      simp only [ruleOf, Due.rule] at h
      split_ifs at h
      cases h
      exact ⟨fun _ => hafter, hrest⟩
    | _ =>
      simp only [ruleOf, Due.rule] at h
      split_ifs at h <;> (cases h; simp [Guarded, Due.isValue, Due.given, AfterValue, hrest])

theorem guarded_of_passes (h : (ruleOf k).passes = some more) (hk : Guarded k) :
    Guarded (more ++ k.tail) := by
  cases k with
  | nil => cases h
  | cons due k =>
    obtain ⟨-, hrest⟩ := hk
    cases due <;> cases h <;> simp [Guarded, Due.isValue, AfterValue, hrest]

theorem guarded_of_step (h : Step cut a b) (ha : Guarded a.1) : Guarded b.1 := by
  cases h with
  | @access k _ _ _ _ _ =>
    cases k with
    | nil => trivial
    | cons due k => exact ha.2
  | takes _ _ h => exact guarded_of_takes h ha
  | passes _ h => exact guarded_of_passes h ha

theorem afterValue_of_passes (h : (ruleOf k).passes = some more) (hk : AfterValue k) :
    AfterValue (more ++ k.tail) := by
  match k, hk with
  | .mark _ :: _, _ => cases h
  | .more _ _ :: _, _ =>
    cases h
    trivial
  | .argumentValue :: _, hk =>
    cases h
    exact hk

theorem access_eq_false_of_afterValue (hk : AfterValue k) : (ruleOf k).access = false := by
  match k, hk with
  | .mark _ :: _, _ => rfl
  | .more _ _ :: _, _ => rfl
  | .argumentValue :: _, _ => rfl

/-- Where a value has just been taken, none is due. -/
theorem access_eq_false_of_leads (hk : AfterValue k) (h : Leads cut (k, tokens) (k', tokens)) :
    (ruleOf k').access = false :=
  access_eq_false_of_afterValue
    (leads_induction h hk fun hk _ hpasses => afterValue_of_passes hpasses hk)

/-- After the word of a value a mark or the rest of a list comes. -/
theorem afterValue_of_takes (haccess : (ruleOf k).access = true)
    (h : (ruleOf k).takes t = some more) (hk : Guarded k) : AfterValue (more ++ k.tail) := by
  cases k with
  | nil => cases haccess
  | cons due k =>
    cases due with
    | expression =>
      simp only [ruleOf, Due.rule] at h
      split_ifs at h
      cases h
      exact hk.1 rfl
    | argument =>
      simp only [ruleOf, Due.rule] at h
      split_ifs at h <;> (cases h; exact hk.1 rfl)
    | _ => cases haccess

/-- Where a value may be due, a number leads to it. -/
theorem leads_number (h : Leads cut (k, tokens) (k', tokens)) (ht : t.kind = .number)
    (rest : List Token) : Leads false (k, t :: rest) (k', t :: rest) := by
  refine leads_induction (P := fun k' => Leads false (k, t :: rest) (k', t :: rest)) h .refl
    fun hleads _ hpasses => hleads.tail (.passes ?_ hpasses)
  rintro u ⟨⟩
  by_contra hne
  obtain ⟨more, hmore⟩ := Option.ne_none_iff_exists'.mp hne
  rw [(access_rule (access_of_takes_number ht hmore)).1] at hpasses
  cases hpasses

/-! ## Other tokens after those that are taken -/

/-- Other tokens after those that are taken may begin with a point only where a value is due. -/
def MayFollow (k k' : List Due) (other : List Token) : Prop :=
  (∀ t ∈ other.head?, ¬ t.isMark '.' = true) ∨ Guarded k ∧ (ruleOf k').access = true

/-- They make no property access of a word that was taken alone. -/
theorem beginsAccess_of_mayFollow {inner : List Token} (hrule : (ruleOf k).access = true)
    (htakes : (ruleOf k).takes t = some more)
    (h : Leads false (more ++ k.tail, inner ++ rest) (k', rest)) (hother : MayFollow k k' other) :
    beginsAccess (t :: inner ++ other) = false := by
  refine Bool.eq_false_iff.mpr fun hbegins => ?_
  obtain ⟨_, point, part, _, heq, hproperty⟩ := exists_of_beginsAccess hbegins
  have hpoint := (Scan.isPropertyAccess_iff.mp hproperty).2.1
  cases inner with
  | nil =>
    obtain rfl := (List.cons.inj heq).2
    rcases hother with hfree | ⟨hguarded, hvalue⟩
    · exact hfree point rfl hpoint
    · have hnone := access_eq_false_of_leads (afterValue_of_takes hrule htakes hguarded) h
      rw [hvalue] at hnone
      cases hnone
  | cons u inner =>
    obtain rfl := (List.cons.inj (List.cons.inj heq).2).1
    exact not_point_of_leads h (by simp) hpoint

/-- What is taken does not depend on what comes after it, unless a point comes; nor then, if a value
is due after what is taken. -/
theorem exists_detached (h : Leads false a b) :
    ∀ {before : List Token}, a.2 = before ++ b.2 →
      ∃ k, Leads false (k, b.2) b ∧
        ∀ other, MayFollow a.1 b.1 other → Leads false (a.1, before ++ other) (k, other) := by
  induction h using Relation.ReflTransGen.head_induction_on with
  | refl =>
    intro before hbefore
    obtain rfl : before = [] := List.self_eq_append_left.mp hbefore
    exact ⟨_, .refl, fun _ _ => .refl⟩
  | @head a c hstep hleads ih =>
    intro before hbefore
    have hmay : ∀ {other : List Token}, MayFollow a.1 b.1 other → MayFollow c.1 b.1 other :=
      Or.imp_right (And.imp_left (guarded_of_step hstep))
    cases before with
    | nil =>
      refine ⟨a.1, ?_, fun _ _ => .refl⟩
      have ha : a = (a.1, b.2) := Prod.ext rfl hbefore
      rw [← ha]
      exact .head hstep hleads
    | cons t before =>
      cases hstep with
      | access hrule hproperty =>
        obtain ⟨inner, rfl⟩ := exists_suffix hleads
        obtain ⟨after, hafter, hother⟩ := ih rfl
        rw [← List.append_cancel_right (show _ :: _ :: _ :: inner ++ b.2 = t :: before ++ b.2
          from hbefore)]
        exact ⟨after, hafter, fun other hallow =>
          .head (.access hrule hproperty) (hother other (hmay hallow))⟩
      | takes _ _ htakes =>
        obtain ⟨rfl, rfl⟩ := List.cons.inj hbefore
        obtain ⟨after, hafter, hother⟩ := ih rfl
        exact ⟨after, hafter, fun other hallow => .head (.takes (by simp)
          (fun hrule => beginsAccess_of_mayFollow hrule htakes hleads hallow) htakes)
          (hother other (hmay hallow))⟩
      | passes hnone hpasses =>
        obtain ⟨after, hafter, hother⟩ := ih hbefore
        refine ⟨after, hafter, fun other hallow => .head (.passes ?_ hpasses)
          (hother other (hmay hallow))⟩
        rintro u ⟨⟩
        dsimp only at hbefore
        exact hnone t (by rw [hbefore]; rfl)

/-! ## Tokens that no document goes on with -/

/-- What tokens of the same kinds and characters lead to, after one step of the first ones: a point
that was not taken in a property access would be left in front. -/
theorem leads_of_step {ts us : List Token} (h : Step false (k, ts) (k', rest))
    (hfree : ∀ t ∈ rest.head?, ¬ t.isMark '.' = true)
    (hmap : us.map Token.lexeme = ts.map Token.lexeme) (hends : Leads false (k, us) ([], [])) :
    ∃ vs, vs.map Token.lexeme = rest.map Token.lexeme ∧ Leads false (k', vs) ([], []) := by
  cases h with
  | access hrule hproperty =>
    obtain ⟨owner, others, rfl, -, hothers⟩ := List.map_eq_cons_iff.mp hmap
    obtain ⟨point, others, rfl, hpoint, hothers⟩ := List.map_eq_cons_iff.mp hothers
    obtain ⟨part, vs, rfl, -, hvs⟩ := List.map_eq_cons_iff.mp hothers
    obtain ⟨_, hstep, hmore⟩ := exists_step_of_leads hends (by simp)
    cases hstep with
    | access => exact ⟨vs, hvs, hmore⟩
    | takes =>
      refine absurd ?_ (not_point_of_leads hmore (by simp))
      rw [isMark_of_lexeme hpoint]
      exact (Scan.isPropertyAccess_iff.mp hproperty).2.1
    | passes _ hpasses =>
      rw [(access_rule hrule).1] at hpasses
      cases hpasses
  | takes _ _ htakes =>
    obtain ⟨u, vs, rfl, hu, hvs⟩ := List.map_eq_cons_iff.mp hmap
    obtain ⟨_, hstep, hmore⟩ := exists_step_of_leads hends (by simp)
    cases hstep with
    | access _ hproperty =>
      obtain ⟨point, _, rfl, hpoint, -⟩ := List.map_eq_cons_iff.mp hvs.symm
      have hmark := (Scan.isPropertyAccess_iff.mp hproperty).2.1
      rw [← isMark_of_lexeme hpoint] at hmark
      exact absurd hmark (hfree point rfl)
    | takes _ _ htakes' =>
      rw [takes_of_lexeme hu, htakes] at htakes'
      cases htakes'
      exact ⟨vs, hvs, hmore⟩
    | passes hnone _ =>
      have hnot := hnone _ rfl
      rw [takes_of_lexeme hu, htakes] at hnot
      cases hnot
  | passes hnone hpasses =>
    have hne : (k, us) ≠ ([], []) := by
      rintro ⟨⟩
      cases hpasses
    have hnone' : ∀ u ∈ us.head?, (ruleOf k).takes u = none := by
      intro u hu
      obtain ⟨_, rfl⟩ := List.head?_eq_some_iff.mp hu
      obtain ⟨t, _, rfl, ht, -⟩ := List.map_eq_cons_iff.mp hmap.symm
      rw [← takes_of_lexeme ht]
      exact hnone t rfl
    obtain ⟨_, hstep, hmore⟩ := exists_step_of_leads hends hne
    cases hstep.deterministic (.passes hnone' hpasses)
    exact ⟨us, hmap, hmore⟩

/-- What tokens of the same kinds and characters lead to, after a run of the first ones. -/
theorem leads_of_lexemes {us : List Token} (h : Leads false a (k, t :: rest))
    (hpoint : ¬ t.isMark '.' = true) (hmap : us.map Token.lexeme = a.2.map Token.lexeme)
    (hends : Leads false (a.1, us) ([], [])) :
    ∃ vs, vs.map Token.lexeme = (t :: rest).map Token.lexeme ∧ Leads false (k, vs) ([], []) := by
  induction h using Relation.ReflTransGen.head_induction_on generalizing us with
  | refl => exact ⟨us, hmap, hends⟩
  | @head a c hstep hleads ih =>
    have hfree : ∀ u ∈ c.2.head?, ¬ u.isMark '.' = true := by
      intro u hu hmark
      obtain ⟨more, hmore⟩ := List.head?_eq_some_iff.mp hu
      have hc : Leads false (c.1, u :: more) (k, t :: rest) := by rwa [← hmore]
      cases eq_of_leads_point hc hmark
      exact hpoint hmark
    obtain ⟨vs, hvs, hmore⟩ := leads_of_step hstep hfree hmap hends
    exact ih hvs hmore

/-- Where no step is left and no point comes, other tokens of the same kinds and characters do not
lead to an end, whatever comes after them. -/
theorem not_leads_of_stuck {before' : List Token} {t' : Token}
    (h : Leads false (k, before ++ t :: rest) (k', t :: rest))
    (hstuck : Stuck false (k', t :: rest)) (hpoint : ¬ t.isMark '.' = true)
    (hbefore : before'.map Token.lexeme = before.map Token.lexeme)
    (ht : t'.lexeme = t.lexeme) (rest' : List Token) :
    ¬ Leads false (k, before' ++ t' :: rest') ([], []) := by
  intro hends
  obtain ⟨k'', hk'', hother⟩ := exists_detached h rfl
  have hfree : ∀ u ∈ (t :: rest').head?, ¬ u.isMark '.' = true := by
    rintro u ⟨⟩
    exact hpoint
  have hleads := (hother _ (.inl hfree)).trans (leads_of_head? hk'' rfl)
  obtain ⟨us, hus, hmore⟩ := leads_of_lexemes hleads hpoint
    (by rw [List.map_append, List.map_append, List.map_cons, List.map_cons, hbefore, ht]) hends
  obtain ⟨u, _, rfl, hu, -⟩ := List.map_eq_cons_iff.mp hus
  obtain ⟨c, hstep, -⟩ := exists_step_of_leads hmore (by simp)
  obtain ⟨hnone, hpasses⟩ := rule_of_stuck hstuck (by simp)
  refine stuck_of_takes_eq_none ?_ hpasses c hstep
  rintro v ⟨⟩
  rw [takes_of_lexeme hu, hnone]

end RoleFlow
