import RoleFlow.Proofs.Prefixes

/-!
# Steps before a lexical error

A lexical error that comes after the tokens stops the steps of a part that takes a property access,
if fewer than three tokens are left. The other steps are those with any tokens in place of the
error. Such parts are told by the numbers that they take.

Results:
* `leads_of_stuck_cut`, `not_leads_of_cut`: steps with an error and steps without it.
* `exists_access_of_number`, `leads_or_takes_mark`: parts that take a property access.
-/

namespace RoleFlow

variable {cut : Bool} {k k' more : List Due} {t : Token} {tokens rest other : List Token}
  {a b c : List Due × List Token}

/-! ## Where a lexical error comes -/

theorem stuck_end : Stuck cut ([], []) :=
  stuck_of_takes_eq_none (by simp) rfl

/-- A run ends in one place. -/
theorem eq_of_stuck (hb : Leads cut a b) (hc : Leads cut a c) (hbstuck : Stuck cut b)
    (hcstuck : Stuck cut c) : b = c := by
  rcases leads_total hb hc with h | h
  · exact eq_of_leads_stuck h hbstuck
  · exact (eq_of_leads_stuck h hcstuck).symm

theorem Step.uncut (h : Step true a b) : Step false a b := by
  cases h with
  | access hrule hproperty => exact .access hrule hproperty
  | takes _ hsimple htakes => exact .takes (by simp) hsimple htakes
  | passes hnone hpasses => exact .passes hnone hpasses

theorem leads_of_cut (h : Leads true a b) : Leads false a b :=
  Relation.ReflTransGen.mono (fun _ _ => Step.uncut) _ _ h

/-- Steps before a lexical error come no further than where one of them is the last. -/
theorem leads_of_stuck_cut (hb : Leads true a b) (hc : Leads false a c) (hstuck : Stuck true c) :
    Leads false b c := by
  induction hb with
  | refl => exact hc
  | @tail b b' _ hstep ih =>
    rcases ih.cases_head with rfl | ⟨next, hnext, hmore⟩
    · exact absurd hstep (hstuck b')
    · rwa [← hnext.deterministic hstep.uncut]

/-- Steps before a lexical error are steps with other tokens in its place. -/
theorem leads_append_of_cut (h : Leads true a b) (hb : b.2 ≠ []) (other : List Token) :
    Leads false (a.1, a.2 ++ other) (b.1, b.2 ++ other) := by
  induction h with
  | refl => exact .refl
  | @tail c b hleads hstep ih =>
    have hc : c.2 ≠ [] := by
      intro hnil
      have hsuffix := suffix_of_step hstep
      rw [hnil] at hsuffix
      exact hb (List.suffix_nil.mp hsuffix)
    refine (ih hc).tail ?_
    cases hstep with
    | access hrule hproperty => exact .access hrule hproperty
    | @takes k more t rest hseen hsimple htakes =>
      refine .takes (by simp) (fun hrule => ?_) htakes
      have hlength : 2 ≤ rest.length := by
        by_contra hlt
        exact hseen rfl ⟨hrule, by rw [List.length_cons]; omega⟩
      refine Bool.eq_false_iff.mpr fun hbegins => ?_
      have := Retold.beginsAccess_of_append hbegins hlength
      rw [hsimple hrule] at this
      cases this
    | @passes k more tokens hnone hpasses =>
      refine .passes (fun t ht => hnone t ?_) hpasses
      obtain ⟨u, left, hleft⟩ := List.exists_cons_of_ne_nil hc
      dsimp only at hleft
      rw [hleft] at ht ⊢
      exact ht

/-- Where a step is missing at a token before a lexical error, no document goes on, whatever comes
after it. -/
theorem not_leads_of_cut (h : Leads true a (k, t :: rest)) (hstuck : Stuck true (k, t :: rest))
    (hseen : ¬ Short k (t :: rest)) (other : List Token) :
    ¬ Leads false (a.1, a.2 ++ other) ([], []) := by
  intro hends
  obtain ⟨hnone, hpasses⟩ := rule_of_stuck hstuck fun _ => hseen
  have hstuck' : Stuck false (k, t :: rest ++ other) :=
    stuck_of_takes_eq_none (by rintro u ⟨⟩; exact hnone) hpasses
  have hleads := leads_append_of_cut h (List.cons_ne_nil t rest) other
  cases eq_of_stuck hends hleads stuck_end hstuck'

/-- Where a step is missing at a token before a lexical error, no steps lead on to where the error
would come too soon. -/
theorem not_short_of_cut (h : Leads true a (k, t :: rest)) (hstuck : Stuck true (k, t :: rest))
    (hseen : ¬ Short k (t :: rest)) (hc : Leads false a (k', tokens)) : ¬ Short k' tokens := by
  intro hshort
  obtain ⟨hnone, hpasses⟩ := rule_of_stuck hstuck fun _ => hseen
  have hmore := leads_of_stuck_cut h hc (stuck_of_short hshort)
  cases eq_of_leads_stuck hmore (stuck_of_takes_eq_none (by rintro u ⟨⟩; exact hnone) hpasses)
  exact hseen hshort

/-! ## Parts that take a number -/

/-- A number on the way to the end is taken where a property access might be. -/
theorem exists_access_of_number (ht : t.kind = .number) (h : Leads cut a ([], [])) :
    ∀ {before : List Token}, a.2 = before ++ t :: rest →
      ∃ k, Leads cut a (k, t :: rest) ∧ (ruleOf k).access = true := by
  induction h using Relation.ReflTransGen.head_induction_on with
  | refl => simp
  | @head a c hstep _ ih =>
    intro before hbefore
    suffices htail : (∃ inner, c.2 = inner ++ t :: rest) ∨
        a.2 = t :: rest ∧ (ruleOf a.1).access = true by
      rcases htail with ⟨inner, hinner⟩ | ⟨ha, haccess⟩
      · obtain ⟨k, hleads, haccess⟩ := ih hinner
        exact ⟨k, .head hstep hleads, haccess⟩
      · exact ⟨a.1, by rw [← ha]; exact .refl, haccess⟩
    cases hstep with
    | @access k owner point part left hrule hproperty =>
      -- the tokens of a property access are no numbers
      obtain ⟨howner, hpoint, hpart, -⟩ := Scan.isPropertyAccess_iff.mp hproperty
      have hmark := Token.kind_of_isMark hpoint
      match before, hbefore with
      | [], hbefore =>
        obtain rfl := (List.cons.inj hbefore).1
        exact absurd (ht.symm.trans howner) (by decide)
      | [_], hbefore =>
        obtain rfl := (List.cons.inj (List.cons.inj hbefore).2).1
        exact absurd (ht.symm.trans hmark) (by decide)
      | [_, _], hbefore =>
        obtain rfl := (List.cons.inj (List.cons.inj (List.cons.inj hbefore).2).2).1
        exact absurd (ht.symm.trans hpart) (by decide)
      | _ :: _ :: _ :: inner, hbefore =>
        exact .inl ⟨inner, (List.cons.inj (List.cons.inj (List.cons.inj hbefore).2).2).2⟩
    | takes _ _ htakes =>
      cases before with
      | nil =>
        obtain rfl := (List.cons.inj hbefore).1
        exact .inr ⟨hbefore, access_of_takes_number ht htakes⟩
      | cons v inner => exact .inl ⟨inner, (List.cons.inj hbefore).2⟩
    | passes => exact .inl ⟨before, hbefore⟩

/-- Steps that take no token are what led to the last part. -/
theorem leads_head_induction {P : List Due → Prop} (h : Leads cut (k, tokens) (k', tokens))
    (hk' : P k') (hpasses : ∀ {k more}, (∀ t ∈ tokens.head?, (ruleOf k).takes t = none) →
      (ruleOf k).passes = some more → P (more ++ k.tail) → P k) : P k := by
  suffices hall : ∀ a, Leads cut a (k', tokens) → a.2 = tokens → P a.1 from hall _ h rfl
  intro a ha
  induction ha using Relation.ReflTransGen.head_induction_on with
  | refl => exact fun _ => hk'
  | @head a c hstep hleads ih =>
    intro ha
    have hc : c.2 = tokens := by
      refine ((suffix_of_leads hleads).eq_of_length_le ?_).symm
      rw [← ha]
      exact (suffix_of_step hstep).length_le
    obtain ⟨hnone, more, hmore, hnext⟩ := exists_pass hstep (hc.trans ha.symm)
    rw [ha] at hnone
    have hlater := ih hc
    rw [hnext] at hlater
    exact hpasses hnone hmore hlater

/-- Whether every token that is taken is a punctuation mark. -/
def OnlyMarks (k : List Due) : Prop :=
  ∀ t more, (ruleOf k).takes t = some more → t.kind = .mark

/-- What is replaced by a part that takes a property access, or marks alone, takes marks alone. -/
theorem onlyMarks_of_passes (h : (ruleOf k).passes = some more)
    (hmore : (ruleOf (more ++ k.tail)).access = true ∨ OnlyMarks (more ++ k.tail)) :
    OnlyMarks k := by
  cases k with
  | nil => cases h
  | cons due k =>
    have hmark : ∀ {mark : Char} {t : Token} {x more : List Due},
        (if t.isMark mark then some x else none) = some more → t.kind = .mark := by
      intro mark t x more hif
      split_ifs at hif with hmark
      exact Token.kind_of_isMark hmark
    -- the other parts that are replaced are replaced by one that takes a word
    have hword : ∀ (chars : List Char) {x : List Due},
        (ruleOf (more ++ k)).access = false →
        (ruleOf (more ++ k)).takes ⟨.word, chars, 0, 0⟩ = some x → OnlyMarks (due :: k) := by
      intro chars x haccess htakes
      rcases hmore with htrue | honly
      · exact absurd (haccess.symm.trans htrue) (by decide)
      · exact absurd (honly _ _ htakes) TokenKind.noConfusion
    cases due with
    | list => exact fun _ _ => hmark
    | more => exact fun _ _ => hmark
    | parenthesized => exact fun _ _ => hmark
    | typeArgument => exact fun _ _ => hmark
    | argumentValue => exact fun _ _ => hmark
    | performer =>
      cases h
      exact hword "AI".toList rfl rfl
    | entityAttributes =>
      cases h
      exact hword ['x'] rfl rfl
    | body =>
      cases h
      exact hword ['x'] rfl rfl
    | afterThen =>
      cases h
      exact hword "if".toList rfl rfl
    | _ => cases h

/-- Where a number led to a part that takes a property access, so do other tokens, or the first of
them is a punctuation mark that is taken before. -/
theorem leads_or_takes_mark (h : Leads cut (k, tokens) (k', tokens))
    (haccess : (ruleOf k').access = true) (ahead : List Token) :
    Leads false (k, ahead) (k', ahead) ∨ ∃ u ∈ ahead.head?, u.kind = .mark ∧
      ∃ k'' more, Leads false (k, ahead) (k'', ahead) ∧ (ruleOf k'').takes u = some more := by
  refine (leads_head_induction (P := fun k => ((ruleOf k).access = true ∨ OnlyMarks k) ∧
    (Leads false (k, ahead) (k', ahead) ∨ ∃ u ∈ ahead.head?, u.kind = .mark ∧
      ∃ k'' more, Leads false (k, ahead) (k'', ahead) ∧ (ruleOf k'').takes u = some more)) h
    ⟨.inl haccess, .inl .refl⟩ ?_).2
  intro k _ _ hpasses ⟨hmarks, hleads⟩
  have honly := onlyMarks_of_passes hpasses hmarks
  refine ⟨.inr honly, ?_⟩
  by_cases hnone : ∀ u ∈ ahead.head?, (ruleOf k).takes u = none
  · rcases hleads with hleads | ⟨u, hu, hkind, k'', more, hleads, htakes⟩
    · exact .inl (.head (.passes hnone hpasses) hleads)
    · exact .inr ⟨u, hu, hkind, k'', more, .head (.passes hnone hpasses) hleads, htakes⟩
  · obtain ⟨u, hu, htakes⟩ : ∃ u ∈ ahead.head?, (ruleOf k).takes u ≠ none := by
      simpa only [not_forall, exists_prop] using hnone
    obtain ⟨more, hmore⟩ := Option.ne_none_iff_exists'.mp htakes
    exact .inr ⟨u, hu, honly _ _ hmore, k, more, .refl, hmore⟩

end RoleFlow
