import RoleFlow.Proofs.Tiles

/-!
# Derivations do not depend on places

The grammar looks at the kind and the characters of a token. Where a token stands matters in one
phrase alone, a property access. So tokens at other places derive the same, if every property
access remains one.

Results:
* `transfers_isDefinition`, `transfers_many`: what tokens derive, they derive at other places.
* `retold_moved`: tokens that are moved together.
-/

namespace RoleFlow

/-- The token at another place. -/
def Token.placed (t : Token) (start stop : Nat) : Token := ⟨t.kind, t.chars, start, stop⟩

/-- Whether the tokens begin with a property access. -/
def beginsAccess : List Token → Bool
  | owner :: point :: part :: _ => Scan.isPropertyAccess owner point part
  | _ => false

theorem exists_of_beginsAccess {tokens : List Token} (h : beginsAccess tokens = true) :
    ∃ owner point part rest, tokens = owner :: point :: part :: rest ∧
      Scan.isPropertyAccess owner point part = true := by
  match tokens, h with
  | owner :: point :: part :: rest, h => exact ⟨owner, point, part, rest, rfl, h⟩

/-- The same tokens at other places, where every property access remains one. -/
inductive Retold : List Token → List Token → Prop
  | nil : Retold [] []
  | cons {t : Token} {ts us : List Token} {start stop : Nat}
    (haccess : beginsAccess (t :: ts) = true → beginsAccess (t.placed start stop :: us) = true)
    (tail : Retold ts us) : Retold (t :: ts) (t.placed start stop :: us)

namespace Retold

variable {ts us vs : List Token}

theorem length_eq (h : Retold ts us) : us.length = ts.length := by
  induction h with
  | nil => rfl
  | cons _ _ ih => rw [List.length_cons, List.length_cons, ih]

/-- Whether an access begins the tokens is settled by the first three of them. -/
theorem beginsAccess_append {t : Token} (h : beginsAccess (t :: ts) = true) (us : List Token) :
    beginsAccess (t :: ts ++ us) = true := by
  match ts, h with
  | _ :: _ :: _, h => exact h

theorem beginsAccess_of_append {t : Token} (h : beginsAccess (t :: ts ++ us) = true)
    (hlength : 2 ≤ ts.length) : beginsAccess (t :: ts) = true := by
  match ts, hlength with
  | _ :: _ :: _, _ => exact h

theorem exists_append (h : Retold (ts ++ us) vs) :
    ∃ first second, vs = first ++ second ∧ Retold ts first ∧ Retold us second := by
  induction ts generalizing vs with
  | nil => exact ⟨[], vs, rfl, .nil, h⟩
  | cons t ts ih =>
    rw [List.cons_append] at h
    cases h with
    | cons haccess tail =>
      obtain ⟨first, second, rfl, hfirst, hsecond⟩ := ih tail
      refine ⟨_ :: first, second, rfl, .cons (fun hbegins => ?_) hfirst, hsecond⟩
      have hlength : 2 ≤ first.length := by
        rw [hfirst.length_eq]
        match ts, hbegins with
        | _ :: _ :: _, _ => exact Nat.le_add_left 2 _
      exact beginsAccess_of_append (haccess (beginsAccess_append hbegins us)) hlength

theorem exists_cons {t : Token} (h : Retold (t :: ts) us) :
    ∃ start stop vs, us = t.placed start stop :: vs ∧ Retold ts vs := by
  cases h with
  | cons haccess tail => exact ⟨_, _, _, rfl, tail⟩

theorem exists_singleton {t : Token} (h : Retold [t] us) :
    ∃ start stop, us = [t.placed start stop] := by
  obtain ⟨start, stop, vs, rfl, hvs⟩ := h.exists_cons
  cases hvs
  exact ⟨start, stop, rfl⟩

theorem exists_concat {t : Token} (h : Retold (ts ++ [t]) us) :
    ∃ start stop vs, us = vs ++ [t.placed start stop] ∧ Retold ts vs := by
  obtain ⟨vs, last, rfl, hvs, hlast⟩ := h.exists_append
  obtain ⟨start, stop, rfl⟩ := hlast.exists_singleton
  exact ⟨start, stop, vs, rfl, hvs⟩

end Retold

namespace Grammar

/-! ## Lists of phrases -/

/-- What tokens derive, they derive at other places. -/
def Transfers {α : Type} (phrase : List Token → α → Prop) : Prop :=
  ∀ ⦃ts us : List Token⦄ ⦃x : α⦄, phrase ts x → Retold ts us → phrase us x

section Lists

variable {α : Type} {phrase : List Token → α → Prop} {opening closing : Char} {keyword : String}

theorem transfers_many (h : Transfers phrase) : Transfers (Many phrase) := by
  intro ts us xs hts hus
  induction hts generalizing us with
  | nil =>
    cases hus
    exact .nil
  | cons head tail ih =>
    obtain ⟨first, second, rfl, hfirst, hsecond⟩ := hus.exists_append
    exact .cons (h head hfirst) (ih hsecond)

theorem transfers_separated (h : Transfers phrase) : Transfers (Separated phrase) := by
  intro ts us xs hts hus
  induction hts generalizing us with
  | last head => exact .last (h head hus)
  | more head hcomma tail ih =>
    obtain ⟨first, second, rfl, hfirst, hsecond⟩ := hus.exists_append
    obtain ⟨_, _, rest, rfl, hrest⟩ := hsecond.exists_cons
    exact .more (h head hfirst) hcomma (ih hrest)

theorem transfers_enclosed (h : Transfers phrase) :
    Transfers (Enclosed phrase opening closing) := by
  intro ts us xs hts hus
  cases hts with
  | empty hfirst hlast =>
    obtain ⟨_, _, rest, rfl, hrest⟩ := hus.exists_cons
    obtain ⟨_, _, rfl⟩ := hrest.exists_singleton
    exact .empty hfirst hlast
  | full hfirst hlast inner =>
    obtain ⟨_, _, front, rfl, hfront⟩ := hus.exists_concat
    obtain ⟨_, _, rest, rfl, hrest⟩ := hfront.exists_cons
    exact .full hfirst hlast (transfers_separated h inner hrest)

theorem transfers_parenthesized (h : Transfers phrase) : Transfers (Parenthesized phrase) := by
  intro ts us xs hts hus
  cases hts with
  | absent =>
    cases hus
    exact .absent
  | present hlist => exact .present (transfers_enclosed h hlist hus)

theorem transfers_isAttribute (h : Transfers phrase) : Transfers (IsAttribute keyword phrase) := by
  intro ts us x hts hus
  cases hts with
  | mk hword hcolon hvalue hsemicolon =>
    obtain ⟨_, _, front, rfl, hfront⟩ := hus.exists_concat
    obtain ⟨_, _, rest, rfl, hrest⟩ := hfront.exists_cons
    obtain ⟨_, _, value, rfl, hvalue'⟩ := hrest.exists_cons
    exact .mk hword hcolon (h hvalue hvalue') hsemicolon

end Lists

/-! ## Names, texts, types and actors -/

theorem transfers_isName : Transfers IsName := by
  intro ts us x hts hus
  cases hts with
  | @word t h =>
    obtain ⟨start, stop, rfl⟩ := hus.exists_singleton
    exact @IsName.word (t.placed start stop) h

theorem transfers_isText : Transfers IsText := by
  intro ts us x hts hus
  cases hts with
  | @text t h =>
    obtain ⟨start, stop, rfl⟩ := hus.exists_singleton
    exact @IsText.text (t.placed start stop) h

theorem transfers_isType : Transfers IsType := by
  intro ts us x hts hus
  induction hts generalizing us with
  | @plain t h =>
    obtain ⟨start, stop, rfl⟩ := hus.exists_singleton
    exact @IsType.plain (t.placed start stop) h
  | @generic t less greater ts argument h hless inner hgreater ih =>
    obtain ⟨_, _, front, rfl, hfront⟩ := hus.exists_concat
    obtain ⟨start, stop, rest, rfl, hrest⟩ := hfront.exists_cons
    obtain ⟨_, _, inside, rfl, hinside⟩ := hrest.exists_cons
    exact @IsType.generic (t.placed start stop) _ _ _ _ h hless (ih hinside) hgreater

theorem transfers_isTypedName : Transfers IsTypedName := by
  intro ts us x hts hus
  cases hts with
  | @mk name colon ts type hname hcolon htype =>
    obtain ⟨start, stop, rest, rfl, hrest⟩ := hus.exists_cons
    obtain ⟨_, _, value, rfl, hvalue⟩ := hrest.exists_cons
    exact @IsTypedName.mk (name.placed start stop) _ _ _ hname hcolon
      (transfers_isType htype hvalue)

theorem transfers_isKind : Transfers IsKind := by
  intro ts us x hts hus
  cases hts with
  | ai h =>
    obtain ⟨_, _, rfl⟩ := hus.exists_singleton
    exact .ai h
  | al h =>
    obtain ⟨_, _, rfl⟩ := hus.exists_singleton
    exact .al h
  | human h =>
    obtain ⟨_, _, rfl⟩ := hus.exists_singleton
    exact .human h

theorem transfers_isActor : Transfers IsActor := by
  intro ts us x hts hus
  cases hts with
  | @role keyword name hkeyword hname =>
    obtain ⟨_, _, rest, rfl, hrest⟩ := hus.exists_cons
    obtain ⟨start, stop, rfl⟩ := hrest.exists_singleton
    exact @IsActor.role _ (name.placed start stop) hkeyword hname
  | kind h => exact .kind (transfers_isKind h hus)

/-! ## Actions, entities and roles -/

theorem transfers_isActionAttribute : Transfers IsActionAttribute := by
  intro ts us x hts hus
  cases hts with
  | description h => exact .description (transfers_isAttribute transfers_isText h hus)
  | inputs h => exact .inputs (transfers_isAttribute (transfers_enclosed transfers_isName) h hus)
  | outputs h => exact .outputs (transfers_isAttribute (transfers_enclosed transfers_isName) h hus)

theorem transfers_isRoleAttribute : Transfers (IsRoleAttribute IsKind) := by
  intro ts us x hts hus
  cases hts with
  | description h => exact .description (transfers_isAttribute transfers_isText h hus)
  | type h => exact .type (transfers_isAttribute transfers_isKind h hus)

theorem transfers_isEntityAttribute : Transfers IsEntityAttribute := by
  intro ts us x hts hus
  cases hts with
  | mk h hsemicolon =>
    obtain ⟨_, _, front, rfl, hfront⟩ := hus.exists_concat
    exact .mk (transfers_isTypedName h hfront) hsemicolon

theorem transfers_isAction : Transfers IsAction := by
  intro ts us x hts hus
  cases hts with
  | @mk _ name _ _ _ actor parameters attributes kind roleName params attrs hkeyword hname hby
    hactor hparams hopening hattrs hclosing =>
    obtain ⟨_, _, front, rfl, hfront⟩ := hus.exists_concat
    obtain ⟨head, block, rfl, hhead, hblock⟩ := hfront.exists_append
    obtain ⟨_, _, inside, rfl, hinside⟩ := hblock.exists_cons
    obtain ⟨head, params', rfl, hhead, hparams'⟩ := hhead.exists_append
    obtain ⟨_, _, named, rfl, hnamed⟩ := hhead.exists_cons
    obtain ⟨start, stop, performed, rfl, hperformed⟩ := hnamed.exists_cons
    obtain ⟨_, _, actor', rfl, hactor'⟩ := hperformed.exists_cons
    exact @IsAction.mk _ (name.placed start stop) _ _ _ _ _ _ _ _ _ _ hkeyword hname hby
      (transfers_isActor hactor hactor')
      (transfers_parenthesized transfers_isTypedName hparams hparams') hopening
      (transfers_many transfers_isActionAttribute hattrs hinside) hclosing

theorem transfers_isEntity : Transfers IsEntity := by
  intro ts us x hts hus
  cases hts with
  | @mk _ name _ _ _ _ hkeyword hname hopening hattrs hclosing =>
    obtain ⟨_, _, front, rfl, hfront⟩ := hus.exists_concat
    obtain ⟨_, _, named, rfl, hnamed⟩ := hfront.exists_cons
    obtain ⟨start, stop, block, rfl, hblock⟩ := hnamed.exists_cons
    obtain ⟨_, _, inside, rfl, hinside⟩ := hblock.exists_cons
    exact @IsEntity.mk _ (name.placed start stop) _ _ _ _ hkeyword hname hopening
      (transfers_many transfers_isEntityAttribute hattrs hinside) hclosing

theorem transfers_isRole : Transfers (IsRole IsKind) := by
  intro ts us x hts hus
  cases hts with
  | @mk _ name _ _ _ _ hkeyword hname hopening hattrs hclosing =>
    obtain ⟨_, _, front, rfl, hfront⟩ := hus.exists_concat
    obtain ⟨_, _, named, rfl, hnamed⟩ := hfront.exists_cons
    obtain ⟨start, stop, block, rfl, hblock⟩ := hnamed.exists_cons
    obtain ⟨_, _, inside, rfl, hinside⟩ := hblock.exists_cons
    exact @IsRole.mk _ _ (name.placed start stop) _ _ _ _ hkeyword hname hopening
      (transfers_many transfers_isRoleAttribute hattrs hinside) hclosing

/-! ## Workflows -/

/-- A property access is the one phrase that depends on places. -/
theorem transfers_isExpression : Transfers IsExpression := by
  intro ts us x hts hus
  cases hts with
  | @property owner point part howner hpoint hpart hleft hright =>
    have hbegins : beginsAccess [owner, point, part] = true :=
      Scan.isPropertyAccess_iff.mpr ⟨howner, hpoint, hpart, hleft, hright⟩
    cases hus with
    | @cons _ _ _ start stop haccess tail =>
      obtain ⟨_, _, rest, rfl, hrest⟩ := tail.exists_cons
      obtain ⟨start', stop', rfl⟩ := hrest.exists_singleton
      obtain ⟨-, -, -, hleft', hright'⟩ := Scan.isPropertyAccess_iff.mp (haccess hbegins)
      exact @IsExpression.property (owner.placed start stop) _ (part.placed start' stop') howner
        hpoint hpart hleft' hright'
  | @text t h =>
    obtain ⟨start, stop, rfl⟩ := hus.exists_singleton
    exact @IsExpression.text (t.placed start stop) h
  | @number t h =>
    obtain ⟨start, stop, rfl⟩ := hus.exists_singleton
    exact @IsExpression.number (t.placed start stop) h
  | true h =>
    obtain ⟨_, _, rfl⟩ := hus.exists_singleton
    exact .true h
  | false h =>
    obtain ⟨_, _, rfl⟩ := hus.exists_singleton
    exact .false h
  | @identifier t h htrue hfalse =>
    obtain ⟨start, stop, rfl⟩ := hus.exists_singleton
    exact @IsExpression.identifier (t.placed start stop) h htrue hfalse

theorem transfers_isArgument : Transfers IsArgument := by
  intro ts us x hts hus
  cases hts with
  | @named name colon ts value hname hcolon hvalue =>
    obtain ⟨start, stop, rest, rfl, hrest⟩ := hus.exists_cons
    obtain ⟨_, _, value', rfl, hvalue'⟩ := hrest.exists_cons
    exact @IsArgument.named (name.placed start stop) _ _ _ hname hcolon
      (transfers_isExpression hvalue hvalue')
  | positional hvalue => exact .positional (transfers_isExpression hvalue hus)

theorem transfers_isCondition : Transfers IsCondition := by
  intro ts us x hts hus
  cases hts with
  | mk hopening hvalue hclosing =>
    obtain ⟨_, _, front, rfl, hfront⟩ := hus.exists_concat
    obtain ⟨_, _, rest, rfl, hrest⟩ := hfront.exists_cons
    exact .mk hopening (transfers_isExpression hvalue hrest) hclosing

theorem not_beginsWithElse_of_retold {ts us : List Token} (h : ¬ BeginsWithElse ts)
    (hus : Retold ts us) : ¬ BeginsWithElse us := by
  rintro ⟨t, ht, helse⟩
  cases hus with
  | nil => cases ht
  | cons _ _ =>
    cases ht
    exact h ⟨_, rfl, helse⟩

theorem transfers_isBody : Transfers IsBody := by
  intro ts us xs hts hus
  induction hts generalizing us with
  | nil =>
    cases hus
    exact .nil
  | @call name semicolon arguments rest args elements hname hif hargs hsemicolon hrest ih =>
    obtain ⟨front, more, rfl, hfront, hmore⟩ := hus.exists_append
    obtain ⟨start, stop, args', rfl, hargs'⟩ := hfront.exists_cons
    obtain ⟨_, _, rest', rfl, hrest'⟩ := hmore.exists_cons
    exact @IsBody.call (name.placed start stop) _ _ _ _ _ hname hif
      (transfers_parenthesized transfers_isArgument hargs hargs') hsemicolon (ih hrest')
  | ifThen hkeyword hcondition hopening hfirst hclosing hrest helse ihFirst ihRest =>
    obtain ⟨front, more, rfl, hfront, hmore⟩ := hus.exists_append
    obtain ⟨_, _, rest', rfl, hrest'⟩ := hmore.exists_cons
    obtain ⟨head, block, rfl, hhead, hblock⟩ := hfront.exists_append
    obtain ⟨_, _, condition', rfl, hcondition'⟩ := hhead.exists_cons
    obtain ⟨_, _, first', rfl, hfirst'⟩ := hblock.exists_cons
    exact .ifThen hkeyword (transfers_isCondition hcondition hcondition') hopening (ihFirst hfirst')
      hclosing (ihRest hrest') (not_beginsWithElse_of_retold helse hrest')
  | ifThenElse hkeyword hcondition hopening hfirst hclosing helse helseOpening hsecond helseClosing
    hrest ihFirst ihSecond ihRest =>
    obtain ⟨front, more, rfl, hfront, hmore⟩ := hus.exists_append
    obtain ⟨_, _, rest', rfl, hrest'⟩ := hmore.exists_cons
    obtain ⟨decided, branch, rfl, hdecided, hbranch⟩ := hfront.exists_append
    obtain ⟨_, _, other, rfl, hother⟩ := hbranch.exists_cons
    obtain ⟨_, _, otherBlock, rfl, hotherBlock⟩ := hother.exists_cons
    obtain ⟨_, _, second', rfl, hsecond'⟩ := hotherBlock.exists_cons
    obtain ⟨head, block, rfl, hhead, hblock⟩ := hdecided.exists_append
    obtain ⟨_, _, condition', rfl, hcondition'⟩ := hhead.exists_cons
    obtain ⟨_, _, first', rfl, hfirst'⟩ := hblock.exists_cons
    exact .ifThenElse hkeyword (transfers_isCondition hcondition hcondition') hopening
      (ihFirst hfirst') hclosing helse helseOpening (ihSecond hsecond') helseClosing
      (ihRest hrest')

theorem transfers_isWorkflow : Transfers IsWorkflow := by
  intro ts us x hts hus
  cases hts with
  | @mk _ name _ _ _ _ hkeyword hname hopening hbody hclosing =>
    obtain ⟨_, _, front, rfl, hfront⟩ := hus.exists_concat
    obtain ⟨_, _, named, rfl, hnamed⟩ := hfront.exists_cons
    obtain ⟨start, stop, block, rfl, hblock⟩ := hnamed.exists_cons
    obtain ⟨_, _, inside, rfl, hinside⟩ := hblock.exists_cons
    exact @IsWorkflow.mk _ (name.placed start stop) _ _ _ _ hkeyword hname hopening
      (transfers_isBody hbody hinside) hclosing

/-! ## Documents -/

theorem transfers_isDefinition : Transfers (IsDefinition IsKind) := by
  intro ts us x hts hus
  cases hts with
  | action h => exact .action (transfers_isAction h hus)
  | entity h => exact .entity (transfers_isEntity h hus)
  | role h => exact .role (transfers_isRole h hus)
  | workflow h => exact .workflow (transfers_isWorkflow h hus)

end Grammar

/-! ## Tokens that are moved together -/

theorem beginsAccess_map_moved (distance : Nat) (ts : List Token) :
    beginsAccess (ts.map (Token.moved distance)) = beginsAccess ts := by
  match ts with
  | [] => rfl
  | [_] => rfl
  | [_, _] => rfl
  | owner :: point :: part :: rest =>
    simp only [List.map_cons, beginsAccess, Scan.isPropertyAccess, Token.moved, Token.isMark]
    congr 1
    · congr 1
      exact Bool.eq_iff_iff.mpr (by simp)
    · exact Bool.eq_iff_iff.mpr (by simp)

/-- Tokens that are moved together, by one distance or another, derive the same. -/
theorem retold_moved (distance other : Nat) (ts : List Token) :
    Retold (ts.map (Token.moved distance)) (ts.map (Token.moved other)) := by
  induction ts with
  | nil => exact .nil
  | cons t ts ih =>
    refine .cons (fun h => ?_) ih
    have hbegins := beginsAccess_map_moved distance (t :: ts)
    have hother := beginsAccess_map_moved other (t :: ts)
    exact hother.trans (hbegins.symm.trans h)

end RoleFlow
