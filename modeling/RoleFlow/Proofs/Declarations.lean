import RoleFlow.Proofs.Readers

/-!
# Actions, entities and roles are read as the grammar says

Of several attributes of one name the last one counts: the readers overwrite what they have, which
is a fold of `give` over the attributes.

Results:
* `action_sound`, `action_complete`
* `entity_sound`, `entity_complete`
* `role_sound`, `role_complete`
-/

namespace RoleFlow

/-! ## Attributes given one after the other -/

namespace Grammar

/-- The action with what the attribute gives. -/
def ActionAttribute.give (a : ActionDef) : ActionAttribute → ActionDef
  | .description text => { a with description := text }
  | .inputs names => { a with inputs := names }
  | .outputs names => { a with outputs := names }

/-- The role with what the attribute gives. -/
def RoleAttribute.give (r : RoleDef) : RoleAttribute → RoleDef
  | .description text => { r with description := text }
  | .type kind => { r with kind := some kind }

theorem lastGiven?_cons {α β : Type} (given : α → Option β) (x : α) (xs : List α) :
    lastGiven? given (x :: xs) = (lastGiven? given xs).or (given x) := by
  unfold lastGiven?
  cases h : given x with
  | none => rw [List.filterMap_cons_none h, Option.or_none]
  | some y => rw [List.filterMap_cons_some h, List.getLast?_cons, Option.or_some]

theorem foldl_give_action (attrs : List ActionAttribute) (a : ActionDef) :
    attrs.foldl ActionAttribute.give a =
      ⟨a.name, a.actor, a.roleName, a.parameters,
        (lastGiven? ActionAttribute.description? attrs).getD a.description,
        (lastGiven? ActionAttribute.inputs? attrs).getD a.inputs,
        (lastGiven? ActionAttribute.outputs? attrs).getD a.outputs⟩ := by
  induction attrs generalizing a with
  | nil => rfl
  | cons x xs ih =>
    rw [List.foldl_cons, ih]
    cases x <;> simp [ActionAttribute.give, lastGiven?_cons, ActionAttribute.description?,
      ActionAttribute.inputs?, ActionAttribute.outputs?]

theorem foldl_give_role (attrs : List RoleAttribute) (r : RoleDef) :
    attrs.foldl RoleAttribute.give r =
      ⟨r.name, (lastGiven? RoleAttribute.description? attrs).getD r.description,
        (lastGiven? RoleAttribute.kind? attrs).or r.kind⟩ := by
  induction attrs generalizing r with
  | nil => rfl
  | cons x xs ih =>
    rw [List.foldl_cons, ih]
    cases x <;> simp [RoleAttribute.give, lastGiven?_cons, RoleAttribute.description?,
      RoleAttribute.kind?]

end Grammar

namespace Scan

open Grammar

variable (s : Scan)

/-! ## Loops over attributes -/

section Turns

variable {σ γ : Type} {read : σ → (tokens : List Token) → Result σ tokens}
  {phrase : List Token → γ → Prop} {give : σ → γ → σ} {a x : σ} {tokens rest : List Token}

/-- One turn of a loop over attributes: the loop ends at its brace, or it reads an attribute and
goes on with what the attribute gives. -/
inductive Turn (read : σ → (tokens : List Token) → Result σ tokens)
    (phrase : List Token → γ → Prop) (give : σ → γ → σ) (a x : σ) (tokens rest : List Token) :
    Prop
  | last {t : Token} (hclosing : t.isMark '\x7d' = true) (htokens : tokens = t :: rest)
    (hx : x = a) : Turn read phrase give a x tokens rest
  | more {taken after : List Token} {given : γ} (hgiven : phrase taken given)
    (htokens : tokens = taken ++ after) (hshorter : after.length < tokens.length)
    (hmore : Takes (read (give a given) after) x rest) : Turn read phrase give a x tokens rest

/-- A loop whose turns are such reads phrases up to its brace, and folds what they give. -/
theorem many_of_turns
    (hturn : ∀ {a tokens}, Takes (read a tokens) x rest → Turn read phrase give a x tokens rest)
    (h : Takes (read a tokens) x rest) :
    ∃ taken attrs last, Many phrase taken attrs ∧ last.isMark '\x7d' = true ∧
      tokens = taken ++ last :: rest ∧ x = attrs.foldl give a := by
  induction hlen : tokens.length using Nat.strongRecOn generalizing a tokens with
  | ind n ih =>
    subst hlen
    cases hturn h with
    | @last t hclosing htokens hx => exact ⟨[], [], t, .nil, hclosing, htokens, hx⟩
    | @more taken after given hgiven htokens hshorter hmore =>
      obtain ⟨taken', attrs, last, hattrs, hlast, rfl, rfl⟩ := ih _ hshorter hmore rfl
      exact ⟨taken ++ taken', given :: attrs, last, .cons hgiven hattrs, hlast,
        htokens.trans (List.append_assoc ..).symm, rfl⟩

end Turns

/-! ## Actions, entities and roles -/

theorem actionAttributes_turn {a x : ActionDef} {tokens rest : List Token}
    (h : Takes (s.actionAttributes a tokens) x rest) :
    Turn s.actionAttributes IsActionAttribute ActionAttribute.give a x tokens rest := by
  cases tokens with
  | nil =>
    rw [actionAttributes] at h
    exact absurd h not_takes_error
  | cons t ts =>
    rw [actionAttributes] at h
    split at h
    · next hclosing =>
      obtain ⟨_, h⟩ := h
      cases h
      exact .last hclosing rfl rfl
    split at h
    · next hword =>
      obtain ⟨text, _, hshorter, htext, h⟩ := exists_of_takes_bind h
      obtain ⟨more, _, _, hmore, h⟩ := exists_of_takes_bind h
      obtain ⟨rfl, rfl⟩ := takes_pure_iff.mp h
      obtain ⟨taken, htokens, hattribute⟩ := s.attributeValue_sound s.quotedText_sound htext
      exact .more (.description (hattribute hword)) (congrArg (t :: ·) htokens)
        (Nat.lt_succ_of_lt hshorter) hmore
    split at h
    · next hword =>
      obtain ⟨names, _, hshorter, hnames, h⟩ := exists_of_takes_bind h
      obtain ⟨more, _, _, hmore, h⟩ := exists_of_takes_bind h
      obtain ⟨rfl, rfl⟩ := takes_pure_iff.mp h
      obtain ⟨taken, htokens, hattribute⟩ := s.attributeValue_sound s.names_sound hnames
      exact .more (.inputs (hattribute hword)) (congrArg (t :: ·) htokens)
        (Nat.lt_succ_of_lt hshorter) hmore
    split at h
    · next hword =>
      obtain ⟨names, _, hshorter, hnames, h⟩ := exists_of_takes_bind h
      obtain ⟨more, _, _, hmore, h⟩ := exists_of_takes_bind h
      obtain ⟨rfl, rfl⟩ := takes_pure_iff.mp h
      obtain ⟨taken, htokens, hattribute⟩ := s.attributeValue_sound s.names_sound hnames
      exact .more (.outputs (hattribute hword)) (congrArg (t :: ·) htokens)
        (Nat.lt_succ_of_lt hshorter) hmore
    · exact absurd h not_takes_error

theorem actionAttributes_sound {a x : ActionDef} {tokens rest : List Token}
    (h : Takes (s.actionAttributes a tokens) x rest) :
    ∃ taken attrs last, Many IsActionAttribute taken attrs ∧ last.isMark '\x7d' = true ∧
      tokens = taken ++ last :: rest ∧ x = attrs.foldl ActionAttribute.give a :=
  many_of_turns s.actionAttributes_turn h

theorem actionAttributes_complete {taken rest : List Token} {attrs : List ActionAttribute}
    {last : Token} (h : Many IsActionAttribute taken attrs) (hlast : last.isMark '\x7d')
    (a : ActionDef) :
    Takes (s.actionAttributes a (taken ++ last :: rest))
      (attrs.foldl ActionAttribute.give a) rest := by
  induction h generalizing a with
  | nil =>
    rw [List.nil_append, actionAttributes, if_pos hlast]
    exact ⟨by simp, rfl⟩
  | @cons ts us x xs head tail ih =>
    rw [List.append_assoc]
    cases head with
    | description h =>
      obtain ⟨word, ts, rfl, hword, hread⟩ :=
        s.attributeValue_complete (complete_of_anything s.quotedText_complete _) h
      rw [List.cons_append, actionAttributes, if_neg (Token.not_isMark_of_isWord hword),
        if_pos hword]
      exact takes_bind (hread _) fun _ => takes_bind (ih _) fun _ => takes_pure
    | inputs h =>
      obtain ⟨word, ts, rfl, hword, hread⟩ :=
        s.attributeValue_complete (complete_of_anything s.names_complete _) h
      rw [List.cons_append, actionAttributes, if_neg (Token.not_isMark_of_isWord hword),
        if_neg (Token.not_isWord_of_isWord hword (by decide)), if_pos hword]
      exact takes_bind (hread _) fun _ => takes_bind (ih _) fun _ => takes_pure
    | outputs h =>
      obtain ⟨word, ts, rfl, hword, hread⟩ :=
        s.attributeValue_complete (complete_of_anything s.names_complete _) h
      rw [List.cons_append, actionAttributes, if_neg (Token.not_isMark_of_isWord hword),
        if_neg (Token.not_isWord_of_isWord hword (by decide)),
        if_neg (Token.not_isWord_of_isWord hword (by decide)), if_pos hword]
      exact takes_bind (hread _) fun _ => takes_bind (ih _) fun _ => takes_pure

theorem action_sound {tokens rest : List Token} {x : ActionDef}
    (h : Takes (s.action tokens) x rest) :
    ∃ taken, tokens = taken ++ rest ∧
      ∀ {keyword : Token}, keyword.isWord "action" → IsAction (keyword :: taken) x := by
  obtain ⟨name, _, _, hname, h⟩ := exists_of_takes_bind h
  obtain ⟨byWord, _, _, hword, h⟩ := exists_of_takes_bind h
  obtain ⟨⟨kind, roleName⟩, _, _, hperformer, h⟩ := exists_of_takes_bind h
  obtain ⟨params, _, _, hlist, h⟩ := exists_of_passes_bind h
  obtain ⟨brace, _, _, hbrace, h⟩ := exists_of_takes_bind h
  obtain ⟨found, _, _, hfound, h⟩ := exists_of_takes_bind h
  simp only [takes_pure_iff, Reading.ofShorter] at h
  obtain ⟨rfl, rfl⟩ := h
  obtain ⟨t, hkind, rfl, rfl⟩ := s.of_name hname
  obtain ⟨hby, rfl⟩ := s.of_word hword
  obtain ⟨actor, hactor, rfl⟩ := s.performer_sound hperformer
  obtain ⟨parameters, hparams, rfl⟩ := s.parenthesized_sound s.typedName_sound hlist
  obtain ⟨hopening, rfl⟩ := s.of_mark hbrace
  obtain ⟨attributes, attrs, last, hattrs, hclosing, rfl, rfl⟩ := s.actionAttributes_sound hfound
  refine ⟨t :: byWord :: actor ++ parameters ++ brace :: attributes ++ [last], by simp,
    fun hkeyword => ?_⟩
  rw [foldl_give_action]
  exact .mk hkeyword hkind hby hactor hparams hopening hattrs hclosing

theorem action_complete {tokens : List Token} {x : ActionDef} (h : IsAction tokens x) :
    ∃ keyword taken, tokens = keyword :: taken ∧ keyword.isWord "action" ∧
      ∀ rest, Takes (s.action (taken ++ rest)) x rest := by
  cases h with
  | @mk keyword name byWord opening closing actor parameters attributes kind roleName params attrs
    hkeyword hname hby hactor hparams hopening hattrs hclosing =>
    refine ⟨keyword, name :: byWord :: actor ++ parameters ++ opening :: attributes ++ [closing],
      rfl, hkeyword, fun rest => ?_⟩
    rw [show name :: byWord :: actor ++ parameters ++ opening :: attributes ++ [closing] ++ rest =
      name :: byWord :: (actor ++ (parameters ++ opening :: (attributes ++ closing :: rest)))
      by simp]
    refine takes_bind (s.name_cons hname) fun _ => takes_bind (s.word_cons hby) fun _ => ?_
    refine takes_bind (s.performer_complete hactor trivial) fun _ => ?_
    refine passes_bind (s.parenthesized_complete s.typedName_complete typedName_plain hparams
      (ends_of_isMark hopening (by decide))) fun _ => ?_
    refine takes_bind (s.mark_cons hopening) fun _ => ?_
    refine takes_bind (s.actionAttributes_complete hattrs hclosing _) fun _ => ?_
    rw [takes_pure_iff]
    exact ⟨foldl_give_action .., rfl⟩

theorem entityAttributes_sound {tokens rest : List Token} {xs : List TypedName}
    (h : Takes (s.entityAttributes tokens) xs rest) :
    ∃ taken last, Many IsEntityAttribute taken xs ∧ last.isMark '\x7d' = true ∧
      tokens = taken ++ last :: rest := by
  induction hlen : tokens.length using Nat.strongRecOn generalizing tokens xs rest with
  | ind n ih =>
    subst hlen
    cases tokens with
    | nil =>
      rw [entityAttributes] at h
      exact absurd h not_takes_error
    | cons t ts =>
      rw [entityAttributes] at h
      split at h
      · next hclosing =>
        obtain ⟨_, h⟩ := h
        cases h
        exact ⟨[], t, .nil, hclosing, rfl⟩
      · obtain ⟨x, _, hshorter, hx, h⟩ := exists_of_takes_bind h
        obtain ⟨semicolon, after, hshorter', hsemicolon, h⟩ := exists_of_takes_bind h
        obtain ⟨more, _, _, hmore, h⟩ := exists_of_takes_bind h
        simp only [takes_pure_iff] at h
        obtain ⟨rfl, rfl⟩ := h
        obtain ⟨taken, hphrase, htokens⟩ := s.typedName_sound hx
        obtain ⟨hend, rfl⟩ := s.of_mark hsemicolon
        obtain ⟨taken', last, htail, hlast, rfl⟩ := ih after.length (by
          rw [List.length_cons] at hshorter; omega) hmore rfl
        refine ⟨(taken ++ [semicolon]) ++ taken', last, .cons (.mk hphrase hend) htail, hlast, ?_⟩
        rw [htokens, List.append_assoc, List.append_assoc, List.singleton_append]

theorem entityAttributes_complete {taken rest : List Token} {xs : List TypedName} {last : Token}
    (h : Many IsEntityAttribute taken xs) (hlast : last.isMark '\x7d') :
    Takes (s.entityAttributes (taken ++ last :: rest)) xs rest := by
  induction h with
  | nil =>
    rw [List.nil_append, entityAttributes, if_pos hlast]
    exact ⟨by simp, rfl⟩
  | @cons ts us x xs head tail ih =>
    cases head with
    | @mk ts semicolon _ h hsemicolon =>
      obtain ⟨t, ts', rfl, hkind⟩ := typedName_plain h
      have hname : Takes (s.typedName (t :: ts' ++ semicolon :: (us ++ last :: rest))) x
          (semicolon :: (us ++ last :: rest)) := s.typedName_complete h
        (ends_of_isMark hsemicolon (by decide))
      rw [show t :: ts' ++ [semicolon] ++ us ++ last :: rest =
        t :: (ts' ++ semicolon :: (us ++ last :: rest)) by simp]
      rw [entityAttributes, if_neg fun hmark => hkind (t.kind_of_isMark hmark)]
      refine takes_bind hname fun _ => takes_bind (s.mark_cons hsemicolon) fun _ => ?_
      exact takes_bind ih fun _ => takes_pure

theorem entity_sound {tokens rest : List Token} {x : EntityDef}
    (h : Takes (s.entity tokens) x rest) :
    ∃ taken, tokens = taken ++ rest ∧
      ∀ {keyword : Token}, keyword.isWord "entity" → IsEntity (keyword :: taken) x := by
  obtain ⟨name, _, _, hname, h⟩ := exists_of_takes_bind h
  obtain ⟨brace, _, _, hbrace, h⟩ := exists_of_takes_bind h
  obtain ⟨attrs, _, _, hfound, h⟩ := exists_of_takes_bind h
  simp only [takes_pure_iff] at h
  obtain ⟨rfl, rfl⟩ := h
  obtain ⟨t, hkind, rfl, rfl⟩ := s.of_name hname
  obtain ⟨hopening, rfl⟩ := s.of_mark hbrace
  obtain ⟨attributes, last, hattrs, hclosing, rfl⟩ := s.entityAttributes_sound hfound
  exact ⟨t :: brace :: attributes ++ [last], by simp,
    fun hkeyword => .mk hkeyword hkind hopening hattrs hclosing⟩

theorem entity_complete {tokens : List Token} {x : EntityDef} (h : IsEntity tokens x) :
    ∃ keyword taken, tokens = keyword :: taken ∧ keyword.isWord "entity" ∧
      ∀ rest, Takes (s.entity (taken ++ rest)) x rest := by
  cases h with
  | @mk keyword name opening closing attributes attrs hkeyword hname hopening hattrs hclosing =>
    refine ⟨keyword, name :: opening :: attributes ++ [closing], rfl, hkeyword, fun rest => ?_⟩
    rw [show name :: opening :: attributes ++ [closing] ++ rest =
      name :: opening :: (attributes ++ closing :: rest) by simp]
    refine takes_bind (s.name_cons hname) fun _ => takes_bind (s.mark_cons hopening) fun _ => ?_
    exact takes_bind (s.entityAttributes_complete hattrs hclosing) fun _ => takes_pure

theorem roleAttributes_turn {a x : RoleDef} {tokens rest : List Token}
    (h : Takes (s.roleAttributes a tokens) x rest) :
    Turn s.roleAttributes (IsRoleAttribute IsKind) RoleAttribute.give a x tokens rest := by
  cases tokens with
  | nil =>
    rw [roleAttributes] at h
    exact absurd h not_takes_error
  | cons t ts =>
    rw [roleAttributes] at h
    split at h
    · next hclosing =>
      obtain ⟨_, h⟩ := h
      cases h
      exact .last hclosing rfl rfl
    split at h
    · next hword =>
      obtain ⟨text, _, hshorter, htext, h⟩ := exists_of_takes_bind h
      obtain ⟨more, _, _, hmore, h⟩ := exists_of_takes_bind h
      obtain ⟨rfl, rfl⟩ := takes_pure_iff.mp h
      obtain ⟨taken, htokens, hattribute⟩ := s.attributeValue_sound s.quotedText_sound htext
      exact .more (.description (hattribute hword)) (congrArg (t :: ·) htokens)
        (Nat.lt_succ_of_lt hshorter) hmore
    split at h
    · next hword =>
      obtain ⟨kind, _, hshorter, hkind, h⟩ := exists_of_takes_bind h
      obtain ⟨more, _, _, hmore, h⟩ := exists_of_takes_bind h
      obtain ⟨rfl, rfl⟩ := takes_pure_iff.mp h
      obtain ⟨taken, htokens, hattribute⟩ := s.attributeValue_sound s.actorKind_sound hkind
      exact .more (.type (hattribute hword)) (congrArg (t :: ·) htokens)
        (Nat.lt_succ_of_lt hshorter) hmore
    · exact absurd h not_takes_error

theorem roleAttributes_sound {a x : RoleDef} {tokens rest : List Token}
    (h : Takes (s.roleAttributes a tokens) x rest) :
    ∃ taken attrs last, Many (IsRoleAttribute IsKind) taken attrs ∧ last.isMark '\x7d' = true ∧
      tokens = taken ++ last :: rest ∧ x = attrs.foldl RoleAttribute.give a :=
  many_of_turns s.roleAttributes_turn h

theorem roleAttributes_complete {taken rest : List Token} {attrs : List RoleAttribute}
    {last : Token} (h : Many (IsRoleAttribute IsKind) taken attrs) (hlast : last.isMark '\x7d')
    (a : RoleDef) :
    Takes (s.roleAttributes a (taken ++ last :: rest)) (attrs.foldl RoleAttribute.give a) rest := by
  induction h generalizing a with
  | nil =>
    rw [List.nil_append, roleAttributes, if_pos hlast]
    exact ⟨by simp, rfl⟩
  | @cons ts us x xs head tail ih =>
    rw [List.append_assoc]
    cases head with
    | description h =>
      obtain ⟨word, ts, rfl, hword, hread⟩ :=
        s.attributeValue_complete (complete_of_anything s.quotedText_complete _) h
      rw [List.cons_append, roleAttributes, if_neg (Token.not_isMark_of_isWord hword),
        if_pos hword]
      exact takes_bind (hread _) fun _ => takes_bind (ih _) fun _ => takes_pure
    | type h =>
      obtain ⟨word, ts, rfl, hword, hread⟩ :=
        s.attributeValue_complete (complete_of_anything s.actorKind_complete _) h
      rw [List.cons_append, roleAttributes, if_neg (Token.not_isMark_of_isWord hword),
        if_neg (Token.not_isWord_of_isWord hword (by decide)), if_pos hword]
      exact takes_bind (hread _) fun _ => takes_bind (ih _) fun _ => takes_pure

theorem role_sound {tokens rest : List Token} {x : RoleDef} (h : Takes (s.role tokens) x rest) :
    ∃ taken, tokens = taken ++ rest ∧
      ∀ {keyword : Token}, keyword.isWord "role" → IsRole IsKind (keyword :: taken) x := by
  obtain ⟨name, _, _, hname, h⟩ := exists_of_takes_bind h
  obtain ⟨brace, _, _, hbrace, h⟩ := exists_of_takes_bind h
  obtain ⟨found, _, _, hfound, h⟩ := exists_of_takes_bind h
  simp only [takes_pure_iff, Reading.ofShorter] at h
  obtain ⟨rfl, rfl⟩ := h
  obtain ⟨t, hkind, rfl, rfl⟩ := s.of_name hname
  obtain ⟨hopening, rfl⟩ := s.of_mark hbrace
  obtain ⟨attributes, attrs, last, hattrs, hclosing, rfl, rfl⟩ := s.roleAttributes_sound hfound
  refine ⟨t :: brace :: attributes ++ [last], by simp, fun hkeyword => ?_⟩
  rw [foldl_give_role, Option.or_none]
  exact .mk hkeyword hkind hopening hattrs hclosing

theorem role_complete {tokens : List Token} {x : RoleDef} (h : IsRole IsKind tokens x) :
    ∃ keyword taken, tokens = keyword :: taken ∧ keyword.isWord "role" ∧
      ∀ rest, Takes (s.role (taken ++ rest)) x rest := by
  cases h with
  | @mk keyword name opening closing attributes attrs hkeyword hname hopening hattrs hclosing =>
    refine ⟨keyword, name :: opening :: attributes ++ [closing], rfl, hkeyword, fun rest => ?_⟩
    rw [show name :: opening :: attributes ++ [closing] ++ rest =
      name :: opening :: (attributes ++ closing :: rest) by simp]
    refine takes_bind (s.name_cons hname) fun _ => takes_bind (s.mark_cons hopening) fun _ => ?_
    refine takes_bind (s.roleAttributes_complete hattrs hclosing _) fun _ => ?_
    rw [takes_pure_iff]
    refine ⟨?_, rfl⟩
    rw [foldl_give_role, Option.or_none]
    rfl

end Scan

end RoleFlow
