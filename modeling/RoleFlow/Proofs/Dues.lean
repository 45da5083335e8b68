import Mathlib.Logic.Relation
import RoleFlow.Proofs.Retelling

/-!
# What is due next

While a document is read, what is still missing of it is a stack: the next part on top, the parts
after it below. The rule of a part says which tokens it takes and what is due after each of them,
and what is due in its place where it takes none. Some parts also take a property access, three
tokens at once.

Where a lexical error cuts the tokens off, such a part is not begun with fewer than three tokens
left.

Results:
* `Step`: a token or a property access is taken, or a part is replaced by others.
* `takes_point`, `access_rule`: a point is taken in a property access alone, and what takes a
  property access takes every word.
* `Step.deterministic`, `suffix_of_leads`, `eq_of_leads_point`: what a run of steps does.
-/

namespace RoleFlow

/-! ## Parts and their rules -/

/-- The punctuation marks that no other token may stand for. -/
inductive Sign where
  | leftBrace
  | leftParen
  | rightParen
  | rightBracket
  | greater
  | colon
  | semicolon
  deriving DecidableEq

/-- The character of a punctuation mark. -/
def Sign.char : Sign → Char
  | .leftBrace => '\x7b'
  | .leftParen => '('
  | .rightParen => ')'
  | .rightBracket => ']'
  | .greater => '>'
  | .colon => ':'
  | .semicolon => ';'

/-- A part of a document. A `list` begins after the mark that opens it, and `more` of it after an
item. What may come after the word of a type is a `typeArgument`, after a word that begins an
argument an `argumentValue`, and after the first branch of a decision `afterThen`. -/
inductive Due where
  | mark (sign : Sign)
  | byWord
  | name
  | text
  | kind
  | performer
  | type
  | typeArgument
  | typedName
  | names
  | list (item : Due) (closing : Sign)
  | more (item : Due) (closing : Sign)
  | parenthesized (item : Due)
  | expression
  | argument
  | argumentValue
  | actionAttributes
  | entityAttributes
  | roleAttributes
  | body
  | afterThen
  deriving DecidableEq

/-- What is due after a token that is taken, what is due in place of a part where no token is taken,
and whether the part takes a property access. -/
structure Rule where
  access : Bool
  takes : Token → Option (List Due)
  passes : Option (List Due)

namespace Due

/-- A keyword of an attribute is taken, and its value is due up to the semicolon; then the
attributes go on. -/
def given (value attributes : Due) : List Due :=
  [.mark .colon, value, .mark .semicolon, attributes]

/-- The rule of a part. -/
def rule : Due → Rule
  | .mark sign => ⟨false, fun t => if t.isMark sign.char then some [] else none, none⟩
  | .byWord => ⟨false, fun t => if t.isWord "by" then some [] else none, none⟩
  | .name => ⟨false, fun t => if t.kind == .word then some [] else none, none⟩
  | .text => ⟨false, fun t => if t.kind == .text then some [] else none, none⟩
  | .kind => ⟨false, fun t => if (Scan.actorOfWord? t).isSome then some [] else none, none⟩
  | .performer => ⟨false, fun t => if t.isWord "role" then some [.name] else none, some [.kind]⟩
  | .type => ⟨false, fun t => if t.isTypeName then some [.typeArgument] else none, none⟩
  | .typeArgument =>
    ⟨false, fun t => if t.isMark '<' then some [.type, .mark .greater] else none, some []⟩
  | .typedName =>
    ⟨false, fun t => if t.kind == .word then some [.mark .colon, .type] else none, none⟩
  | .names =>
    ⟨false, fun t => if t.isMark '[' then some [.list .name .rightBracket] else none, none⟩
  | .list item closing =>
    ⟨false, fun t => if t.isMark closing.char then some [] else none,
      some [item, .more item closing]⟩
  | .more item closing =>
    ⟨false, fun t => if t.isMark ',' then some [item, .more item closing] else none,
      some [.mark closing]⟩
  | .parenthesized item =>
    ⟨false, fun t => if t.isMark '(' then some [.list item .rightParen] else none, some []⟩
  | .expression => ⟨true, fun t => if t.kind == .mark then none else some [], none⟩
  | .argument =>
    ⟨true, fun t =>
      if t.kind == .mark then none
      else if t.kind == .word then some [.argumentValue]
      else some [],
      none⟩
  | .argumentValue =>
    ⟨false, fun t => if t.isMark ':' then some [.expression] else none, some []⟩
  | .actionAttributes =>
    ⟨false, fun t =>
      if t.isMark '\x7d' then some []
      else if t.isWord "description" then some (given .text .actionAttributes)
      else if t.isWord "inputs" then some (given .names .actionAttributes)
      else if t.isWord "outputs" then some (given .names .actionAttributes)
      else none,
      none⟩
  | .entityAttributes =>
    ⟨false, fun t => if t.isMark '\x7d' then some [] else none,
      some [.typedName, .mark .semicolon, .entityAttributes]⟩
  | .roleAttributes =>
    ⟨false, fun t =>
      if t.isMark '\x7d' then some []
      else if t.isWord "description" then some (given .text .roleAttributes)
      else if t.isWord "type" then some (given .kind .roleAttributes)
      else none,
      none⟩
  | .body =>
    ⟨false, fun t =>
      if t.isMark '\x7d' then some []
      else if t.isWord "if" then
        some [.mark .leftParen, .expression, .mark .rightParen, .mark .leftBrace, .body, .afterThen]
      else none,
      some [.name, .parenthesized .argument, .mark .semicolon, .body]⟩
  | .afterThen =>
    ⟨false, fun t => if t.isWord "else" then some [.mark .leftBrace, .body, .body] else none,
      some [.body]⟩

end Due

/-- The rule at the top level: a definition, told by its keyword. -/
def Rule.top : Rule :=
  ⟨false, fun t =>
    if t.isWord "action" then
      some [.name, .byWord, .performer, .parenthesized .typedName, .mark .leftBrace,
        .actionAttributes]
    else if t.isWord "entity" then some [.name, .mark .leftBrace, .entityAttributes]
    else if t.isWord "workflow" then some [.name, .mark .leftBrace, .body]
    else if t.isWord "role" then some [.name, .mark .leftBrace, .roleAttributes]
    else none,
    none⟩

/-- The rule of what is on top of the stack. -/
def ruleOf : List Due → Rule
  | [] => .top
  | due :: _ => due.rule

/-! ## What all rules have in common -/

theorem Sign.char_ne_point (sign : Sign) : sign.char ≠ '.' := by
  cases sign <;> decide

/-- No rule takes a point. -/
theorem takes_point {t : Token} (h : t.isMark '.' = true) (k : List Due) :
    (ruleOf k).takes t = none := by
  have hmark : ∀ {c : Char}, c ≠ '.' → ¬ t.isMark c = true := fun hc =>
    t.not_isMark_of_isMark h hc.symm
  have hword : ∀ {w : String}, ¬ t.isWord w = true := Token.not_isWord_of_isMark h
  have hkind : t.kind = .mark := Token.kind_of_isMark h
  cases k with
  | nil => simp [ruleOf, Rule.top, hword]
  | cons due k =>
    cases due with
    | mark sign => exact if_neg (hmark sign.char_ne_point)
    | list item closing => exact if_neg (hmark closing.char_ne_point)
    | kind => simp [ruleOf, Due.rule, Scan.actorOfWord?, hword]
    | type => simp [ruleOf, Due.rule, Token.isTypeName, hkind]
    | _ => simp [ruleOf, Due.rule, hword, hmark, hkind]

/-- Rules look at the kind and the characters of a token. -/
theorem takes_placed (k : List Due) (t : Token) (start stop : ℕ) :
    (ruleOf k).takes (t.placed start stop) = (ruleOf k).takes t := by
  cases k with
  | nil => rfl
  | cons due k => cases due <;> rfl

/-- What takes a property access takes every token but a mark, and is not replaced. -/
theorem access_rule {k : List Due} (h : (ruleOf k).access = true) :
    (ruleOf k).passes = none ∧ ∀ t : Token, (ruleOf k).takes t = none ↔ t.kind = .mark := by
  cases k with
  | nil => cases h
  | cons due k =>
    cases due with
    | expression => exact ⟨rfl, fun t => by simp [ruleOf, Due.rule]⟩
    | argument =>
      refine ⟨rfl, fun t => ?_⟩
      cases hkind : t.kind <;> simp [ruleOf, Due.rule, hkind]
    | _ => cases h

/-- Numbers are taken where a property access is. -/
theorem access_of_takes_number {k more : List Due} {t : Token} (hkind : t.kind = .number)
    (h : (ruleOf k).takes t = some more) : (ruleOf k).access = true := by
  have hmark : ∀ {c : Char}, ¬ t.isMark c = true := fun hc =>
    absurd (hkind.symm.trans (Token.kind_of_isMark hc)) (by decide)
  have hword : ∀ {w : String}, ¬ t.isWord w = true := fun hw =>
    absurd (hkind.symm.trans (Token.kind_of_isWord hw)) (by decide)
  cases k with
  | nil => simp [ruleOf, Rule.top, hword] at h
  | cons due k =>
    cases due with
    | expression => rfl
    | argument => rfl
    | kind => simp [ruleOf, Due.rule, Scan.actorOfWord?, hword] at h
    | type => simp [ruleOf, Due.rule, Token.isTypeName, hkind] at h
    | _ => simp [ruleOf, Due.rule, hword, hmark, hkind] at h

/-! ## Steps -/

/-- Whether a part that takes a property access is due and fewer than three tokens are left. -/
def Short (k : List Due) (tokens : List Token) : Prop :=
  (ruleOf k).access = true ∧ tokens.length ≤ 2

/-- One step, with a stack and the tokens that are left; `cut` says whether a lexical error comes
after them. -/
inductive Step (cut : Bool) : List Due × List Token → List Due × List Token → Prop
  | access {k : List Due} {owner point part : Token} {rest : List Token}
    (hrule : (ruleOf k).access = true) (h : Scan.isPropertyAccess owner point part = true) :
    Step cut (k, owner :: point :: part :: rest) (k.tail, rest)
  | takes {k more : List Due} {t : Token} {rest : List Token}
    (hseen : cut = true → ¬ Short k (t :: rest))
    (hsimple : (ruleOf k).access = true → beginsAccess (t :: rest) = false)
    (h : (ruleOf k).takes t = some more) : Step cut (k, t :: rest) (more ++ k.tail, rest)
  | passes {k more : List Due} {tokens : List Token}
    (hnone : ∀ t ∈ tokens.head?, (ruleOf k).takes t = none) (h : (ruleOf k).passes = some more) :
    Step cut (k, tokens) (more ++ k.tail, tokens)

/-- Steps one after the other. -/
def Leads (cut : Bool) : List Due × List Token → List Due × List Token → Prop :=
  Relation.ReflTransGen (Step cut)

/-- Where no step is left. -/
def Stuck (cut : Bool) (a : List Due × List Token) : Prop := ∀ b, ¬ Step cut a b

variable {cut : Bool} {a b c : List Due × List Token} {k more : List Due} {t : Token}
  {tokens rest : List Token}

theorem not_short_of_access (h : (ruleOf k).access = false) (tokens : List Token) :
    ¬ Short k tokens := by
  rintro ⟨haccess, -⟩
  rw [h] at haccess
  cases haccess

theorem step_takes (haccess : (ruleOf k).access = false) (h : (ruleOf k).takes t = some more) :
    Step cut (k, t :: rest) (more ++ k.tail, rest) := by
  refine .takes (fun _ => not_short_of_access haccess _) (fun htrue => ?_) h
  rw [haccess] at htrue
  cases htrue

/-- Where a part neither takes the token in front nor is replaced, no step is left. -/
theorem stuck_of_takes_eq_none (hnone : ∀ t ∈ tokens.head?, (ruleOf k).takes t = none)
    (hpasses : (ruleOf k).passes = none) : Stuck cut (k, tokens) := by
  intro b hstep
  cases hstep with
  | access hrule h =>
    have hmark := ((access_rule hrule).2 _).mp (hnone _ rfl)
    have hword := (Scan.isPropertyAccess_iff.mp h).1
    exact absurd (hmark.symm.trans hword) (by decide)
  | takes _ _ h =>
    rw [hnone _ rfl] at h
    cases h
  | passes _ h =>
    rw [hpasses] at h
    cases h

/-- Where a lexical error comes too soon, no step is left. -/
theorem stuck_of_short (h : Short k tokens) : Stuck true (k, tokens) := by
  intro b hstep
  cases hstep with
  | access => exact absurd h.2 (by simp)
  | takes hseen => exact hseen rfl h
  | passes _ hpasses =>
    rw [(access_rule h.1).1] at hpasses
    cases hpasses

/-- There is at most one step. -/
theorem Step.deterministic (hb : Step cut a b) (hc : Step cut a c) : b = c := by
  cases hb with
  | access hrule h =>
    cases hc with
    | access => rfl
    | takes _ hsimple _ => exact absurd (hsimple hrule) (by rw [beginsAccess, h]; decide)
    | passes _ hpasses =>
      rw [(access_rule hrule).1] at hpasses
      cases hpasses
  | takes hseen hsimple h =>
    cases hc with
    | access hrule hproperty =>
      exact absurd (hsimple hrule) (by rw [beginsAccess, hproperty]; decide)
    | takes _ _ h' =>
      cases h.symm.trans h'
      rfl
    | passes hnone _ =>
      rw [hnone _ rfl] at h
      cases h
  | passes hnone h =>
    cases hc with
    | access hrule =>
      rw [(access_rule hrule).1] at h
      cases h
    | takes _ _ h' =>
      rw [hnone _ rfl] at h'
      cases h'
    | passes _ h' =>
      cases h.symm.trans h'
      rfl

/-- Of two runs of steps one goes on with the other. -/
theorem leads_total (hb : Leads cut a b) (hc : Leads cut a c) : Leads cut b c ∨ Leads cut c b :=
  Relation.ReflTransGen.total_of_right_unique (fun _ _ _ h h' => h.deterministic h') hb hc

theorem eq_of_leads_stuck (h : Leads cut a b) (ha : Stuck cut a) : a = b := by
  cases h.cases_head with
  | inl h => exact h
  | inr h =>
    obtain ⟨next, hstep, -⟩ := h
    exact absurd hstep (ha next)

/-- Tokens are taken from the front. -/
theorem suffix_of_step (h : Step cut a b) : b.2 <:+ a.2 := by
  cases h with
  | access => exact ⟨[_, _, _], rfl⟩
  | takes => exact List.suffix_cons _ _
  | passes => exact List.suffix_rfl

theorem suffix_of_leads (h : Leads cut a b) : b.2 <:+ a.2 := by
  induction h with
  | refl => exact List.suffix_rfl
  | tail _ hstep ih => exact (suffix_of_step hstep).trans ih

theorem not_beginsAccess_of_kind {t : Token} {rest : List Token} (h : t.kind ≠ .word) :
    beginsAccess (t :: rest) = false := by
  match rest with
  | [] => rfl
  | [_] => rfl
  | _ :: _ :: _ =>
    refine Bool.eq_false_iff.mpr fun haccess => ?_
    exact h (Scan.isPropertyAccess_iff.mp haccess).1

/-- A point in front stays there. -/
theorem eq_of_leads_point {k : List Due} {t : Token} {rest : List Token}
    (h : Leads cut (k, t :: rest) b) (ht : t.isMark '.' = true) : b.2 = t :: rest := by
  have hstay : ∀ {a b : List Due × List Token}, Step cut a b → a.2 = t :: rest →
      b.2 = t :: rest := by
    intro a b hstep ha
    cases hstep with
    | access _ hproperty =>
      cases ha
      have hkind := (Scan.isPropertyAccess_iff.mp hproperty).1
      exact absurd (hkind.symm.trans (Token.kind_of_isMark ht)) (by decide)
    | @takes k _ _ _ _ _ htakes =>
      cases ha
      rw [takes_point ht k] at htakes
      cases htakes
    | passes => exact ha
  induction h with
  | refl => rfl
  | tail _ hstep ih => exact hstay hstep ih

end RoleFlow
