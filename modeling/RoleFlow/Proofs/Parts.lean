import RoleFlow.Proofs.Accepted

/-!
# The parts of a program

A program comes apart into its names, types, performers, kinds, calls, identifiers, numbers and
texts, whatever the depth they stand at. It is well-formed exactly if each of them is proper by
itself, so that the parts of a program that is read are.

Results:
* `isTidy_iff`: which characters a tidy text has.
* `Program.wellFormed_iff`: well-formed programs, told by their parts.
* `isProper_of_parse`: the parts of a program that is read.
-/

namespace RoleFlow

/-- A part of a program that can be judged by itself. -/
inductive Part where
  | name (name : String)
  | type (type : String)
  | performer (actor : ActorKind) (roleName : Option String)
  | kind (kind : Option ActorKind)
  | call (name : String)
  | identifier (name : String)
  | number (value : Double)
  | text (value : String)
  deriving DecidableEq

/-- The part is what can be written in its place: a word as a name, letters with another type in
angle brackets as a type. A role performs an action exactly if it is named, calls are no decisions,
identifiers no booleans, numbers have no sign, and texts no control characters and no blanks but
spaces. -/
def Part.IsProper : Part → Prop
  | .name s => IsWord s
  | .type s => IsTypeText s.toList ∧ ' ' ∉ s.toList
  | .performer actor roleName => roleName.isSome ↔ actor = .role
  | .kind k => k = none ∨ k = some .ai ∨ k = some .human
  | .call s => IsWord s ∧ s ≠ "if"
  | .identifier s => IsWord s ∧ s ≠ "true" ∧ s ≠ "false"
  | .number x => x.negative = false
  | .text s => ∀ c ∈ s.toList, 0x20 ≤ c.toNat ∧ (isBlank c = true → c = ' ')

/-! ## Coming apart -/

/-- The parts of a name with its type. -/
def TypedName.parts (t : TypedName) : List Part := [.name t.name, .type t.type]

/-- The parts of an expression. -/
def Expression.parts : Expression → List Part
  | .text value => [.text value]
  | .number value => [.number value]
  | .boolean _ => []
  | .identifier name => [.identifier name]
  | .property owner part => [.name owner, .name part]

/-- The parts of an argument. -/
def Argument.parts (a : Argument) : List Part := a.name.toList.map .name ++ a.value.parts

mutual

/-- The parts of a step, at any depth. -/
def Element.parts : Element → List Part
  | .call name args => .call name :: args.flatMap Argument.parts
  | .decision condition thenBody elseBody =>
    condition.parts ++ Element.partsList thenBody ++ Element.partsList elseBody

/-- The parts of a body, at any depth. -/
def Element.partsList : List Element → List Part
  | [] => []
  | element :: elements => element.parts ++ Element.partsList elements

end

/-- The parts of an action. -/
def ActionDef.parts (a : ActionDef) : List Part :=
  .name a.name :: .performer a.actor a.roleName :: .text a.description ::
    (a.roleName.toList ++ a.inputs ++ a.outputs).map .name ++ a.parameters.flatMap TypedName.parts

/-- The parts of an entity. -/
def EntityDef.parts (e : EntityDef) : List Part :=
  .name e.name :: e.attributes.flatMap TypedName.parts

/-- The parts of a role. -/
def RoleDef.parts (r : RoleDef) : List Part := [.name r.name, .kind r.kind, .text r.description]

/-- The parts of a workflow. -/
def WorkflowDef.parts (w : WorkflowDef) : List Part := .name w.name :: Element.partsList w.elements

/-- The parts of a program. -/
def Program.parts (p : Program) : List Part :=
  p.actions.flatMap ActionDef.parts ++ p.entities.flatMap EntityDef.parts ++
    p.roles.flatMap RoleDef.parts ++ p.workflows.flatMap WorkflowDef.parts

/-! ## Types and texts -/

theorem space_notMem_of_isTypeText {cs : List Char} (h : IsTypeText cs) : ' ' ∉ cs := by
  have hletters : ∀ {cs : List Char}, (∀ c ∈ cs, isLetter c = true) → ' ' ∉ cs :=
    fun hall hmem => absurd (hall _ hmem) (by decide)
  induction h with
  | plain _ hall => exact hletters hall
  | generic _ hall _ ih =>
    simp only [List.mem_append, List.mem_cons, List.not_mem_nil, or_false, not_or]
    exact ⟨⟨hletters hall, by decide, ih⟩, by decide⟩

/-- The control characters that are not dropped from a document are blank, so a text without stray
controls and without blanks but spaces has no control characters at all. -/
theorem isTidy_iff {s : String} :
    IsTidy s ↔ ∀ c ∈ s.toList, 0x20 ≤ c.toNat ∧ (isBlank c = true → c = ' ') := by
  refine forall₂_congr fun c _ => and_congr_left fun hspace => ?_
  simp only [Source.isStrayControl]
  constructor
  · intro hkept
    by_contra hlow
    have hmoves : c = '\t' ∨ c = '\n' ∨ c = '\r' := by
      simpa [Nat.not_le.mp hlow, or_iff_not_imp_left] using hkept
    rcases hmoves with rfl | rfl | rfl <;> exact absurd (hspace (by decide)) (by decide)
  · intro hhigh
    simp [Nat.not_lt.mpr hhigh]

theorem kind_ne_role_iff {kind : Option ActorKind} :
    kind ≠ some .role ↔ kind = none ∨ kind = some .ai ∨ kind = some .human := by
  rcases kind with - | kind
  · decide
  · cases kind <;> decide

/-! ## Well-formed programs by their parts -/

theorem TypedName.wellFormed_iff {t : TypedName} :
    t.WellFormed ↔ ∀ part ∈ t.parts, part.IsProper := by
  simp only [TypedName.parts, List.forall_mem_cons, List.not_mem_nil, IsEmpty.forall_iff,
    implies_true, and_true]
  simp only [Part.IsProper]
  exact ⟨fun h => ⟨h.name, h.type, space_notMem_of_isTypeText h.type⟩,
    fun ⟨hname, htype, _⟩ => ⟨hname, htype⟩⟩

theorem Expression.wellFormed_iff {e : Expression} :
    e.WellFormed ↔ ∀ part ∈ e.parts, part.IsProper := by
  cases e <;> simp [Expression.WellFormed, Expression.parts, Part.IsProper, isTidy_iff]

theorem Argument.wellFormed_iff {a : Argument} :
    a.WellFormed ↔ ∀ part ∈ a.parts, part.IsProper := by
  simp only [Argument.parts, List.forall_mem_append, List.forall_mem_map, Option.mem_toList,
    ← Expression.wellFormed_iff]
  exact ⟨fun h => ⟨h.name, h.value⟩, fun ⟨hname, hvalue⟩ => ⟨hname, hvalue⟩⟩

theorem Element.wellFormedList_iff {elements : List Element} :
    Element.WellFormedList elements ↔ ∀ part ∈ Element.partsList elements, part.IsProper := by
  induction elements using Element.bodyInduction with
  | nil => simp [Element.WellFormedList, Element.partsList]
  | call name args rest ih =>
    simp only [Element.WellFormedList, Element.WellFormed, Element.partsList, Element.parts,
      List.forall_mem_append, List.forall_mem_cons, List.forall_mem_flatMap, ← ih,
      ← Argument.wellFormed_iff]
    simp only [Part.IsProper, and_assoc]
  | decision condition thenBody elseBody rest ihThen ihElse ih =>
    simp only [Element.WellFormedList, Element.WellFormed, Element.partsList, Element.parts,
      List.forall_mem_append, ih, ihThen, ihElse, Expression.wellFormed_iff, and_assoc]

theorem ActionDef.wellFormed_iff {a : ActionDef} :
    a.WellFormed ↔ ∀ part ∈ a.parts, part.IsProper := by
  simp only [ActionDef.parts, List.forall_mem_append, List.forall_mem_cons, List.forall_mem_map,
    List.forall_mem_flatMap, Option.mem_toList, List.cons_append, ← TypedName.wellFormed_iff]
  simp only [Part.IsProper, ← isTidy_iff]
  constructor
  · intro h
    exact ⟨h.name, h.role.symm, h.description, ⟨⟨h.roleName, h.inputs⟩, h.outputs⟩, h.parameters⟩
  · rintro ⟨hname, hrole, hdescription, ⟨⟨hroleName, hinputs⟩, houtputs⟩, hparameters⟩
    exact ⟨hname, hrole.symm, hroleName, hparameters, hdescription, hinputs, houtputs⟩

theorem EntityDef.wellFormed_iff {e : EntityDef} :
    e.WellFormed ↔ ∀ part ∈ e.parts, part.IsProper := by
  simp only [EntityDef.parts, List.forall_mem_cons, List.forall_mem_flatMap,
    ← TypedName.wellFormed_iff]
  exact ⟨fun h => ⟨h.name, h.attributes⟩, fun ⟨hname, hattributes⟩ => ⟨hname, hattributes⟩⟩

theorem RoleDef.wellFormed_iff {r : RoleDef} :
    r.WellFormed ↔ ∀ part ∈ r.parts, part.IsProper := by
  simp only [RoleDef.parts, List.forall_mem_cons, List.not_mem_nil, IsEmpty.forall_iff,
    implies_true, and_true]
  simp only [Part.IsProper, ← isTidy_iff, ← kind_ne_role_iff]
  exact ⟨fun h => ⟨h.name, h.kind, h.description⟩,
    fun ⟨hname, hkind, hdescription⟩ => ⟨hname, hdescription, hkind⟩⟩

theorem WorkflowDef.wellFormed_iff {w : WorkflowDef} :
    w.WellFormed ↔ ∀ part ∈ w.parts, part.IsProper := by
  simp only [WorkflowDef.parts, List.forall_mem_cons, ← Element.wellFormedList_iff]
  exact ⟨fun h => ⟨h.name, h.elements⟩, fun ⟨hname, helements⟩ => ⟨hname, helements⟩⟩

/-- A program is well-formed exactly if all its parts are proper. -/
theorem Program.wellFormed_iff {p : Program} :
    p.WellFormed ↔ ∀ part ∈ p.parts, part.IsProper := by
  simp only [Program.parts, List.forall_mem_append, List.forall_mem_flatMap,
    ← ActionDef.wellFormed_iff, ← EntityDef.wellFormed_iff, ← RoleDef.wellFormed_iff,
    ← WorkflowDef.wellFormed_iff]
  exact ⟨fun h => ⟨⟨⟨h.actions, h.entities⟩, h.roles⟩, h.workflows⟩,
    fun ⟨⟨⟨hactions, hentities⟩, hroles⟩, hworkflows⟩ => ⟨hactions, hentities, hroles, hworkflows⟩⟩

/-- Every part of a program that is read is proper, whatever the depth it stands at. -/
theorem isProper_of_parse {document : String} {p : Program}
    (h : (parse document).value = .ok p) : ∀ part ∈ p.parts, part.IsProper :=
  Program.wellFormed_iff.mp (wellFormed_of_parse h)

/-- A document with parts of every kind, some of them in a decision that stands in another. -/
theorem isProper_of_parse_nested :
    let document := "role R \x7b type: Human; \x7d
action A by role R (o: List < T >) \x7b outputs: [x]; \x7d
workflow W \x7b if (o.p) \x7b if (x) \x7b A(n: 2.5, \"a\\\"\tb\"); \x7d \x7d \x7d"
    ∃ p, (parse document).value = .ok p ∧ (∀ part ∈ p.parts, part.IsProper) ∧
      ∀ part ∈ [.name "n", .type "List<T>", .performer .role (some "R"), .kind (some .human),
        .call "A", .identifier "x", .number ⟨false, .ofRatio 25 10⟩, .text "a\" b"],
        part ∈ p.parts := by
  intro document
  let p : Program :=
    ⟨[⟨"A", .role, some "R", [⟨"o", "List<T>"⟩], "", [], ["x"]⟩], [], [⟨"R", "", some .human⟩],
      [⟨"W", [.decision (.property "o" "p") [.decision (.identifier "x")
        [.call "A" [⟨some "n", .number ⟨false, .ofRatio 25 10⟩⟩, ⟨none, .text "a\" b"⟩]] []] []]⟩]⟩
  have hparse : (parse document).value = .ok p := parse_of_toOption (by decide +kernel)
  exact ⟨p, hparse, isProper_of_parse hparse, by decide +kernel⟩

end RoleFlow
