import RoleFlow.Graph.Reconcile
import RoleFlow.Proofs.Contents

/-!
# Definitions read off their nodes

The node of a definition holds all of it, except that an action keeps the name of a role only if a
role performs it, and a role that is said to be a role again keeps no kind.

Results:
* `actions_program_graph`, `entities_program_graph`, `roles_program_graph`: the definitions of a
  program after a trip through its graph.
* `definitions_program_graph`: when they are those of the program.
-/

namespace RoleFlow

/-- The action as its node tells it. -/
def ActionDef.told (a : ActionDef) : ActionDef :=
  { a with roleName := if a.actor = .role then some (roleNameText a.roleName) else none }

/-- The role as its node tells it. -/
def RoleDef.told (r : RoleDef) : RoleDef :=
  { r with kind := if r.kind = some .role then none else r.kind }

theorem ActionDef.told_eq {a : ActionDef} (h : a.roleName.isSome ↔ a.actor = .role) :
    a.told = a := by
  obtain ⟨name, actor, roleName, parameters, description, inputs, outputs⟩ := a
  cases roleName with
  | none =>
    have hactor : actor ≠ .role := fun hactor => by simpa using h.mpr hactor
    simp [told, hactor]
  | some role =>
    have hactor : actor = .role := h.mp rfl
    simp [told, hactor, roleNameText]

theorem RoleDef.told_eq {r : RoleDef} (h : r.kind ≠ some .role) : r.told = r := by
  rw [told, if_neg h]

theorem ActionDef.told_told (a : ActionDef) : a.told.told = a.told := by
  refine told_eq ?_
  show (if a.actor = .role then some (roleNameText a.roleName) else none).isSome ↔ a.actor = .role
  split
  · next h => exact iff_of_true rfl h
  · next h => exact iff_of_false (by simp) h

theorem RoleDef.told_told (r : RoleDef) : r.told.told = r.told := by
  refine told_eq ?_
  show (if r.kind = some .role then none else r.kind) ≠ some .role
  split
  · simp
  · next h => exact h

theorem map_eq_self {α : Type} {f : α → α} {xs : List α} (h : ∀ x ∈ xs, f x = x) :
    xs.map f = xs :=
  (List.map_congr_left h).trans (List.map_id xs)

/-! ## Parts of node data -/

theorem Json.textOrEmpty_str (s : String) : Json.textOrEmpty (some (.str s)) = s := by
  show (if s.isEmpty then "" else s) = s
  split
  · next h => exact (String.isEmpty_iff.mp h).symm
  · rfl

theorem namesOf_ofStrings (names : List String) :
    namesOf (some (Json.ofStrings names)) = names := by
  show (names.map Json.str).filterMap _ = names
  rw [List.filterMap_map]
  exact List.filterMap_some

theorem TypedName.check_toJson (t : TypedName) : TypedName.check t.toJson = .valid t := by
  simp [TypedName.check, TypedName.toJson, Check.model, Check.required, Fields.get?, Check.text]

/-- Whose typed names are read matters for the warnings only. -/
theorem typedNamesOf_owner (noun owner other : String) (json : Option Json) :
    (typedNamesOf noun owner json).value = (typedNamesOf noun other json).value := by
  unfold typedNamesOf
  split <;> rfl

theorem typedNamesOf_toJson (noun owner : String) (ts : List TypedName) :
    (typedNamesOf noun owner (some (.list (ts.map TypedName.toJson)))).value = ts := by
  show (ts.map TypedName.toJson).filterMap (fun json => (TypedName.check json).toOption) = ts
  rw [List.filterMap_map]
  simp only [Function.comp_def, TypedName.check_toJson]
  exact List.filterMap_some

theorem dropBeginning?_append (beginning rest : String) :
    dropBeginning? beginning (beginning ++ rest) = some rest := by
  unfold dropBeginning?
  rw [String.toList_append, if_pos (by simp), ← String.length_toList, List.drop_left,
    String.ofList_toList]

theorem actorOfText?_actorLabel (a : ActionDef) :
    actorOfText? a.actorLabel =
      some (a.actor, if a.actor = .role then some (roleNameText a.roleName) else none) := by
  unfold ActionDef.actorLabel
  cases a.actor with
  | ai =>
    show actorOfText? ActorKind.ai.name = some (.ai, none)
    decide
  | human =>
    show actorOfText? ActorKind.human.name = some (.human, none)
    decide
  | role =>
    show actorOfText? (roleMark ++ roleNameText a.roleName) = _
    unfold actorOfText?
    rw [dropBeginning?_append]
    rfl

/-! ## Definitions of nodes -/

namespace Node

/-- The actor that a node tells, with the name of its role. -/
def performer (n : Node) : ActorKind × Option String :=
  (actorOfText? (Json.textOrEmpty (n.data.get? "actor"))).getD (.human, none)

/-- The description that a node tells. -/
def description (n : Node) : String := Json.textOrEmpty (n.data.get? "description")

/-- The outputs that a node tells. -/
def declaredOutputs (n : Node) : List String := namesOf (n.data.get? "outputs")

theorem action_value (n : Node) :
    n.action.value = ⟨n.label, n.performer.1, n.performer.2,
      (typedNamesOf "parameter" n.label (n.data.get? "parameters")).value, n.description,
      n.declaredInputs, n.declaredOutputs⟩ := by
  unfold action performer
  dsimp only
  cases actorOfText? (Json.textOrEmpty (n.data.get? "actor")) with
  | none => rfl
  | some performer => rfl

end Node

namespace Program

variable {p : Program}

theorem declaredInputs_actionNode (i : Nat) (a : ActionDef) :
    (actionNode i a).declaredInputs = a.inputs :=
  namesOf_ofStrings a.inputs

theorem declaredOutputs_actionNode (i : Nat) (a : ActionDef) :
    (actionNode i a).declaredOutputs = a.outputs :=
  namesOf_ofStrings a.outputs

theorem description_actionNode (i : Nat) (a : ActionDef) :
    (actionNode i a).description = a.description :=
  Json.textOrEmpty_str a.description

theorem performer_actionNode (i : Nat) (a : ActionDef) : (actionNode i a).performer =
    (a.actor, if a.actor = .role then some (roleNameText a.roleName) else none) := by
  have hlabel : Json.textOrEmpty ((actionNode i a).data.get? "actor") = a.actorLabel :=
    Json.textOrEmpty_str _
  rw [Node.performer, hlabel, actorOfText?_actorLabel, Option.getD_some]

theorem parameters_actionNode (noun owner : String) (i : Nat) (a : ActionDef) :
    (typedNamesOf noun owner ((actionNode i a).data.get? "parameters")).value = a.parameters :=
  typedNamesOf_toJson noun owner a.parameters

theorem action_actionNode (i : Nat) (a : ActionDef) : (actionNode i a).action.value = a.told := by
  rw [Node.action_value, performer_actionNode, description_actionNode, declaredInputs_actionNode,
    declaredOutputs_actionNode, parameters_actionNode]
  rfl

theorem attributes_entityNode (noun owner : String) (i : Nat) (e : EntityDef) :
    (typedNamesOf noun owner ((p.entityNode i e).data.get? "attributes")).value = e.attributes :=
  typedNamesOf_toJson noun owner e.attributes

theorem entity_entityNode (i : Nat) (e : EntityDef) : (p.entityNode i e).entity.value = e := by
  show EntityDef.mk e.name (typedNamesOf "attribute" e.name
    ((p.entityNode i e).data.get? "attributes")).value = e
  rw [attributes_entityNode]

theorem description_roleNode (i : Nat) (r : RoleDef) :
    (p.roleNode i r).description = r.description :=
  Json.textOrEmpty_str r.description

theorem role_roleNode (i : Nat) (r : RoleDef) : (p.roleNode i r).role = r.told := by
  have hkind : (p.roleNode i r).data.get? "kind" =
      some (Json.ofString? (r.kind.map ActorKind.name)) := rfl
  unfold Node.role RoleDef.told
  rw [← Node.description, description_roleNode, hkind]
  cases r.kind with
  | none => rfl
  | some kind =>
    cases kind with
    | ai => rfl
    | human => rfl
    | role => rfl

end Program

/-! ## Definitions after a trip -/

namespace Program

theorem eq_of_parts {p q : Program} (hactions : p.actions = q.actions)
    (hentities : p.entities = q.entities) (hroles : p.roles = q.roles)
    (hworkflows : p.workflows = q.workflows) : p = q := by
  cases p
  cases q
  simp_all

theorem map_mapIdx_of_forall {α β γ : Type} (node : Nat → α → β) (read : β → γ) {value : α → γ}
    (h : ∀ i x, read (node i x) = value x) (xs : List α) :
    (xs.mapIdx node).map read = xs.map value := by
  induction xs generalizing node with
  | nil => rfl
  | cons x xs ih =>
    rw [List.mapIdx_cons, List.map_cons, h, ih _ fun i => h (i + 1), List.map_cons]

theorem actions_program_graph (p : Program) :
    p.graph.program.actions = p.actions.map ActionDef.told := by
  rw [Graph.actions_program, nodesOfKind_graph]
  exact map_mapIdx_of_forall actionNode (·.action.value) action_actionNode p.actions

theorem entities_program_graph (p : Program) : p.graph.program.entities = p.entities := by
  rw [Graph.entities_program, nodesOfKind_graph]
  exact (map_mapIdx_of_forall p.entityNode (·.entity.value) entity_entityNode p.entities).trans
    (List.map_id _)

theorem roles_program_graph (p : Program) :
    p.graph.program.roles = p.roles.map RoleDef.told := by
  rw [Graph.roles_program, nodesOfKind_graph]
  exact map_mapIdx_of_forall p.roleNode Node.role role_roleNode p.roles

theorem workflowNames_program_graph (p : Program) :
    p.graph.program.workflows.map (·.name) = p.workflows.map (·.name) := by
  rw [Graph.workflows_program, nodesOfKind_graph, List.map_map]
  exact map_mapIdx_of_forall p.workflowNode _ (fun _ _ => rfl) p.workflows

/-- A trip through the graph changes no definition but workflows, and of these not the names, if
actions name a role where one performs them, and no role is said to be a role again. -/
theorem definitions_program_graph {p : Program}
    (hactions : ∀ a ∈ p.actions, a.roleName.isSome ↔ a.actor = .role)
    (hroles : ∀ r ∈ p.roles, r.kind ≠ some .role) :
    p.graph.program.actions = p.actions ∧ p.graph.program.entities = p.entities ∧
      p.graph.program.roles = p.roles ∧
      p.graph.program.workflows.map (·.name) = p.workflows.map (·.name) := by
  have htold : p.actions.map ActionDef.told = p.actions :=
    map_eq_self fun a ha => ActionDef.told_eq (hactions a ha)
  have htoldRoles : p.roles.map RoleDef.told = p.roles :=
    map_eq_self fun r hr => RoleDef.told_eq (hroles r hr)
  refine ⟨?_, p.entities_program_graph, ?_, p.workflowNames_program_graph⟩
  · rw [actions_program_graph, htold]
  · rw [roles_program_graph, htoldRoles]

/-- Names may repeat, be empty, or begin as those of roles are written. -/
theorem definitions_program_graph_repeated :
    let p : Program := ⟨[⟨"A", .role, some "role:", [⟨"t", ""⟩], "", ["x", "x"], [""]⟩,
        ⟨"A", .ai, none, [], "reads", [], ["x"]⟩, ⟨"", .role, some "", [], "", [], []⟩],
      [⟨"A", [⟨"t", "Text"⟩, ⟨"t", ""⟩]⟩], [⟨"A", "", some .human⟩, ⟨"A", "", none⟩],
      [⟨"A", [.decision (.boolean true) [.call "A" []] [], .call "A" []]⟩, ⟨"A", []⟩]⟩
    (∀ a ∈ p.actions, a.roleName.isSome ↔ a.actor = .role) ∧
      (∀ r ∈ p.roles, r.kind ≠ some .role) ∧
      p.graph.program.actions = p.actions ∧ p.graph.program.entities = p.entities ∧
      p.graph.program.roles = p.roles ∧
      p.graph.program.workflows.map (·.name) = p.workflows.map (·.name) := by
  intro p
  have hactions : ∀ a ∈ p.actions, a.roleName.isSome ↔ a.actor = .role := by decide
  have hroles : ∀ r ∈ p.roles, r.kind ≠ some .role := by decide
  exact ⟨hactions, hroles, definitions_program_graph hactions hroles⟩

end Program

end RoleFlow
