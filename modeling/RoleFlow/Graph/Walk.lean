import RoleFlow.Graph.Basic

/-!
# The walk of a workflow

The actions of a workflow, in order, are read off the graph by a walk. It starts at the first
action that an edge of any kind leads to from the workflow, and goes on along the first sequence
edge to an action that it has not met. Where an id is shared by several nodes, the last one
counts. This is `sequence_path`.

Results:
* `unmet_lt`: every step leaves fewer nodes that have not been met, so the walk ends.
-/

namespace RoleFlow

namespace Graph

/-- Whether an id is that of an action. Model of `is_action` in `sequence_path`. -/
def isAction (g : Graph) (id : String) : Bool :=
  match g.lastNode? id with
  | some node => node.kind == .action
  | none => false

/-- The nodes whose ids have not been met. -/
def unmet (g : Graph) (met : List String) : Nat := g.nodes.countP fun node => !met.contains node.id

/-- Where the walk goes from an action: the target of the first sequence edge to an action that has
not been met. Model of the `successor` of `sequence_path`. -/
def nextStep? (g : Graph) (met : List String) (current : String) : Option String :=
  (((g.outgoing current).filter (·.kind == .sequence)).map (·.target)).find? fun id =>
    !met.contains id && g.isAction id

theorem exists_node_of_isAction {g : Graph} {id : String} (h : g.isAction id = true) :
    ∃ node ∈ g.nodes, node.id = id := by
  unfold isAction at h
  split at h
  · next node hn =>
    exact ⟨node, List.mem_reverse.mp (List.mem_of_find?_eq_some hn),
      by simpa using List.find?_some hn⟩
  · cases h

theorem countP_lt_countP {α : Type} {p q : α → Bool} {xs : List α} {x : α}
    (hpq : ∀ y ∈ xs, p y = true → q y = true) (hx : x ∈ xs) (hp : p x = false)
    (hq : q x = true) : xs.countP p < xs.countP q := by
  obtain ⟨before, after, rfl⟩ := List.append_of_mem hx
  have hbefore : before.countP p ≤ before.countP q :=
    List.countP_mono_left fun y hy => hpq y (by simp [hy])
  have hafter : after.countP p ≤ after.countP q :=
    List.countP_mono_left fun y hy => hpq y (by simp [hy])
  simp only [List.countP_append, List.countP_cons, hp, hq]
  grind

theorem unmet_lt {g : Graph} {met : List String} {current id : String}
    (h : g.nextStep? met current = some id) : g.unmet (id :: met) < g.unmet met := by
  have hfound := List.find?_some h
  simp only [Bool.and_eq_true] at hfound
  obtain ⟨node, hmem, rfl⟩ := exists_node_of_isAction hfound.2
  refine countP_lt_countP (fun n _ hn => ?_) hmem (by simp) hfound.1
  simp only [List.contains_cons, Bool.not_or, Bool.and_eq_true] at hn
  exact hn.2

/-- The ids of the walk after `current`, those in `met` being left out. Model of the loop of
`sequence_path`. -/
def walkFrom (g : Graph) (met : List String) (current : String) : List String :=
  match _h : g.nextStep? met current with
  | none => []
  | some id => id :: walkFrom g (id :: met) id
termination_by g.unmet met
decreasing_by exact unmet_lt _h

/-- The action that a workflow starts with. Model of the `first` of `sequence_path`. -/
def startOf? (g : Graph) (workflow : String) : Option String :=
  ((g.outgoing workflow).map (·.target)).find? g.isAction

/-- The ids of the actions of a workflow, in order. -/
def sequenceIds (g : Graph) (workflow : String) : List String :=
  match g.startOf? workflow with
  | none => []
  | some first => first :: g.walkFrom [first] first

/-- The actions of a workflow, in order. Model of `sequence_path`. -/
def sequencePath (g : Graph) (workflow : String) : List Node :=
  (g.sequenceIds workflow).filterMap g.lastNode?

end Graph

end RoleFlow
