import Mathlib.Data.List.Infix
import RoleFlow.Graph.Walk

/-!
# What a walk meets

A walk goes along sequence edges, never to an id that it has met, and ends where every sequence
edge leads to an action that it has met.

Results:
* `isChain_walkFrom`: every step of a walk goes along a sequence edge to an action.
* `nodup_walkFrom`: no id is met twice.
* `sequenceIds_congr`: edges and ids of actions tell a walk.
* `walkFrom_eq_of_follows`: a walk that can only follow a list of ids is that list.
-/

namespace RoleFlow

namespace Graph

variable {g : Graph} {met : List String} {current id : String}

/-! ## Steps -/

/-- A sequence edge leads from one id to that of an action. -/
def Leads (g : Graph) (source target : String) : Prop :=
  g.isAction target = true ∧
    ∃ e ∈ g.edges, e.source = source ∧ e.kind = .sequence ∧ e.target = target

theorem leads_iff :
    g.Leads current id ↔
      id ∈ (((g.outgoing current).filter (·.kind == .sequence)).map (·.target)).filter
        fun id => g.isAction id := by
  simp only [Leads, outgoing, List.mem_filter, List.mem_map, beq_iff_eq]
  constructor
  · rintro ⟨haction, e, he, hsource, hkind, htarget⟩
    exact ⟨⟨e, ⟨⟨he, hsource⟩, hkind⟩, htarget⟩, haction⟩
  · rintro ⟨⟨e, ⟨⟨he, hsource⟩, hkind⟩, htarget⟩, haction⟩
    exact ⟨haction, e, he, hsource, hkind, htarget⟩

theorem leads_of_nextStep? (h : g.nextStep? met current = some id) :
    g.Leads current id ∧ id ∉ met := by
  have hfound := List.find?_some h
  simp only [Bool.and_eq_true, Bool.not_eq_true', List.contains_eq_mem,
    decide_eq_false_iff_not] at hfound
  exact ⟨leads_iff.mpr (List.mem_filter.mpr ⟨List.mem_of_find?_eq_some h, hfound.2⟩), hfound.1⟩

theorem nextStep?_eq_none_iff :
    g.nextStep? met current = none ↔ ∀ id, g.Leads current id → id ∈ met := by
  unfold nextStep?
  rw [List.find?_eq_none]
  constructor
  · intro h id hleads
    obtain ⟨hmem, haction⟩ := List.mem_filter.mp (leads_iff.mp hleads)
    have hnot := h id hmem
    rw [haction, Bool.and_true] at hnot
    simpa using hnot
  · intro h id hmem hstep
    obtain ⟨hmet, haction⟩ := Bool.and_eq_true _ _ ▸ hstep
    have := h id (leads_iff.mpr (List.mem_filter.mpr ⟨hmem, haction⟩))
    simp [this] at hmet

/-- Where there is one way on only, the walk takes it. -/
theorem nextStep?_eq_some (hleads : g.Leads current id) (hmet : id ∉ met)
    (honly : ∀ other, g.Leads current other → other = id) :
    g.nextStep? met current = some id := by
  cases h : g.nextStep? met current with
  | none => exact absurd (nextStep?_eq_none_iff.mp h id hleads) hmet
  | some other => rw [honly other (leads_of_nextStep? h).1]

/-! ## Whole walks -/

theorem walkFrom_none (h : g.nextStep? met current = none) : g.walkFrom met current = [] := by
  rw [walkFrom]
  split
  · rfl
  · next hsome =>
    rw [h] at hsome
    cases hsome

theorem walkFrom_some (h : g.nextStep? met current = some id) :
    g.walkFrom met current = id :: g.walkFrom (id :: met) id := by
  rw [walkFrom]
  split
  · next hnone =>
    rw [h] at hnone
    cases hnone
  · next hsome =>
    rw [h] at hsome
    cases hsome
    rfl

/-- Walks that make the same steps are the same. -/
theorem walkFrom_congr {h : Graph}
    (hstep : ∀ met current, h.nextStep? met current = g.nextStep? met current)
    (met : List String) (current : String) : h.walkFrom met current = g.walkFrom met current := by
  fun_induction walkFrom g met current with
  | case1 met current hnone => exact walkFrom_none ((hstep met current).trans hnone)
  | case2 met current id hsome ih => rw [walkFrom_some ((hstep met current).trans hsome), ih]

theorem isChain_walkFrom (g : Graph) (met : List String) (current : String) :
    (current :: g.walkFrom met current).IsChain g.Leads := by
  fun_induction walkFrom g met current with
  | case1 => exact .singleton _
  | case2 met current id h ih => exact .cons_cons (leads_of_nextStep? h).1 ih

theorem nodup_walkFrom (g : Graph) (met : List String) (current : String) :
    (g.walkFrom met current).Nodup ∧ ∀ id ∈ g.walkFrom met current, id ∉ met := by
  fun_induction walkFrom g met current with
  | case1 => exact ⟨.nil, by simp⟩
  | case2 met current id h ih =>
    refine ⟨List.nodup_cons.mpr ⟨fun hmem => ih.2 id hmem (by simp), ih.1⟩, ?_⟩
    intro other hother hmet
    rcases List.mem_cons.mp hother with rfl | hother
    · exact (leads_of_nextStep? h).2 hmet
    · exact ih.2 other hother (List.mem_cons_of_mem _ hmet)

/-- To what is met after the start of a walk a sequence edge leads. -/
theorem exists_leads_of_mem_walkFrom {met : List String} {current id : String}
    (h : id ∈ g.walkFrom met current) : ∃ source, g.Leads source id := by
  fun_induction walkFrom g met current with
  | case1 => cases h
  | case2 met current first hstep ih =>
    rcases List.mem_cons.mp h with rfl | h
    · exact ⟨current, (leads_of_nextStep? hstep).1⟩
    · exact ih h

/-- In a list without repetitions only its neighbour follows a member. -/
theorem head?_eq_of_infix {α : Type} {before after : List α} {x y : α}
    (hnodup : (before ++ x :: after).Nodup) (h : [x, y] <:+: before ++ x :: after) :
    after.head? = some y := by
  obtain ⟨front, back, h⟩ := h
  rw [List.append_assoc, List.cons_append] at h
  have hbefore : x ∉ before := fun hmem => (List.nodup_append.mp hnodup).2.2 x hmem x (by simp) rfl
  have hafter : x ∉ after := (List.nodup_cons.mp (List.nodup_append.mp hnodup).2.1).1
  obtain ⟨-, -, htail⟩ := (List.append_cons_inj_of_notMem hbefore hafter).mp h.symm
  rw [htail]
  rfl

/-- If along `before ++ current :: after` every id leads to the next one and nowhere else, the
walk from `current` on is `after`. -/
theorem walkFrom_eq_of_follows {before after : List String}
    (hnodup : (before ++ current :: after).Nodup)
    (hmet : ∀ id, id ∈ met ↔ id ∈ before ++ [current])
    (hleads : (current :: after).IsChain g.Leads)
    (honly : ∀ x ∈ current :: after, ∀ y, g.Leads x y →
      [x, y] <:+: before ++ current :: after) :
    g.walkFrom met current = after := by
  have hnext : ∀ y, g.Leads current y → after.head? = some y :=
    fun y hy => head?_eq_of_infix hnodup (honly current (by simp) y hy)
  induction after generalizing before current met with
  | nil =>
    refine walkFrom_none (nextStep?_eq_none_iff.mpr fun y hy => ?_)
    cases hnext y hy
  | cons z after ih =>
    obtain ⟨hz, hchain⟩ := List.isChain_cons_cons.mp hleads
    rw [show before ++ current :: z :: after = (before ++ [current]) ++ z :: after by simp]
      at hnodup honly
    have hunmet : z ∉ met := by
      rw [hmet]
      exact fun hmem => (List.nodup_append.mp hnodup).2.2 z hmem z (by simp) rfl
    have hstep : g.nextStep? met current = some z := by
      refine nextStep?_eq_some hz hunmet fun other hother => ?_
      exact (Option.some.inj (hnext other hother)).symm
    have honly' : ∀ x ∈ z :: after, ∀ y, g.Leads x y →
        [x, y] <:+: (before ++ [current]) ++ z :: after :=
      fun x hx => honly x (List.mem_cons_of_mem _ hx)
    rw [walkFrom_some hstep, ih hnodup ?_ hchain honly' ?_]
    · intro id
      rw [List.mem_cons, List.mem_append, List.mem_singleton, hmet id]
      exact or_comm
    · exact fun y hy => head?_eq_of_infix hnodup (honly' z (by simp) y hy)

/-! ## Walks of workflows -/

/-- A walk is told by the edges and by which ids are those of actions. -/
theorem sequenceIds_congr {h : Graph} (hedges : h.edges = g.edges)
    (haction : h.isAction = g.isAction) (workflow : String) :
    h.sequenceIds workflow = g.sequenceIds workflow := by
  have hout : h.outgoing = g.outgoing := funext fun id => by rw [outgoing, outgoing, hedges]
  have hstep : ∀ met current, h.nextStep? met current = g.nextStep? met current :=
    fun met current => by rw [nextStep?, nextStep?, hout, haction]
  have hstart : h.startOf? workflow = g.startOf? workflow := by
    rw [startOf?, startOf?, hout, haction]
  rw [sequenceIds, sequenceIds, hstart]
  cases g.startOf? workflow with
  | none => rfl
  | some first => exact congrArg (first :: ·) (walkFrom_congr hstep [first] first)

theorem isAction_of_mem_sequenceIds {workflow id : String} (h : id ∈ g.sequenceIds workflow) :
    g.isAction id = true := by
  unfold sequenceIds at h
  split at h
  · cases h
  · next first hfirst =>
    rcases List.mem_cons.mp h with rfl | h
    · exact List.find?_some hfirst
    · obtain ⟨source, hleads⟩ := exists_leads_of_mem_walkFrom h
      exact hleads.1

theorem mem_sequencePath {workflow : String} {n : Node} (h : n ∈ g.sequencePath workflow) :
    n ∈ g.nodes ∧ n.kind = .action := by
  obtain ⟨id, hid, hn⟩ := List.mem_filterMap.mp h
  have haction := isAction_of_mem_sequenceIds hid
  rw [isAction, hn] at haction
  exact ⟨List.mem_reverse.mp (List.mem_of_find?_eq_some hn), beq_iff_eq.mp haction⟩

end Graph

end RoleFlow
