import Mathlib.Order.WellFounded
import RoleFlow.Proofs.Walks

/-!
# Walks are greedy

A walk begins with the first action that an edge leads to from its workflow. In every turn it goes
on along the first sequence edge to an action that it has not met, until there is none. No turn can
be made without end, and the walk is the only path that is made in this way.

Main definitions:
* `Graph.Grows`: one turn.
* `Graph.IsGreedyWalk`: the paths of actions that begin, go on and end as a walk has to.

Results:
* `wellFounded_grows`: turns come to an end.
* `continues_iff`: what is walked from a path on.
* `greedy_walk_unique`: every workflow has one greedy walk, its path.
-/

namespace RoleFlow

/-- The first member of a list with a property. -/
def IsFirst {α : Type} (p : α → Prop) (xs : List α) (x : α) : Prop :=
  ∃ before after, xs = before ++ x :: after ∧ p x ∧ ∀ y ∈ before, ¬ p y

theorem isFirst_iff_find? {α : Type} {p : α → Prop} {found : α → Bool}
    (h : ∀ x, found x = true ↔ p x) {xs : List α} {x : α} :
    IsFirst p xs x ↔ xs.find? found = some x := by
  rw [List.find?_eq_some_iff_append, IsFirst]
  constructor
  · rintro ⟨before, after, rfl, hx, hbefore⟩
    exact ⟨(h x).mpr hx, before, after, rfl, fun y hy => by simpa [← h] using hbefore y hy⟩
  · rintro ⟨hx, before, after, rfl, hbefore⟩
    exact ⟨before, after, rfl, (h x).mp hx, fun y hy => by simpa [← h] using hbefore y hy⟩

namespace Graph

/-! ## Turns -/

/-- An edge on which a path may go on: a sequence edge from its end to an action not on it. -/
structure GoesOn (g : Graph) (path : List String) (e : Edge) : Prop where
  source : path.getLast? = some e.source
  kind : e.kind = .sequence
  action : g.isAction e.target = true
  unmet : e.target ∉ path

/-- One turn of a walk: the path goes on along the first edge on which it may. -/
def Grows (g : Graph) (path longer : List String) : Prop :=
  ∃ e, IsFirst (g.GoesOn path) g.edges e ∧ longer = path ++ [e.target]

/-- A path of actions, the last nodes of their ids, that begins and goes on along the first edge
that fits, and ends where none does. -/
structure IsGreedyWalk (g : Graph) (workflow : String) (path : List Node) : Prop where
  nodes : ∀ n ∈ path, g.lastNode? n.id = some n ∧ n.kind = .action
  distinct : (path.map (·.id)).Nodup
  empty : path = [] ↔ ∀ e ∈ g.edges, e.source = workflow → g.isAction e.target = false
  start : ∀ first ∈ (path.map (·.id)).head?,
    ∃ e, IsFirst (fun e => e.source = workflow ∧ g.isAction e.target = true) g.edges e ∧
      e.target = first
  step : ∀ before next after, before ≠ [] → path.map (·.id) = before ++ next :: after →
    g.Grows before (before ++ [next])
  stop : ∀ last ∈ (path.map (·.id)).getLast?, ∀ e ∈ g.edges, e.source = last →
    e.kind = .sequence → e.target ∈ path.map (·.id) ∨ g.isAction e.target = false

variable {g : Graph} {workflow current id : String} {met path rest longer : List String}

theorem nextStep?_eq_find? (g : Graph) (met : List String) (current : String) :
    g.nextStep? met current = (g.edges.find? fun e => e.source == current && e.kind == .sequence &&
      (!met.contains e.target && g.isAction e.target)).map (·.target) := by
  rw [nextStep?, outgoing, List.find?_map, List.find?_filter, List.find?_filter]
  congr 2
  funext e
  rw [Bool.eq_iff_iff]
  simp [and_assoc]

/-- The next step of a walk is the turn of the path that has been met. -/
theorem nextStep?_eq_some_iff (hmet : ∀ id, id ∈ met ↔ id ∈ path)
    (hlast : path.getLast? = some current) :
    g.nextStep? met current = some id ↔ g.Grows path (path ++ [id]) := by
  have hfits : ∀ e : Edge, (e.source == current && e.kind == .sequence &&
      (!met.contains e.target && g.isAction e.target)) = true ↔ g.GoesOn path e := by
    intro e
    simp only [Bool.and_eq_true, beq_iff_eq, Bool.not_eq_true', List.contains_eq_mem,
      decide_eq_false_iff_not, hmet]
    constructor
    · rintro ⟨⟨rfl, hkind⟩, hunmet, haction⟩
      exact ⟨hlast, hkind, haction, hunmet⟩
    · rintro ⟨hsource, hkind, haction, hunmet⟩
      exact ⟨⟨Option.some.inj (hsource.symm.trans hlast), hkind⟩, hunmet, haction⟩
  rw [nextStep?_eq_find?, Option.map_eq_some_iff, Grows]
  refine exists_congr fun e => ?_
  rw [isFirst_iff_find? hfits]
  simp [eq_comm]

/-- No step is left where the path has no edge to go on. -/
theorem nextStep?_eq_none_iff_path (hmet : ∀ id, id ∈ met ↔ id ∈ path)
    (hlast : path.getLast? = some current) :
    g.nextStep? met current = none ↔ ∀ e ∈ g.edges, ¬ g.GoesOn path e := by
  rw [nextStep?_eq_none_iff]
  constructor
  · intro h e he hgoes
    obtain ⟨hsource, hkind, haction, hunmet⟩ := hgoes
    rw [hlast, Option.some.injEq] at hsource
    exact hunmet ((hmet _).mp (h _ ⟨haction, e, he, hsource.symm, hkind, rfl⟩))
  · rintro h id ⟨haction, e, he, rfl, hkind, rfl⟩
    by_contra hunmet
    exact h e he ⟨hlast, hkind, haction, fun hmem => hunmet ((hmet _).mpr hmem)⟩

/-- A path cannot go on if the sequence edges from its end lead back to it, or not to actions. -/
theorem not_goesOn_iff :
    (∀ e ∈ g.edges, ¬ g.GoesOn path e) ↔ ∀ last ∈ path.getLast?, ∀ e ∈ g.edges, e.source = last →
      e.kind = .sequence → e.target ∈ path ∨ g.isAction e.target = false := by
  constructor
  · rintro h last hlast e he rfl hkind
    by_contra hgoes
    obtain ⟨hunmet, haction⟩ := not_or.mp hgoes
    exact h e he ⟨hlast, hkind, Bool.eq_true_of_not_eq_false haction, hunmet⟩
  · intro h e he hgoes
    rcases h e.source hgoes.source e he rfl hgoes.kind with hmet | haction
    · exact hgoes.unmet hmet
    · rw [hgoes.action] at haction
      cases haction

theorem unmet_congr (h : ∀ id, id ∈ met ↔ id ∈ path) : g.unmet met = g.unmet path := by
  unfold unmet
  congr 1
  funext n
  rw [Bool.eq_iff_iff]
  simp [h]

/-- Every turn leaves fewer nodes that are not on the path. -/
theorem unmet_lt_of_grows (h : g.Grows path longer) : g.unmet longer < g.unmet path := by
  obtain ⟨e, hfirst, rfl⟩ := h
  obtain ⟨-, -, -, hgoes, -⟩ := id hfirst
  have hstep : g.nextStep? path e.source = some e.target :=
    (nextStep?_eq_some_iff (fun _ => Iff.rfl) hgoes.source).mpr ⟨e, hfirst, rfl⟩
  have hsame : g.unmet (path ++ [e.target]) = g.unmet (e.target :: path) :=
    unmet_congr fun id => by simp [or_comm]
  rw [hsame]
  exact unmet_lt hstep

/-- No path goes on without end. -/
theorem wellFounded_grows (g : Graph) : WellFounded fun longer path => g.Grows path longer :=
  Subrelation.wf unmet_lt_of_grows (measure g.unmet).wf

/-! ## Paths that go on as far as they can -/

/-- From the path on, the rest is walked in turns, and after it there is none. -/
structure Continues (g : Graph) (path rest : List String) : Prop where
  step : ∀ before id after, rest = before ++ id :: after →
    g.Grows (path ++ before) (path ++ before ++ [id])
  stop : ∀ e ∈ g.edges, ¬ g.GoesOn (path ++ rest) e

theorem continues_nil_iff : g.Continues path [] ↔ ∀ e ∈ g.edges, ¬ g.GoesOn path e := by
  constructor
  · intro h
    simpa using h.stop
  · intro h
    exact ⟨fun before id after heq => by simp at heq, by simpa using h⟩

theorem continues_cons_iff :
    g.Continues path (id :: rest) ↔
      g.Grows path (path ++ [id]) ∧ g.Continues (path ++ [id]) rest := by
  constructor
  · intro h
    refine ⟨by simpa using h.step [] id rest rfl, fun before other after heq => ?_, ?_⟩
    · simpa using h.step (id :: before) other after (by rw [heq]; rfl)
    · simpa using h.stop
  · rintro ⟨hfirst, hmore⟩
    refine ⟨fun before other after heq => ?_, by simpa using hmore.stop⟩
    cases before with
    | nil =>
      obtain ⟨rfl, -⟩ := List.cons.inj heq
      simpa using hfirst
    | cons x before =>
      obtain ⟨rfl, htail⟩ := List.cons.inj heq
      simpa using hmore.step before other after htail

/-- What is walked from the end of a path on is all that can be. -/
theorem continues_iff (hmet : ∀ id, id ∈ met ↔ id ∈ path) (hlast : path.getLast? = some current) :
    g.Continues path rest ↔ rest = g.walkFrom met current := by
  -- A step puts its id at the end of the path and in front of what is met: only the members agree.
  induction rest generalizing path met current with
  | nil =>
    rw [continues_nil_iff, ← nextStep?_eq_none_iff_path hmet hlast]
    constructor
    · exact fun h => (walkFrom_none h).symm
    · intro h
      cases hstep : g.nextStep? met current with
      | none => rfl
      | some id =>
        rw [walkFrom_some hstep] at h
        cases h
  | cons x rest ih =>
    have hmet' : ∀ id, id ∈ x :: met ↔ id ∈ path ++ [x] := fun id => by simp [hmet, or_comm]
    rw [continues_cons_iff, ih hmet' List.getLast?_concat, ← nextStep?_eq_some_iff hmet hlast]
    constructor
    · rintro ⟨hstep, rfl⟩
      rw [walkFrom_some hstep]
    · intro h
      cases hstep : g.nextStep? met current with
      | none =>
        rw [walkFrom_none hstep] at h
        cases h
      | some id =>
        rw [walkFrom_some hstep] at h
        cases h
        exact ⟨rfl, rfl⟩

/-! ## Walks of workflows -/

theorem startOf?_eq_find? (g : Graph) (workflow : String) :
    g.startOf? workflow =
      (g.edges.find? fun e => e.source == workflow && g.isAction e.target).map (·.target) := by
  rw [startOf?, outgoing, List.find?_map, List.find?_filter]
  congr 2
  funext e
  rw [Bool.eq_iff_iff]
  simp

theorem startOf?_eq_some_iff :
    g.startOf? workflow = some id ↔
      ∃ e, IsFirst (fun e => e.source = workflow ∧ g.isAction e.target = true) g.edges e ∧
        e.target = id := by
  rw [startOf?_eq_find?, Option.map_eq_some_iff]
  refine exists_congr fun e => ?_
  rw [isFirst_iff_find? fun e : Edge => (by simp :
    (e.source == workflow && g.isAction e.target) = true ↔ _)]

theorem startOf?_eq_none_iff :
    g.startOf? workflow = none ↔
      ∀ e ∈ g.edges, e.source = workflow → g.isAction e.target = false := by
  rw [startOf?_eq_find?, Option.map_eq_none_iff, List.find?_eq_none]
  simp

theorem lastNode?_of_isAction (h : g.isAction id = true) :
    ∃ n, g.lastNode? id = some n ∧ n.id = id ∧ n.kind = .action := by
  unfold isAction at h
  split at h
  · next n hn => exact ⟨n, hn, by simpa using List.find?_some hn, by simpa using h⟩
  · cases h

/-- The nodes of a path, found by their ids, have these ids. -/
theorem map_id_filterMap {ids : List String} (h : ∀ id ∈ ids, g.isAction id = true) :
    (ids.filterMap g.lastNode?).map (·.id) = ids := by
  induction ids with
  | nil => rfl
  | cons id ids ih =>
    obtain ⟨hid, hids⟩ := List.forall_mem_cons.mp h
    obtain ⟨n, hn, rfl, -⟩ := lastNode?_of_isAction hid
    rw [List.filterMap_cons_some hn, List.map_cons, ih hids]

theorem ids_sequencePath (g : Graph) (workflow : String) :
    (g.sequencePath workflow).map (·.id) = g.sequenceIds workflow :=
  map_id_filterMap fun _ => isAction_of_mem_sequenceIds

/-- Nodes that are the last ones of their ids are found by them. -/
theorem filterMap_map_id {nodes : List Node} (h : ∀ n ∈ nodes, g.lastNode? n.id = some n) :
    (nodes.map (·.id)).filterMap g.lastNode? = nodes := by
  rw [List.filterMap_map]
  exact (List.filterMap_congr h).trans List.filterMap_some

/-- The ids of a walk: those that begin and go on as a walk has to. -/
theorem eq_sequenceIds_iff {ids : List String} :
    ids = g.sequenceIds workflow ↔ ids.head? = g.startOf? workflow ∧
      ∀ first rest, ids = first :: rest → g.Continues [first] rest := by
  have hcontinues : ∀ first rest, g.Continues [first] rest ↔ rest = g.walkFrom [first] first :=
    fun first rest => continues_iff (fun _ => Iff.rfl) rfl
  rw [sequenceIds]
  cases hfirst : g.startOf? workflow with
  | none =>
    rw [List.head?_eq_none_iff]
    exact ⟨fun h => ⟨h, fun first rest heq => by rw [h] at heq; cases heq⟩, fun h => h.1⟩
  | some first =>
    constructor
    · rintro rfl
      refine ⟨rfl, fun x rest heq => ?_⟩
      obtain ⟨rfl, rfl⟩ := List.cons.inj heq
      exact (hcontinues _ _).mpr rfl
    · rintro ⟨hhead, hrest⟩
      obtain ⟨rest, rfl⟩ := List.head?_eq_some_iff.mp hhead
      exact congrArg (first :: ·) ((hcontinues first rest).mp (hrest first rest rfl))

theorem nodup_sequenceIds (g : Graph) (workflow : String) : (g.sequenceIds workflow).Nodup := by
  rw [sequenceIds]
  cases g.startOf? workflow with
  | none => exact .nil
  | some first =>
    obtain ⟨hnodup, hunmet⟩ := nodup_walkFrom g [first] first
    exact List.nodup_cons.mpr ⟨fun hmem => hunmet first hmem (by simp), hnodup⟩

/-- The path of a workflow begins, goes on and ends as a walk has to. -/
theorem isGreedyWalk_sequencePath (g : Graph) (workflow : String) :
    g.IsGreedyWalk workflow (g.sequencePath workflow) := by
  have hids := g.ids_sequencePath workflow
  obtain ⟨hhead, hcontinues⟩ := eq_sequenceIds_iff.mp hids
  constructor
  case nodes =>
    intro n hn
    refine ⟨?_, (mem_sequencePath hn).2⟩
    obtain ⟨id, -, hlast⟩ := List.mem_filterMap.mp hn
    have hid : n.id = id := by simpa using List.find?_some hlast
    rwa [hid]
  case distinct =>
    rw [hids]
    exact g.nodup_sequenceIds workflow
  case empty =>
    rw [← startOf?_eq_none_iff, ← hhead, List.head?_eq_none_iff, List.map_eq_nil_iff]
  case start =>
    intro first hfirst
    rw [hhead] at hfirst
    exact startOf?_eq_some_iff.mp hfirst
  case step =>
    intro before next after hne hsplit
    obtain ⟨first, before, rfl⟩ := List.exists_cons_of_ne_nil hne
    exact (hcontinues first _ hsplit).step before next after rfl
  case stop =>
    refine not_goesOn_iff.mp ?_
    cases hcases : (g.sequencePath workflow).map (·.id) with
    | nil =>
      intro e _ hgoes
      cases hgoes.source
    | cons first rest => exact (hcontinues first rest hcases).stop

/-- A path that begins, goes on and ends as a walk has to is that of the workflow. -/
theorem IsGreedyWalk.eq_sequencePath {path : List Node} (h : g.IsGreedyWalk workflow path) :
    path = g.sequencePath workflow := by
  have hids : path.map (·.id) = g.sequenceIds workflow := by
    refine eq_sequenceIds_iff.mpr ⟨?_, fun first rest hsplit => ⟨?_, ?_⟩⟩
    · cases hfirst : (path.map (·.id)).head? with
      | none =>
        have hnil : path = [] := by simpa using hfirst
        exact (startOf?_eq_none_iff.mpr (h.empty.mp hnil)).symm
      | some first => exact (startOf?_eq_some_iff.mpr (h.start first hfirst)).symm
    · rintro before id after rfl
      exact h.step (first :: before) id after (by simp) hsplit
    · have hstop := not_goesOn_iff.mpr h.stop
      rwa [hsplit] at hstop
  rw [sequencePath, ← hids, filterMap_map_id fun n hn => (h.nodes n hn).1]

/-- Walks come to an end, in whatever way they have begun, and the path of a workflow is the one
walk that is greedy. -/
theorem greedy_walk_unique (g : Graph) (workflow : String) :
    (WellFounded fun longer path => g.Grows path longer) ∧
      ∀ path, g.IsGreedyWalk workflow path ↔ path = g.sequencePath workflow :=
  ⟨g.wellFounded_grows, fun _ =>
    ⟨IsGreedyWalk.eq_sequencePath, fun h => h ▸ g.isGreedyWalk_sequencePath workflow⟩⟩

end Graph

end RoleFlow
