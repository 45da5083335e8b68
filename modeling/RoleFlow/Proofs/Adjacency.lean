import Mathlib.Data.List.Induction
import RoleFlow.Graph.Walk
import RoleFlow.Proofs.Links

/-!
# The index of edges tells what scanning tells

The edges of a graph are listed by source and kind. Adding an edge to the index makes its list one
longer, or begins one, and leaves all other lists as they are. So the list of a source and a kind is
what scanning the edges finds, and nothing is listed twice or left out.

Main definitions:
* `Edge.key`: the place of an edge in the index.
* `Adjacency.edgesAt`: the list at a place.

Results:
* `edgesAt_insert`, `keys_insert`, `perm_insert`, `IsFiled.insert`: what adding an edge does to the
  index.
* `adjacency_tells_scan`: the index of a graph.
* `nextStep?_adjacency`: a step of a walk may look the sequence edges up.
-/

namespace RoleFlow

/-- The place of an edge in the index. -/
abbrev Edge.key (e : Edge) : String × EdgeKind := (e.source, e.kind)

namespace Graph

namespace Adjacency

variable {index : Adjacency} {e : Edge}

/-- The list at a place, empty where there is none. -/
def edgesAt (index : Adjacency) (key : String × EdgeKind) : List Edge := (index.lookup key).getD []

/-- The places, in order. -/
def keys (index : Adjacency) : List (String × EdgeKind) := index.map (·.1)

/-- The edges of all lists, one list after the other. -/
def edges (index : Adjacency) : List Edge := index.flatMap (·.2)

/-- No list is empty, and the edges of a list belong at its place. -/
def IsFiled (index : Adjacency) : Prop :=
  ∀ entry ∈ index, entry.2 ≠ [] ∧ ∀ e ∈ entry.2, e.key = entry.1

/-! ## Adding an edge -/

theorem edgesAt_cons (key other : String × EdgeKind) (es : List Edge) :
    edgesAt ((other, es) :: index) key = if key = other then es else index.edgesAt key := by
  rw [edgesAt, List.lookup_cons]
  by_cases h : key = other
  · simp [h]
  · simp [h, beq_false_of_ne h, edgesAt]

theorem edgesAt_insert (index : Adjacency) (e : Edge) (key : String × EdgeKind) :
    (index.insert e).edgesAt key =
      if e.key = key then index.edgesAt key ++ [e] else index.edgesAt key := by
  induction index with
  | nil =>
    rw [insert, edgesAt_cons]
    by_cases h : e.key = key
    · simp [h, edgesAt]
    · simp [h, Ne.symm h, edgesAt]
  | cons entry index ih =>
    obtain ⟨other, es⟩ := entry
    rw [insert]
    split
    · next hother =>
      rw [edgesAt_cons, edgesAt_cons, hother]
      by_cases h : e.key = key
      · simp [h]
      · simp [h, Ne.symm h]
    · next hother =>
      rw [edgesAt_cons, edgesAt_cons, ih]
      by_cases h : key = other
      · have hne : e.key ≠ key := fun heq => hother (h.symm.trans heq.symm)
        simp [h, h ▸ hne]
      · simp only [if_neg h]

theorem keys_insert (index : Adjacency) (e : Edge) :
    (index.insert e).keys = if e.key ∈ index.keys then index.keys else index.keys ++ [e.key] := by
  induction index with
  | nil => rfl
  | cons entry index ih =>
    obtain ⟨other, es⟩ := entry
    rw [insert]
    split
    · next hother => simp [keys, hother]
    · next hother =>
      have hmem : e.key ∈ keys ((other, es) :: index) ↔ e.key ∈ keys index := by
        simp [keys, Ne.symm hother]
      show other :: keys (Adjacency.insert index e) = _
      rw [ih]
      by_cases h : e.key ∈ keys index
      · rw [if_pos h, if_pos (hmem.mpr h)]
        rfl
      · rw [if_neg h, if_neg (mt hmem.mp h)]
        rfl

theorem perm_insert (index : Adjacency) (e : Edge) :
    (index.insert e).edges.Perm (index.edges ++ [e]) := by
  induction index with
  | nil => exact List.Perm.refl _
  | cons entry index ih =>
    obtain ⟨other, es⟩ := entry
    rw [insert]
    split
    · show (es ++ [e] ++ edges index).Perm (es ++ edges index ++ [e])
      rw [List.append_assoc, List.append_assoc]
      exact List.perm_append_comm.append_left es
    · show (es ++ edges (Adjacency.insert index e)).Perm (es ++ edges index ++ [e])
      rw [List.append_assoc]
      exact ih.append_left es

theorem IsFiled.insert (h : index.IsFiled) (e : Edge) : (index.insert e).IsFiled := by
  induction index with
  | nil => simp [IsFiled, Adjacency.insert]
  | cons entry index ih =>
    obtain ⟨other, es⟩ := entry
    obtain ⟨⟨hne, hes⟩, hindex⟩ := List.forall_mem_cons.mp h
    rw [Adjacency.insert]
    split
    · next hother =>
      refine List.forall_mem_cons.mpr ⟨⟨by simp, ?_⟩, hindex⟩
      exact List.forall_mem_append.mpr ⟨hes, List.forall_mem_singleton.mpr hother.symm⟩
    · exact List.forall_mem_cons.mpr ⟨⟨hne, hes⟩, ih hindex⟩

end Adjacency

/-! ## The index of a graph -/

/-- Induction on the edges that have been added to the index. -/
theorem adjacency_induction {motive : List Edge → Adjacency → Prop} (empty : motive [] [])
    (insert : ∀ es index e, motive es index → motive (es ++ [e]) (index.insert e)) (g : Graph) :
    motive g.edges g.adjacency := by
  rw [adjacency]
  induction g.edges using List.reverseRecOn with
  | nil => exact empty
  | append_singleton es e ih =>
    rw [List.foldl_append]
    exact insert es _ e ih

/-- The list at a place is what scanning finds. -/
theorem edgesAt_adjacency (g : Graph) (source : String) (kind : EdgeKind) :
    g.adjacency.edgesAt (source, kind) = (g.outgoing source).filter (·.kind == kind) := by
  have hscan : (g.outgoing source).filter (·.kind == kind) =
      g.edges.filter fun e => decide (e.key = (source, kind)) := by
    rw [outgoing, List.filter_filter]
    refine List.filter_congr fun e _ => ?_
    rw [Bool.eq_iff_iff]
    simp [and_comm]
  rw [hscan]
  refine adjacency_induction (motive := fun es index =>
    index.edgesAt (source, kind) = es.filter fun e => decide (e.key = (source, kind))) rfl ?_ g
  intro es index e ih
  rw [Adjacency.edgesAt_insert, ih, List.filter_append, List.filter_singleton]
  by_cases h : e.key = (source, kind)
  · simp [h]
  · simp [h]

theorem keys_adjacency (g : Graph) : g.adjacency.keys = (g.edges.map Edge.key).eraseDups := by
  refine adjacency_induction (motive := fun es index =>
    index.keys = (es.map Edge.key).eraseDups) rfl ?_ g
  intro es index e ih
  rw [Adjacency.keys_insert, ih, List.map_append, List.eraseDups_append, List.map_singleton]
  simp only [List.mem_eraseDups]
  by_cases h : e.key ∈ es.map Edge.key
  · have hnone : [e.key].removeAll (es.map Edge.key) = [] :=
      List.filter_cons_of_neg (by simpa using h)
    rw [if_pos h, hnone]
    exact (List.append_nil _).symm
  · have hsome : [e.key].removeAll (es.map Edge.key) = [e.key] :=
      List.filter_cons_of_pos (by simpa using h)
    rw [if_neg h, hsome]
    rfl

theorem perm_adjacency (g : Graph) : g.adjacency.edges.Perm g.edges := by
  refine adjacency_induction (motive := fun es index => index.edges.Perm es) (List.Perm.refl _) ?_ g
  intro es index e ih
  exact (index.perm_insert e).trans (ih.append_right [e])

theorem isFiled_adjacency (g : Graph) : g.adjacency.IsFiled := by
  refine adjacency_induction (motive := fun _ index => index.IsFiled) ?_ ?_ g
  · exact fun entry hentry => absurd hentry List.not_mem_nil
  · exact fun _ _ e h => h.insert e

/-- Every edge is in one list only, that of its place. -/
theorem existsUnique_entry {g : Graph} {e : Edge} (he : e ∈ g.edges) :
    ∃! entry, entry ∈ g.adjacency ∧ e ∈ entry.2 := by
  obtain ⟨entry, hentry, hmem⟩ := List.mem_flatMap.mp (g.perm_adjacency.mem_iff.mpr he)
  refine ⟨entry, ⟨hentry, hmem⟩, fun other hother => ?_⟩
  have hnodup : g.adjacency.keys.Nodup := by
    rw [keys_adjacency]
    exact nodup_eraseDups _
  refine List.inj_on_of_nodup_map hnodup hother.1 hentry ?_
  rw [← (g.isFiled_adjacency other hother.1).2 e hother.2,
    (g.isFiled_adjacency entry hentry).2 e hmem]

/-- The index of a graph tells what scanning its edges tells.

* The list of a source and a kind is that of the edges of this kind that leave the source, in edge
  order; it is empty where the index has none.
* The places stand in the order of their first edges, and no list is empty.
* The lists together hold every edge as often as the graph has it, and no edge is in two of them. -/
theorem adjacency_tells_scan (g : Graph) :
    (∀ source kind, (g.adjacency.lookup (source, kind)).getD [] =
      (g.outgoing source).filter (·.kind == kind)) ∧
    g.adjacency.map (·.1) = (g.edges.map fun e => (e.source, e.kind)).eraseDups ∧
    (∀ entry ∈ g.adjacency, entry.2 ≠ []) ∧
    (g.adjacency.flatMap (·.2)).Perm g.edges ∧
    ∀ e ∈ g.edges, ∃! entry, entry ∈ g.adjacency ∧ e ∈ entry.2 :=
  ⟨g.edgesAt_adjacency, g.keys_adjacency, fun entry hentry => (g.isFiled_adjacency entry hentry).1,
    g.perm_adjacency, fun _ he => existsUnique_entry he⟩

/-- Where a walk goes on is told by the list of sequence edges at its last action. -/
theorem nextStep?_adjacency (g : Graph) (met : List String) (current : String) :
    g.nextStep? met current =
      ((g.adjacency.edgesAt (current, .sequence)).map (·.target)).find? fun id =>
        !met.contains id && g.isAction id := by
  rw [edgesAt_adjacency, nextStep?]

end Graph

end RoleFlow
