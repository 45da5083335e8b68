import Mathlib.Data.List.Nodup
import Mathlib.Data.List.Perm.Subperm
import RoleFlow.Graph.Edit
import RoleFlow.Proofs.Building

/-!
# What an edit does

An edit that succeeds sets attributes of the first node of an id, adds one edge at the end, or
removes the first edge of an id. A new edge gets an id that no edge has: more ids are tried than
there are edges.

Results:
* `newEdgeId_notMem`: the id of a new edge is free.
* `Edit.does_of_apply`: all that an edit does.
-/

namespace RoleFlow

/-! ## Changed nodes -/

/-- The second node is the first one with new values for some attributes, and all else as it was. -/
structure Node.ChangedBy (c : NodeChange) (n m : Node) : Prop where
  id : m.id = n.id
  kind : m.kind = n.kind
  position : m.position = n.position
  label : m.label = c.label.getD n.label
  description : m.data.get? "description" = c.description.or (n.data.get? "description")
  inputs : m.data.get? "inputs" =
    (c.inputs.map fun names => Json.ofStrings (cleanNames names)).or (n.data.get? "inputs")
  outputs : m.data.get? "outputs" =
    (c.outputs.map fun names => Json.ofStrings (cleanNames names)).or (n.data.get? "outputs")
  others : ∀ member ∉ ["description", "inputs", "outputs"],
    m.data.get? member = n.data.get? member

theorem get?_putSome (data : Fields) (name other : String) (value : Option Json) :
    Fields.get? (putSome data name value) other =
      if name = other then value.or (data.get? other) else data.get? other := by
  cases value with
  | none => exact (ite_self _).symm
  | some json => exact Fields.get?_put data name other json

theorem Node.changedBy_changed (n : Node) (c : NodeChange) : n.ChangedBy c (n.changed c) where
  id := rfl
  kind := rfl
  position := rfl
  label := rfl
  description := by simp [changed, get?_putSome]
  inputs := by simp [changed, get?_putSome]
  outputs := by simp [changed, get?_putSome]
  others member h := by
    simp only [List.mem_cons, List.not_mem_nil, or_false, not_or] at h
    obtain ⟨hdescription, hinputs, houtputs⟩ := h
    simp [changed, get?_putSome, Ne.symm hdescription, Ne.symm hinputs, Ne.symm houtputs]

namespace Graph

variable {g : Graph} {id : String}

/-! ## Nodes and edges of an id -/

theorem find?_eq_some_split {α : Type} {key : α → String} {xs : List α} {x : α}
    (h : xs.find? (fun y => key y == id) = some x) :
    ∃ front back, xs = front ++ x :: back ∧ key x = id ∧ ∀ y ∈ front, key y ≠ id := by
  obtain ⟨hx, front, back, hsplit, hfront⟩ := List.find?_eq_some_iff_append.mp h
  exact ⟨front, back, hsplit, beq_iff_eq.mp hx, fun y hy => by simpa using hfront y hy⟩

theorem replaceNode_split {f : Node → Node} {n : Node} {front back : List Node} (hid : n.id = id)
    (hfront : ∀ m ∈ front, m.id ≠ id) :
    replaceNode id f (front ++ n :: back) = front ++ f n :: back := by
  induction front with
  | nil => exact if_pos hid
  | cons m front ih =>
    obtain ⟨hm, hmore⟩ := List.forall_mem_cons.mp hfront
    rw [List.cons_append, replaceNode, if_neg hm, ih hmore, List.cons_append]

theorem dropEdge_split {e : Edge} {front back : List Edge} (hid : e.id = id)
    (hfront : ∀ f ∈ front, f.id ≠ id) : dropEdge id (front ++ e :: back) = front ++ back := by
  unfold dropEdge
  rw [List.eraseP_append_right _ fun f hf => by simpa using hfront f hf,
    List.eraseP_cons_of_pos (by simpa using hid)]

theorem isSome_node?_iff : (g.node? id).isSome ↔ id ∈ g.nodes.map (·.id) := by
  unfold node?
  rw [List.find?_isSome, List.mem_map]
  simp only [beq_iff_eq]

/-! ## Ids of new edges -/

theorem nodup_edgeIds (g : Graph) (source target : String) : (g.edgeIds source target).Nodup := by
  unfold edgeIds
  refine List.nodup_cons.mpr ⟨fun hmem => ?_, List.nodup_range.map fun a b h => ?_⟩
  · obtain ⟨i, -, hi⟩ := List.mem_map.mp hmem
    have hlength := congrArg (fun s : String => s.toList.length) hi
    simp at hlength
  · have hdigits : digitsOf (a + 1) = digitsOf (b + 1) := by
      have hlist := congrArg String.toList h
      simpa [String.toList_inj] using hlist
    have := digitsOf_inj.mp hdigits
    omega

theorem length_edgeIds (g : Graph) (source target : String) :
    (g.edgeIds source target).length = g.edges.length + 1 := by
  simp [edgeIds]

/-- More ids are tried than are taken, so one of them is free. -/
theorem newEdgeId_notMem (g : Graph) (source target : String) :
    g.newEdgeId source target ∉ g.edges.map (·.id) := by
  unfold newEdgeId
  dsimp only
  cases hfind : (g.edgeIds source target).find? fun id => !(g.edges.map (·.id)).contains id with
  | some id => simpa using List.find?_some hfind
  | none =>
    have hsubset : g.edgeIds source target ⊆ g.edges.map (·.id) := fun id hid => by
      simpa using List.find?_eq_none.mp hfind id hid
    have hlength := ((nodup_edgeIds g source target).subperm hsubset).length_le
    rw [length_edgeIds, List.length_map] at hlength
    omega

end Graph

/-! ## Edits -/

/-- What an edit does that succeeds: the node or edge that it is about, as it is after the edit or
was before it was removed, and the graph after the edit. -/
inductive Edit.Does : Edit → Graph → Touched → Graph → Prop
  | update {id : String} {change : NodeChange} {g : Graph} {front back : List Node} {n m : Node}
    (hnodes : g.nodes = front ++ n :: back) (hid : n.id = id)
    (hfirst : ∀ other ∈ front, other.id ≠ id) (hchanged : n.ChangedBy change m) :
    Does (.update id change) g (.node m) { g with nodes := front ++ m :: back }
  | move {id : String} {x y : Double} {g : Graph} {front back : List Node} {n : Node}
    (hnodes : g.nodes = front ++ n :: back) (hid : n.id = id)
    (hfirst : ∀ other ∈ front, other.id ≠ id) :
    Does (.move id x y) g (.node { n with position := some [("x", x), ("y", y)] })
      { g with nodes := front ++ { n with position := some [("x", x), ("y", y)] } :: back }
  | connect {source target : String} {sourceHandle targetHandle : Option String} {g : Graph}
    {e : Edge} (hsource : source ∈ g.nodes.map (·.id)) (htarget : target ∈ g.nodes.map (·.id))
    (hends : e.source = source ∧ e.target = target)
    (hhandles : e.sourceHandle = sourceHandle ∧ e.targetHandle = targetHandle)
    (hfresh : e.id ∉ g.edges.map (·.id)) :
    Does (.connect source target sourceHandle targetHandle) g (.edge e)
      { g with edges := g.edges ++ [e] }
  | disconnect {id : String} {g : Graph} {front back : List Edge} {e : Edge}
    (hedges : g.edges = front ++ e :: back) (hid : e.id = id)
    (hfirst : ∀ other ∈ front, other.id ≠ id) :
    Does (.disconnect id) g (.edge e) { g with edges := front ++ back }

namespace Edit

variable {g after : Graph} {edit : Edit} {touched : Touched}

theorem changeNode_eq_ok {id : String} {f : Node → Node}
    (h : g.changeNode id f = .ok (touched, after)) :
    ∃ front n back, g.nodes = front ++ n :: back ∧ n.id = id ∧ (∀ m ∈ front, m.id ≠ id) ∧
      touched = .node (f n) ∧ after = { g with nodes := front ++ f n :: back } := by
  unfold Graph.changeNode at h
  cases hnode : g.node? id with
  | none =>
    rw [hnode] at h
    cases h
  | some n =>
    rw [hnode] at h
    obtain ⟨front, back, hnodes, hid, hfront⟩ := Graph.find?_eq_some_split hnode
    cases h
    exact ⟨front, n, back, hnodes, hid, hfront, rfl, by
      rw [hnodes, Graph.replaceNode_split hid hfront]⟩

/-- All that an edit does. -/
theorem does_of_apply (h : edit.apply g = .ok (touched, after)) : edit.Does g touched after := by
  cases edit with
  | update id change =>
    obtain ⟨front, n, back, hnodes, hid, hfront, rfl, rfl⟩ := changeNode_eq_ok h
    exact .update hnodes hid hfront (n.changedBy_changed change)
  | move id x y =>
    obtain ⟨front, n, back, hnodes, hid, hfront, rfl, rfl⟩ := changeNode_eq_ok h
    exact .move hnodes hid hfront
  | connect source target sourceHandle targetHandle =>
    cases hsource : g.node? source with
    | none =>
      rw [apply, Graph.checkEnds, hsource] at h
      cases h
    | some n =>
      cases htarget : g.node? target with
      | none =>
        rw [apply, Graph.checkEnds, hsource, htarget] at h
        cases h
      | some m =>
        rw [apply, Graph.checkEnds, hsource, htarget] at h
        cases h
        refine .connect ?_ ?_ ⟨rfl, rfl⟩ ⟨rfl, rfl⟩ (Graph.newEdgeId_notMem g source target)
        · exact Graph.isSome_node?_iff.mp (Option.isSome_of_eq_some hsource)
        · exact Graph.isSome_node?_iff.mp (Option.isSome_of_eq_some htarget)
  | disconnect id =>
    cases hedge : g.edge? id with
    | none =>
      rw [apply, hedge] at h
      cases h
    | some e =>
      rw [apply, hedge] at h
      obtain ⟨front, back, hedges, hid, hfront⟩ := Graph.find?_eq_some_split hedge
      cases h
      rw [hedges, Graph.dropEdge_split hid hfront]
      exact .disconnect hedges hid hfront

end Edit

/-- The graph after an edit is the same if the edit fails, and what the edit makes of it if not. -/
theorem Graph.edited_cases (g : Graph) (edit : Edit) :
    g.edited edit = g ∨ ∃ touched, edit.Does g touched (g.edited edit) := by
  unfold edited
  cases happly : edit.apply g with
  | error e => exact .inl rfl
  | ok result => exact .inr ⟨result.1, Edit.does_of_apply happly⟩

end RoleFlow
