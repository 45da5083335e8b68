import RoleFlow.Proofs.Soundness

/-!
# A connection can be undone

A new edge gets an id that no edge has, and so does every edge after it. Until the edge is removed,
its id is that of no other edge, whatever ids other edges share. So its removal takes this edge and
no other, however late it comes, and right after the connection it leaves the draft as it was.

Main definitions:
* `Graph.OwnsId`: an edge is the only one of its id.

Results:
* `Edit.Does.ownsId`: what an edit keeps that is not the removal of the edge.
* `apply_disconnect`: what is removed.
* `disconnect_of_connect`: the removal of a connection, at once or after any number of requests.
-/

namespace RoleFlow

/-- The edge is there, and no other edge has its id. -/
def Graph.OwnsId (g : Graph) (e : Edge) : Prop := g.edges.filter (·.id == e.id) = [e]

namespace Graph.OwnsId

variable {g : Graph} {e : Edge}

theorem mem (h : g.OwnsId e) : e ∈ g.edges :=
  (List.mem_filter.mp (h ▸ List.mem_singleton_self e : e ∈ g.edges.filter (·.id == e.id))).1

theorem split (h : g.OwnsId e) :
    ∃ front back, g.edges = front ++ e :: back ∧ ∀ f ∈ front ++ back, f.id ≠ e.id := by
  obtain ⟨front, back, hedges, hfront, -, hback⟩ := List.filter_eq_cons_iff.mp h
  rw [List.filter_eq_nil_iff] at hback
  refine ⟨front, back, hedges, List.forall_mem_append.mpr ⟨fun f hf => ?_, fun f hf => ?_⟩⟩
  · simpa using hfront f hf
  · simpa using hback f hf

theorem of_fresh (h : e.id ∉ g.edges.map (·.id)) : OwnsId { g with edges := g.edges ++ [e] } e := by
  have hothers : g.edges.filter (·.id == e.id) = [] :=
    List.filter_eq_nil_iff.mpr fun f hf hid =>
      h (List.mem_map.mpr ⟨f, hf, beq_iff_eq.mp hid⟩)
  show (g.edges ++ [e]).filter _ = [e]
  rw [List.filter_append, hothers]
  simp

end Graph.OwnsId

/-! ## Edits -/

namespace Edit

variable {g after : Graph} {edit : Edit} {touched : Touched} {e : Edge}

/-- An edit keeps an edge and its id apart, unless it is the removal of this edge. -/
theorem Does.ownsId (h : edit.Does g touched after) (hedit : edit ≠ .disconnect e.id)
    (he : g.OwnsId e) : after.OwnsId e := by
  cases h with
  | update => exact he
  | move => exact he
  | @connect _ _ _ _ _ f _ _ _ _ hfresh =>
    have hother : f.id ≠ e.id := fun heq => hfresh (List.mem_map.mpr ⟨e, he.mem, heq.symm⟩)
    show (g.edges ++ [f]).filter _ = [e]
    rw [List.filter_append, he]
    simp [hother]
  | @disconnect id _ front back f hedges hid =>
    -- The removed edge has another id, so the edges of the id of `e` are the same after it.
    have hother : f.id ≠ e.id := fun heq =>
      hedit (congrArg Edit.disconnect (hid.symm.trans heq))
    rw [Graph.OwnsId, hedges] at he
    simpa [Graph.OwnsId, hother] using he

/-- The first edge of the id is removed. -/
theorem apply_disconnect {front back : List Edge} (hedges : g.edges = front ++ e :: back)
    (hfront : ∀ f ∈ front, f.id ≠ e.id) :
    (Edit.disconnect e.id).apply g = .ok (.edge e, { g with edges := front ++ back }) := by
  have hedge : g.edge? e.id = some e := by
    rw [Graph.edge?, hedges, List.find?_append, List.find?_eq_none.mpr fun f hf => by
      simpa using hfront f hf]
    simp
  rw [apply, hedge, hedges, Graph.dropEdge_split rfl hfront]

end Edit

/-! ## Requests -/

namespace Draft

variable {d : Draft} {e : Edge} {front back : List Edge}

theorem eq_of_editOf_disconnect {request : EditRequest} {id : String} {fault : Option RequestError}
    (h : d.editOf request = .ok (.disconnect id, fault)) : request = .disconnect (.str id) := by
  cases request with
  | update =>
    obtain ⟨_, _, _, hedit, _⟩ := EditRequest.editOf_update_eq_ok h
    cases hedit
  | connect =>
    obtain ⟨_, _, _, _, _, hconnection⟩ := EditRequest.editOf_connect_eq_ok h
    obtain ⟨_, _, _, _, hedit⟩ := connectionOf_eq_ok hconnection
    cases hedit
  | disconnect =>
    obtain ⟨name, rfl, -, hedit⟩ := EditRequest.editOf_disconnect_eq_ok h
    cases hedit
    rfl
  | move =>
    obtain ⟨_, _, _, _, hedit⟩ := EditRequest.editOf_move_eq_ok h
    cases hedit

/-- A request keeps an edge and its id apart, unless it asks for the removal of this edge. -/
theorem ownsId_after {request : EditRequest} (hrequest : request ≠ .disconnect (.str e.id))
    (he : d.graph.OwnsId e) : (d.after request).graph.OwnsId e := by
  rcases request.graph_after d with hsame | ⟨edit, fault, hedit, hedited⟩
  · rwa [hsame]
  · rw [hedited]
    rcases d.graph.edited_cases edit with hsame | ⟨touched, hdoes⟩
    · rwa [hsame]
    · refine hdoes.ownsId (fun heq => hrequest ?_) he
      rw [heq] at hedit
      exact eq_of_editOf_disconnect hedit

theorem ownsId_foldl_after {requests : List EditRequest}
    (hrequests : ∀ request ∈ requests, request ≠ .disconnect (.str e.id))
    (he : d.graph.OwnsId e) : (requests.foldl after d).graph.OwnsId e := by
  induction requests generalizing d with
  | nil => exact he
  | cons request requests ih =>
    obtain ⟨hrequest, hmore⟩ := List.forall_mem_cons.mp hrequests
    exact ih hmore (ownsId_after hrequest he)

/-- A request for a connection that succeeds adds an edge of a free id, and changes nothing else. -/
theorem after_connect {source target sourceHandle targetHandle : Json}
    (h : ((EditRequest.connect source target sourceHandle targetHandle).apply d).value.1 =
      .ok (.edge e)) :
    e.id ∉ d.graph.edges.map (·.id) ∧
      d.after (.connect source target sourceHandle targetHandle) =
        { d with graph := { d.graph with edges := d.graph.edges ++ [e] } } := by
  obtain ⟨edit, hmeans, hdoes, hlabels, hpositions⟩ := EditRequest.does_of_apply h
  generalize d.after _ = connected at hdoes hlabels hpositions
  obtain ⟨graph, labels, positions⟩ := connected
  cases hmeans
  cases hdoes with
  | connect hsource htarget hends hhandles hfresh =>
    obtain rfl : labels = d.rawLabels := hlabels
    obtain rfl : positions = d.rawPositions := hpositions
    exact ⟨hfresh, rfl⟩

/-- A request for the removal of an edge takes the first edge of the id. -/
theorem apply_disconnect (hedges : d.graph.edges = front ++ e :: back)
    (hfront : ∀ f ∈ front, f.id ≠ e.id) :
    ((EditRequest.disconnect (.str e.id)).apply d).value =
      (.ok (.edge e), { d with graph := { d.graph with edges := front ++ back } }) := by
  have happly := Edit.apply_disconnect hedges hfront
  have hedit : d.editOf (.disconnect (.str e.id)) = .ok (.disconnect e.id, none) := rfl
  have hgraph : d.graph.edited (.disconnect e.id) = { d.graph with edges := front ++ back } := by
    rw [Graph.edited, happly]
  rw [EditRequest.apply_of_editOf hedit, happly]
  simp only [edited, withRaw, hgraph]
  rfl

end Draft

/-- An edge that a connection has added is removed by its id, at once or after any number of
requests that do not ask for its removal: this edge and no other, and the others stay in their
order. At once this leaves all as it was, the program and its text included. -/
theorem disconnect_of_connect {d : Draft} {source target sourceHandle targetHandle : Json}
    {e : Edge} {done : List EditRequest}
    (h : ((EditRequest.connect source target sourceHandle targetHandle).apply d).value.1 =
      .ok (.edge e))
    (hdone : ∀ request ∈ done, request ≠ .disconnect (.str e.id)) :
    let removal : EditRequest := .disconnect (.str e.id)
    let connected := d.after (.connect source target sourceHandle targetHandle)
    let before := done.foldl Draft.after connected
    (removal.apply before).value.1 = .ok (.edge e) ∧
      (∃ front back, before.graph.edges = front ++ e :: back ∧
        (∀ f ∈ front ++ back, f.id ≠ e.id) ∧
        before.after removal =
          { before with graph := { before.graph with edges := front ++ back } }) ∧
      connected.after removal = d ∧
      (connected.after removal).reconcile = d.reconcile ∧
      (connected.after removal).text = d.text := by
  intro removal connected before
  obtain ⟨hfresh, hafter⟩ := Draft.after_connect h
  have hconnected :
      connected = { d with graph := { d.graph with edges := d.graph.edges ++ [e] } } :=
    hafter
  have howns : connected.graph.OwnsId e := by
    rw [hconnected]
    exact Graph.OwnsId.of_fresh hfresh
  have hrestored : connected.after removal = d := by
    have hothers : ∀ f ∈ d.graph.edges, f.id ≠ e.id := fun f hf heq =>
      hfresh (List.mem_map.mpr ⟨f, hf, heq⟩)
    have hremoval := Draft.apply_disconnect (d := connected) (by rw [hconnected]) hothers
    rw [Draft.after, hremoval, hconnected, List.append_nil]
  obtain ⟨front, back, hedges, hothers⟩ := (Draft.ownsId_foldl_after hdone howns).split
  have hremoval := Draft.apply_disconnect hedges fun f hf => hothers f (List.mem_append_left _ hf)
  refine ⟨congrArg Prod.fst hremoval, ⟨front, back, hedges, hothers, congrArg Prod.snd hremoval⟩,
    hrestored, ?_, ?_⟩
  · rw [hrestored]
  · rw [hrestored]

/-- Two edges share the id that a new one would get first, and the next free id is in a gap. -/
theorem disconnect_of_connect_shared :
    let node (id : String) : Node := ⟨id, .action, id, [("actor", .str "AI")], none⟩
    let edge (id : String) : Edge :=
      ⟨id, "a", "b", .sequence, "connects to", none, none, EdgeKind.sequence.style⟩
    let d := Draft.ofGraph
      ⟨[node "a", node "b"], [edge "edge_user_a_b", edge "edge_user_a_b_2", edge "edge_user_a_b"]⟩
    let connect : EditRequest := .connect (.str "a") (.str "b") .null .null
    let e := edge "edge_user_a_b_1"
    let done : List EditRequest :=
      [connect, .disconnect (.str "edge_user_a_b"),
        .update (.str "a") (some (.int 3)) none none none,
        .disconnect (.str "edge_user_a_b_2"), .disconnect .null, connect,
        .move (.str "b") Double.one .null]
    let removal : EditRequest := .disconnect (.str e.id)
    let connected := d.after connect
    let before := done.foldl Draft.after connected
    (connect.apply d).value.1 = .ok (.edge e) ∧
      (∀ request ∈ done, request ≠ .disconnect (.str e.id)) ∧
      (removal.apply before).value.1 = .ok (.edge e) ∧
      (∃ front back, before.graph.edges = front ++ e :: back ∧
        (∀ f ∈ front ++ back, f.id ≠ e.id) ∧
        before.after removal =
          { before with graph := { before.graph with edges := front ++ back } }) ∧
      connected.after removal = d ∧
      (connected.after removal).reconcile = d.reconcile ∧
      (connected.after removal).text = d.text := by
  intro node edge d connect e done removal connected before
  have hid : d.graph.newEdgeId "a" "b" = e.id := by decide +kernel
  have hedge : d.graph.newEdge "a" "b" none none = e := by
    rw [Graph.newEdge, hid]
    rfl
  have hconnect : (connect.apply d).value.1 = .ok (.edge e) := by
    have hedit : d.editOf connect = .ok (.connect "a" "b" none none, none) := rfl
    rw [EditRequest.apply_of_editOf hedit, ← hedge]
    rfl
  have hdone : ∀ request ∈ done, request ≠ .disconnect (.str e.id) := by
    simp [done, connect, e, edge]
  -- With their values at hand, the two sides would be compared by running the requests.
  clear_value d done e
  exact ⟨hconnect, hdone, disconnect_of_connect hconnect hdone⟩

end RoleFlow
