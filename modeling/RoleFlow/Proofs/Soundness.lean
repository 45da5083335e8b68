import RoleFlow.Graph.Draft
import RoleFlow.Proofs.Edits

/-!
# Sound graphs

A graph is sound if no two nodes and no two edges have one id, and if edges end at nodes. Whatever
an editor asks for, a sound graph stays sound and keeps its nodes. A request that names a node or an
edge that is not there changes nothing, and one that succeeds changes what it says and nothing else.

Main definitions:
* `Graph.IsSound`: ids are distinct, and edges end at nodes.
* `EditRequest.Does`: what a request does that succeeds.

Results:
* `kinds`, `isSound`: what an edit keeps.
* `EditRequest.does_of_apply`, `EditRequest.after_of_apply_error`: what comes of a request.
* `isSound_of_requests`: sound graphs after any number of requests.
-/

namespace RoleFlow

/-- No id is that of two nodes or of two edges, and edges end at nodes. -/
structure Graph.IsSound (g : Graph) : Prop where
  nodeIds : (g.nodes.map (·.id)).Nodup
  edgeIds : (g.edges.map (·.id)).Nodup
  ends : ∀ e ∈ g.edges, e.source ∈ g.nodes.map (·.id) ∧ e.target ∈ g.nodes.map (·.id)

/-- The ids and kinds of the nodes, in order. -/
def Graph.kinds (g : Graph) : List (String × NodeKind) := g.nodes.map fun n => (n.id, n.kind)

/-! ## Edits -/

namespace Edit.Does

variable {edit : Edit} {g after : Graph} {touched : Touched}

/-- An edit keeps the ids and kinds of the nodes. -/
theorem kinds (h : edit.Does g touched after) : after.kinds = g.kinds := by
  cases h with
  | update hnodes hid hfirst hchanged =>
    simp [Graph.kinds, hnodes, hchanged.id, hchanged.kind]
  | move hnodes hid hfirst => simp [Graph.kinds, hnodes]
  | connect => rfl
  | disconnect => rfl

theorem nodeIds (h : edit.Does g touched after) :
    after.nodes.map (·.id) = g.nodes.map (·.id) := by
  have hkinds := congrArg (List.map Prod.fst) h.kinds
  simpa [Graph.kinds, Function.comp_def] using hkinds

/-- An edit keeps a graph sound. -/
theorem isSound (h : edit.Does g touched after) (hg : g.IsSound) : after.IsSound := by
  have hids := h.nodeIds
  refine ⟨hids ▸ hg.nodeIds, ?_, ?_⟩
  · cases h with
    | update => exact hg.edgeIds
    | move => exact hg.edgeIds
    | @connect _ _ _ _ _ e _ _ _ _ hfresh =>
      rw [List.map_append, List.nodup_append_comm]
      exact List.nodup_cons.mpr ⟨hfresh, hg.edgeIds⟩
    | @disconnect _ _ front back e hedges =>
      have hsublist : (front ++ back).Sublist (front ++ e :: back) :=
        (List.Sublist.refl front).append (List.sublist_cons_self e back)
      exact hg.edgeIds.sublist (hedges ▸ hsublist.map _)
  · rw [hids]
    cases h with
    | update => exact hg.ends
    | move => exact hg.ends
    | @connect _ _ _ _ _ e hsource htarget hends =>
      intro f hf
      rcases List.mem_append.mp hf with hf | hf
      · exact hg.ends f hf
      · obtain rfl := List.mem_singleton.mp hf
        rw [hends.1, hends.2]
        exact ⟨hsource, htarget⟩
    | @disconnect _ _ front back e hedges =>
      intro f hf
      refine hg.ends f ?_
      rw [hedges]
      rcases List.mem_append.mp hf with hf | hf
      · exact List.mem_append_left _ hf
      · exact List.mem_append_right _ (List.mem_cons_of_mem _ hf)

end Edit.Does

/-! ## Requests -/

/-- The edit that a request of good shape means. -/
inductive EditRequest.Means : EditRequest → Edit → Prop
  | update {id : String} {label description inputs outputs : Option Json}
    {inputNames outputNames : Option (List String)} (hinputs : inputs.mapM namesIn = .ok inputNames)
    (houtputs : outputs.mapM namesIn = .ok outputNames) :
    Means (.update (.str id) label description inputs outputs)
      (.update id ⟨label.map Json.asText, description, inputNames, outputNames⟩)
  | connect {source target : String} {sourceHandle targetHandle : Option String} :
    Means (.connect (.str source) (.str target) (Json.ofString? sourceHandle)
      (Json.ofString? targetHandle)) (.connect source target sourceHandle targetHandle)
  | disconnect {id : String} : Means (.disconnect (.str id)) (.disconnect id)
  | move {id : String} {x y : Json} :
    Means (.move (.str id) x y) (.move id x.coordinate y.coordinate)

/-- The labels that are no texts after a request: a node gets the label that the request gives it,
and all other nodes keep theirs. -/
def EditRequest.SetsLabel (request : EditRequest) (before after : Draft) : Prop :=
  match request with
  | .update (.str id) (some label) _ _ _ =>
    ∀ place, after.rawLabel? place =
      if before.graph.firstPlace? id = some place then label.notText? else before.rawLabel? place
  | _ => after.rawLabels = before.rawLabels

/-- The positions that are no numbers after a request: a node that is moved stands where the request
puts it, and all other nodes stay. -/
def EditRequest.SetsPosition (request : EditRequest) (before after : Draft) : Prop :=
  match request with
  | .move (.str id) x y =>
    ∀ place, after.rawPosition? place =
      if before.graph.firstPlace? id = some place then notNumbers? x y
      else before.rawPosition? place
  | _ => after.rawPositions = before.rawPositions

/-- What a request does that succeeds. -/
def EditRequest.Does (request : EditRequest) (before : Draft) (touched : Touched) (after : Draft) :
    Prop :=
  ∃ edit, request.Means edit ∧ edit.Does before.graph touched after.graph ∧
    request.SetsLabel before after ∧ request.SetsPosition before after

/-- The draft after a request. -/
def Draft.after (d : Draft) (request : EditRequest) : Draft := (request.apply d).value.2

namespace Draft

variable {d : Draft}

theorem existingNode_eq_ok {json : Json} {id : String} (h : d.existingNode json = .ok id) :
    json = .str id ∧ (d.graph.node? id).isSome := by
  unfold existingNode at h
  split at h
  · next name =>
    split at h
    · next hsome =>
      cases h
      exact ⟨rfl, hsome⟩
    · cases h
  · cases h

/-- The value at a place, after a new one has been set at some place. -/
theorem lookup_setAt {α : Type} (place other : Nat) (value : Option α) (values : List (Nat × α)) :
    (setAt place value values).lookup other =
      if place = other then value else values.lookup other := by
  have hothers : (values.filter (·.1 != place)).lookup other =
      if place = other then none else values.lookup other := by
    induction values with
    | nil => exact (ite_self _).symm
    | cons entry values ih =>
      obtain ⟨key, found⟩ := entry
      by_cases hkey : key = place
      · subst hkey
        rw [List.filter_cons_of_neg (by simp), ih]
        split
        · rfl
        · next hne => rw [List.lookup_cons, beq_false_of_ne (Ne.symm hne)]
      · rw [List.filter_cons_of_pos (by simpa using hkey), List.lookup_cons, ih, List.lookup_cons]
        by_cases hother : other = key
        · simp [hother, Ne.symm hkey]
        · simp [beq_false_of_ne hother]
  cases value with
  | none => exact hothers
  | some value =>
    rw [setAt, List.lookup_cons]
    by_cases hplace : place = other
    · simp [hplace]
    · rw [if_neg hplace] at hothers
      simp [beq_false_of_ne (Ne.symm hplace), hplace, hothers]

theorem graph_withRaw (d : Draft) (request : EditRequest) :
    (d.withRaw request).graph = d.graph := by
  unfold withRaw
  split
  · unfold withLabel
    split <;> rfl
  · unfold withPosition
    split <;> rfl
  · rfl

theorem rawLabel?_withLabel (d : Draft) (id : String) (label : Json) (place : Nat) :
    (d.withLabel id label).rawLabel? place =
      if d.graph.firstPlace? id = some place then label.notText? else d.rawLabel? place := by
  unfold withLabel rawLabel?
  cases d.graph.firstPlace? id with
  | none => simp
  | some first => simp [lookup_setAt]

theorem rawPosition?_withPosition (d : Draft) (id : String) (x y : Json) (place : Nat) :
    (d.withPosition id x y).rawPosition? place =
      if d.graph.firstPlace? id = some place then notNumbers? x y else d.rawPosition? place := by
  unfold withPosition rawPosition?
  cases d.graph.firstPlace? id with
  | none => simp
  | some first => simp [lookup_setAt]

theorem rawPositions_withLabel (d : Draft) (id : String) (label : Json) :
    (d.withLabel id label).rawPositions = d.rawPositions := by
  unfold withLabel
  split <;> rfl

theorem rawLabels_withPosition (d : Draft) (id : String) (x y : Json) :
    (d.withPosition id x y).rawLabels = d.rawLabels := by
  unfold withPosition
  split <;> rfl

end Draft

/-! ## What is wrong with requests -/

theorem mapM_eq_error {α β ε : Type} {f : α → Except ε β} {xs : List α} {e : ε}
    (h : xs.mapM f = .error e) : ∃ x ∈ xs, f x = .error e := by
  induction xs with
  | nil => cases h
  | cons x xs ih =>
    rw [List.mapM_cons] at h
    cases hx : f x with
    | error e' =>
      rw [hx] at h
      cases h
      exact ⟨x, by simp, hx⟩
    | ok y =>
      cases hxs : xs.mapM f with
      | error e' =>
        rw [hx, hxs] at h
        cases h
        obtain ⟨z, hz, hfz⟩ := ih hxs
        exact ⟨z, List.mem_cons_of_mem _ hz, hfz⟩
      | ok ys =>
        rw [hx, hxs] at h
        cases h

/-- Names that cannot be read are no matter of missing nodes or edges. -/
theorem namesIn_ne_edit {json : Json} {e : EditError} : namesIn json ≠ .error (.edit e) := by
  unfold namesIn
  intro h
  split at h
  · cases h
  · obtain ⟨part, -, hpart⟩ := mapM_eq_error h
    split at hpart
    · cases hpart
    · cases hpart

theorem optionMapM_namesIn_ne_edit {json : Option Json} {e : EditError} :
    json.mapM namesIn ≠ .error (.edit e) := by
  cases json with
  | none => exact fun h => by cases h
  | some json =>
    intro h
    cases hnames : namesIn json with
    | error e' =>
      have hsame : (some json).mapM namesIn = Except.error e' := by
        rw [Option.mapM_some, hnames]
        rfl
      cases hsame.symm.trans h
      exact namesIn_ne_edit hnames
    | ok names =>
      have hsame : (some json).mapM namesIn = Except.ok (some names) := by
        rw [Option.mapM_some, hnames]
        rfl
      cases hsame.symm.trans h

/-- What a change of values of any shape comes to: all values count, or one is bad for another
reason than a missing node or edge. -/
theorem changeOf_cases (label description inputs outputs : Option Json) :
    (∃ inputNames outputNames, inputs.mapM namesIn = .ok inputNames ∧
      outputs.mapM namesIn = .ok outputNames ∧ changeOf label description inputs outputs =
        (⟨label.map Json.asText, description, inputNames, outputNames⟩, none)) ∨
      ∃ change fault, changeOf label description inputs outputs = (change, some fault) ∧
        ∀ e, fault ≠ .edit e := by
  unfold changeOf
  cases hinputs : inputs.mapM namesIn with
  | error fault =>
    exact .inr ⟨_, fault, rfl, fun e h => optionMapM_namesIn_ne_edit (h ▸ hinputs)⟩
  | ok inputNames =>
    cases houtputs : outputs.mapM namesIn with
    | error fault =>
      exact .inr ⟨_, fault, rfl, fun e h => optionMapM_namesIn_ne_edit (h ▸ houtputs)⟩
    | ok outputNames => exact .inl ⟨inputNames, outputNames, rfl, rfl, rfl⟩

/-- Two checks of which both values are kept succeed only together. -/
theorem pair_eq_valid {α β : Type} {x : Checked α} {y : Checked β} {a : α} {b : β}
    (h : Prod.mk <$> x <*> y = .valid (a, b)) : x = .valid a ∧ y = .valid b := by
  cases x with
  | valid =>
    cases y with
    | valid =>
      rw [Checked.map_valid, Checked.apply_valid] at h
      cases h
      exact ⟨rfl, rfl⟩
    | invalid => cases h
  | invalid =>
    cases y with
    | valid => cases h
    | invalid => cases h

theorem eq_valid_of_under {α : Type} {step : PathStep} {x : Checked α} {a : α}
    (h : x.under step = .valid a) : x = .valid a := by
  cases x with
  | valid => exact h
  | invalid => cases h

theorem optional_text_valid {json : Json} {text : Option String}
    (h : Check.optional Check.text json = .valid text) : json = Json.ofString? text := by
  unfold Check.optional at h
  split at h
  · cases h
    rfl
  · unfold Check.text at h
    split at h
    · cases h
      rfl
    · cases h

/-- Only handles that are texts or null make a connection. -/
theorem connectionOf_eq_ok {source target : String} {sourceHandle targetHandle : Json} {edit : Edit}
    (h : connectionOf source target sourceHandle targetHandle = .ok edit) :
    ∃ sourceText targetText, sourceHandle = Json.ofString? sourceText ∧
      targetHandle = Json.ofString? targetText ∧
      edit = .connect source target sourceText targetText := by
  cases hhandles : Prod.mk <$>
      ((Check.optional Check.text) sourceHandle).under (.field "source_handle") <*>
      ((Check.optional Check.text) targetHandle).under (.field "target_handle") with
  | invalid issues =>
    simp only [connectionOf, hhandles, bind, Except.bind] at h
    grind
  | valid texts =>
    obtain ⟨sourceText, targetText⟩ := texts
    obtain ⟨hsource, htarget⟩ := pair_eq_valid hhandles
    refine ⟨sourceText, targetText, optional_text_valid (eq_valid_of_under hsource),
      optional_text_valid (eq_valid_of_under htarget), ?_⟩
    simp only [connectionOf, hhandles, bind, Except.bind, pure, Except.pure] at h
    grind

/-! ## What comes of requests -/

/-- The draft after the edit that a request amounts to. -/
def Draft.edited (d : Draft) (edit : Edit) (request : EditRequest) : Draft :=
  { d with graph := d.graph.edited edit }.withRaw request

theorem Draft.graph_edited (d : Draft) (edit : Edit) (request : EditRequest) :
    (d.edited edit request).graph = d.graph.edited edit :=
  graph_withRaw ..

namespace EditRequest

variable {request : EditRequest} {d : Draft} {edit : Edit}

theorem apply_of_editOf (h : d.editOf request = .ok (edit, none)) :
    (request.apply d).value =
      (((edit.apply d.graph).map (·.1)).mapError .edit, d.edited edit request) := by
  simp only [apply, h]
  rfl

theorem apply_of_fault {fault : RequestError} (h : d.editOf request = .ok (edit, some fault)) :
    (request.apply d).value = (.error fault, d.edited edit request) := by
  simp only [apply, h]
  rfl

/-- The graph after a request is the same, or edited as the request amounts to. -/
theorem graph_after (request : EditRequest) (d : Draft) :
    (d.after request).graph = d.graph ∨ ∃ edit fault, d.editOf request = .ok (edit, fault) ∧
      (d.after request).graph = d.graph.edited edit := by
  unfold Draft.after
  cases hedit : d.editOf request with
  | error e => exact .inl (by rw [apply_error hedit, Logged.value_pure])
  | ok result =>
    obtain ⟨edit, fault⟩ := result
    refine .inr ⟨edit, fault, rfl, ?_⟩
    cases fault with
    | none => rw [apply_of_editOf hedit, Draft.graph_edited]
    | some fault => rw [apply_of_fault hedit, Draft.graph_edited]

/-- What an edit of a request has to do with the request. -/
theorem editOf_update_eq_ok {id : Json} {label description inputs outputs : Option Json}
    {fault : Option RequestError}
    (h : d.editOf (.update id label description inputs outputs) = .ok (edit, fault)) :
    ∃ name, id = .str name ∧ (d.graph.node? name).isSome ∧
      edit = .update name (changeOf label description inputs outputs).1 ∧
      fault = (changeOf label description inputs outputs).2 := by
  rw [Draft.editOf] at h
  cases hid : d.existingNode id with
  | error e =>
    rw [hid] at h
    cases h
  | ok name =>
    obtain ⟨rfl, hsome⟩ := Draft.existingNode_eq_ok hid
    rw [hid] at h
    cases h
    exact ⟨name, rfl, hsome, rfl, rfl⟩

theorem editOf_connect_eq_ok {source target sourceHandle targetHandle : Json}
    {fault : Option RequestError}
    (h : d.editOf (.connect source target sourceHandle targetHandle) = .ok (edit, fault)) :
    ∃ sourceId targetId, source = .str sourceId ∧ target = .str targetId ∧ fault = none ∧
      connectionOf sourceId targetId sourceHandle targetHandle = .ok edit := by
  rw [Draft.editOf] at h
  cases hsource : d.existingNode source with
  | error e =>
    rw [hsource] at h
    cases h
  | ok sourceId =>
    cases htarget : d.existingNode target with
    | error e =>
      rw [hsource, htarget] at h
      cases h
    | ok targetId =>
      rw [hsource, htarget] at h
      obtain ⟨rfl, -⟩ := Draft.existingNode_eq_ok hsource
      obtain ⟨rfl, -⟩ := Draft.existingNode_eq_ok htarget
      cases hconnection : connectionOf sourceId targetId sourceHandle targetHandle with
      | error e =>
        simp only [bind, Except.bind, hconnection] at h
        cases h
      | ok connection =>
        simp only [bind, Except.bind, hconnection] at h
        cases h
        exact ⟨sourceId, targetId, rfl, rfl, rfl, hconnection⟩

theorem editOf_disconnect_eq_ok {id : Json} {fault : Option RequestError}
    (h : d.editOf (.disconnect id) = .ok (edit, fault)) :
    ∃ name, id = .str name ∧ fault = none ∧ edit = .disconnect name := by
  cases id with
  | str name =>
    cases h
    exact ⟨name, rfl, rfl, rfl⟩
  | null | bool | int | float | list | object => cases h

theorem editOf_move_eq_ok {id x y : Json} {fault : Option RequestError}
    (h : d.editOf (.move id x y) = .ok (edit, fault)) :
    ∃ name, id = .str name ∧ (d.graph.node? name).isSome ∧ fault = none ∧
      edit = .move name x.coordinate y.coordinate := by
  rw [Draft.editOf] at h
  cases hid : d.existingNode id with
  | error e =>
    rw [hid] at h
    cases h
  | ok name =>
    obtain ⟨rfl, hsome⟩ := Draft.existingNode_eq_ok hid
    rw [hid] at h
    cases h
    exact ⟨name, rfl, hsome, rfl, rfl⟩

/-- A request without a fault amounts to an edit that it means. -/
theorem means_of_editOf (h : d.editOf request = .ok (edit, none)) : request.Means edit := by
  cases request with
  | update id label description inputs outputs =>
    obtain ⟨name, rfl, -, rfl, hfault⟩ := editOf_update_eq_ok h
    rcases changeOf_cases label description inputs outputs with
      ⟨inputNames, outputNames, hinputs, houtputs, hchange⟩ | ⟨change, fault, hchange, -⟩
    · rw [hchange]
      exact .update hinputs houtputs
    · rw [hchange] at hfault
      cases hfault
  | connect source target sourceHandle targetHandle =>
    obtain ⟨sourceId, targetId, rfl, rfl, -, hconnection⟩ := editOf_connect_eq_ok h
    obtain ⟨sourceText, targetText, rfl, rfl, rfl⟩ := connectionOf_eq_ok hconnection
    exact .connect
  | disconnect id =>
    obtain ⟨name, rfl, -, rfl⟩ := editOf_disconnect_eq_ok h
    exact .disconnect
  | move id x y =>
    obtain ⟨name, rfl, -, -, rfl⟩ := editOf_move_eq_ok h
    exact .move

theorem firstPlace?_edited (g : Graph) (edit : Edit) (id : String) :
    (g.edited edit).firstPlace? id = g.firstPlace? id := by
  rcases g.edited_cases edit with hsame | ⟨touched, hdoes⟩
  · rw [hsame]
  · have hplaces (nodes : List Node) :
        nodes.findIdx? (·.id == id) = (nodes.map (·.id)).findIdx? (· == id) := by
      rw [List.findIdx?_map]
      rfl
    rw [Graph.firstPlace?, hplaces, hdoes.nodeIds, ← hplaces, Graph.firstPlace?]

/-- The labels after the edit of a request. -/
theorem setsLabel_edited (request : EditRequest) (d : Draft) (edit : Edit) :
    request.SetsLabel d (d.edited edit request) := by
  unfold SetsLabel Draft.edited Draft.withRaw
  split
  · intro place
    rw [← firstPlace?_edited d.graph edit]
    exact Draft.rawLabel?_withLabel ..
  · next hother =>
    split
    · exact (hother _ _ _ _ _ rfl).elim
    · exact Draft.rawLabels_withPosition ..
    · rfl

/-- The positions after the edit of a request. -/
theorem setsPosition_edited (request : EditRequest) (d : Draft) (edit : Edit) :
    request.SetsPosition d (d.edited edit request) := by
  unfold SetsPosition Draft.edited Draft.withRaw
  split
  · intro place
    rw [← firstPlace?_edited d.graph edit]
    exact Draft.rawPosition?_withPosition ..
  · next hother =>
    split
    · exact Draft.rawPositions_withLabel ..
    · exact (hother _ _ _ rfl).elim
    · rfl

/-- A fault is never a missing node or edge. -/
theorem ne_edit_of_editOf {fault : RequestError} {e : EditError}
    (h : d.editOf request = .ok (edit, some fault)) : fault ≠ .edit e := by
  cases request with
  | update id label description inputs outputs =>
    obtain ⟨name, rfl, -, rfl, hfault⟩ := editOf_update_eq_ok h
    rcases changeOf_cases label description inputs outputs with
      ⟨inputNames, outputNames, -, -, hchange⟩ | ⟨change, other, hchange, hne⟩
    · rw [hchange] at hfault
      cases hfault
    · rw [hchange] at hfault
      cases hfault
      exact hne e
  | connect =>
    obtain ⟨-, -, -, -, hfault, -⟩ := editOf_connect_eq_ok h
    cases hfault
  | disconnect =>
    obtain ⟨-, -, hfault, -⟩ := editOf_disconnect_eq_ok h
    cases hfault
  | move =>
    obtain ⟨-, -, -, hfault, -⟩ := editOf_move_eq_ok h
    cases hfault

/-- A request that succeeds does what it says. -/
theorem does_of_apply {touched : Touched} (h : (request.apply d).value.1 = .ok touched) :
    request.Does d touched (d.after request) := by
  unfold Draft.after
  cases hedit : d.editOf request with
  | error e =>
    rw [apply_error hedit] at h
    cases h
  | ok result =>
    obtain ⟨edit, fault⟩ := result
    cases fault with
    | some fault =>
      rw [apply_of_fault hedit] at h
      cases h
    | none =>
      rw [apply_of_editOf hedit] at h ⊢
      cases happly : edit.apply d.graph with
      | error e =>
        rw [happly] at h
        cases h
      | ok result =>
        rw [happly] at h
        cases h
        refine ⟨edit, means_of_editOf hedit, ?_, setsLabel_edited .., setsPosition_edited ..⟩
        rw [Draft.graph_edited, Graph.edited, happly]
        exact Edit.does_of_apply happly

/-- The node that an edit changes is there. -/
theorem changeNode_ne_error {g : Graph} {id : String} {f : Node → Node} {e : EditError}
    (h : (g.node? id).isSome) : g.changeNode id f ≠ .error e := by
  obtain ⟨n, hn⟩ := Option.isSome_iff_exists.mp h
  rw [Graph.changeNode, hn]
  exact nofun

/-- An edit that fails although its request amounts to one leaves the draft as it is. -/
theorem edited_of_apply_error {e : EditError} {fault : Option RequestError}
    (h : d.editOf request = .ok (edit, fault)) (happly : edit.apply d.graph = .error e) :
    d.edited edit request = d := by
  have hgraph : d.graph.edited edit = d.graph := by rw [Graph.edited, happly]
  cases request with
  | update id label description inputs outputs =>
    obtain ⟨name, rfl, hsome, rfl, -⟩ := editOf_update_eq_ok h
    exact absurd happly (changeNode_ne_error hsome)
  | connect => simp only [Draft.edited, Draft.withRaw, hgraph]
  | disconnect => simp only [Draft.edited, Draft.withRaw, hgraph]
  | move id x y =>
    obtain ⟨name, rfl, hsome, -, rfl⟩ := editOf_move_eq_ok h
    exact absurd happly (changeNode_ne_error hsome)

/-- A request that names a node or an edge that is not there changes nothing. -/
theorem after_of_apply_error {e : EditError} (h : (request.apply d).value.1 = .error (.edit e)) :
    d.after request = d := by
  unfold Draft.after
  cases hedit : d.editOf request with
  | error other => rw [apply_error hedit, Logged.value_pure]
  | ok result =>
    obtain ⟨edit, fault⟩ := result
    cases fault with
    | some fault =>
      rw [apply_of_fault hedit] at h
      exact absurd (Except.error.inj h) (ne_edit_of_editOf hedit)
    | none =>
      rw [apply_of_editOf hedit] at h ⊢
      cases happly : edit.apply d.graph with
      | error other => exact edited_of_apply_error hedit happly
      | ok result =>
        rw [happly] at h
        cases h

end EditRequest

/-! ## Any number of requests -/

namespace Draft

/-- A request keeps a sound graph sound, and keeps its nodes. -/
theorem isSound_after {d : Draft} (h : d.graph.IsSound) (request : EditRequest) :
    (d.after request).graph.kinds = d.graph.kinds ∧ (d.after request).graph.IsSound := by
  rcases request.graph_after d with hsame | ⟨edit, -, -, hedited⟩
  · rw [hsame]
    exact ⟨rfl, h⟩
  · rw [hedited]
    rcases d.graph.edited_cases edit with hsame | ⟨touched, hdoes⟩
    · rw [hsame]
      exact ⟨rfl, h⟩
    · exact ⟨hdoes.kinds, hdoes.isSound h⟩

theorem isSound_foldl_after {d : Draft} (h : d.graph.IsSound) (requests : List EditRequest) :
    (requests.foldl after d).graph.kinds = d.graph.kinds ∧
      (requests.foldl after d).graph.IsSound := by
  induction requests generalizing d with
  | nil => exact ⟨rfl, h⟩
  | cons request requests ih =>
    obtain ⟨hkinds, hsound⟩ := isSound_after h request
    obtain ⟨hmore, hsounds⟩ := ih hsound
    exact ⟨hmore.trans hkinds, hsounds⟩

end Draft

/-- The id of the edge that an edit was about. -/
def Touched.edgeId? : Touched → Option String
  | .node _ => none
  | .edge e => some e.id

theorem exists_edge_of_edgeId? {result : Except RequestError Touched} {id : String}
    (h : result.toOption.bind Touched.edgeId? = some id) :
    ∃ e, result = .ok (.edge e) ∧ e.id = id := by
  rcases result with fault | ⟨n⟩ | ⟨e⟩
  · cases h
  · cases h
  · cases h
    exact ⟨e, rfl, rfl⟩

/-- A sound graph stays sound and keeps its nodes, whatever is asked for. A request that names a
node or an edge that is not there leaves all as it is; one that succeeds does what it says. -/
theorem isSound_of_requests {d : Draft} (h : d.graph.IsSound) (done : List EditRequest)
    (request : EditRequest) :
    let before := done.foldl Draft.after d
    let after := before.after request
    after.graph.kinds = d.graph.kinds ∧ after.graph.IsSound ∧
      (∀ touched, (request.apply before).value.1 = .ok touched →
        request.Does before touched after) ∧
      ∀ e, (request.apply before).value.1 = .error (.edit e) → after = before := by
  intro before after
  obtain ⟨hkinds, hsound⟩ := Draft.isSound_foldl_after h (done ++ [request])
  rw [List.foldl_append] at hkinds hsound
  exact ⟨hkinds, hsound, fun touched hok => EditRequest.does_of_apply hok,
    fun e herror => EditRequest.after_of_apply_error herror⟩

/-- Requests of any shape, some without effect. The last connection gets the id that was the first
choice, for the edge that had it has been removed. -/
theorem isSound_of_requests_suffixed :
    let node (id : String) : Node := ⟨id, .action, id, [("actor", .str "AI")], none⟩
    let edge (id : String) : Edge := ⟨id, "a", "b", .sequence, "connects to", none, none, []⟩
    let d := Draft.ofGraph
      ⟨[node "a", node "b"], [edge "edge_user_a_b", edge "edge_user_a_b_2", edge "edge_user_a_b_1"]⟩
    let connect : EditRequest := .connect (.str "a") (.str "b") .null .null
    let done : List EditRequest :=
      [connect, .update (.str "a") (some (.int 3)) none none none,
        .disconnect (.str "edge_user_a_b"), .move (.str "b") (.str "left") Double.one,
        .move (.str "c") .null .null, .update (.str "b") none none (some (.int 0)) none]
    let before := done.foldl Draft.after d
    let after := before.after connect
    d.graph.IsSound ∧ after.graph.kinds = d.graph.kinds ∧ after.graph.IsSound ∧
      (∃ e, (connect.apply before).value.1 = .ok (.edge e) ∧ e.id = "edge_user_a_b" ∧
        connect.Does before (.edge e) after) ∧
      (∀ touched, (connect.apply before).value.1 = .ok touched →
        connect.Does before touched after) ∧
      ∀ e, (connect.apply before).value.1 = .error (.edit e) → after = before := by
  intro node edge d connect done before after
  have hsound : d.graph.IsSound := ⟨by decide, by decide, by decide⟩
  have hadded : ((connect.apply before).value.1.toOption.bind Touched.edgeId?) =
      some "edge_user_a_b" := by
    decide +kernel
  -- With their values at hand, the two sides would be compared by running the requests.
  clear_value d done connect
  obtain ⟨hkinds, hsound', hdoes, herror⟩ := isSound_of_requests hsound done connect
  obtain ⟨e, happly, hid⟩ := exists_edge_of_edgeId? hadded
  exact ⟨hsound, hkinds, hsound', ⟨e, happly, hid, hdoes _ happly⟩, hdoes, herror⟩

end RoleFlow
