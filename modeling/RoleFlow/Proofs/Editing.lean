import RoleFlow.Proofs.Accepted
import RoleFlow.Proofs.CleanGraphs
import RoleFlow.Proofs.Edits

/-!
# Editing clean graphs

An edit changes one node or the edges. If it sets nothing that cannot be written down, a clean graph
stays clean, so that after any number of edits the text of the graph is read as its program.

Results:
* `IsClean.changed`: what a clean change leaves clean.
* `isClean_edited`, `isClean_foldl_edited`: clean graphs stay clean.
* `parse_text_of_edits`: the text of the graph of a document after some edits.
-/

namespace RoleFlow

/-- What the change sets can be written down. Blank names count as none. -/
structure NodeChange.IsClean (c : NodeChange) : Prop where
  label : ∀ label ∈ c.label, IsWord label ∧ label ≠ "if"
  description : ∀ json ∈ c.description, ∃ text, json = .str text ∧ IsCleanText text
  inputs : ∀ names ∈ c.inputs, ∀ name ∈ names, trimBlanks name ≠ "" → IsDataName (trimBlanks name)
  outputs : ∀ names ∈ c.outputs, ∀ name ∈ names, trimBlanks name ≠ "" → IsWord (trimBlanks name)

/-- What the edit sets can be written down. -/
def Edit.IsClean : Edit → Prop
  | .update _ change => change.IsClean
  | .connect .. => True
  | .disconnect _ => True
  | .move .. => True

/-! ## Changed nodes -/

theorem exists_of_mem_cleanNames {names : List String} {name : String}
    (h : name ∈ cleanNames names) :
    ∃ raw ∈ names, trimBlanks raw = name ∧ trimBlanks raw ≠ "" := by
  obtain ⟨hmem, hempty⟩ := List.mem_filter.mp h
  obtain ⟨raw, hraw, rfl⟩ := List.mem_map.mp hmem
  exact ⟨raw, hraw, rfl, by simpa using hempty⟩

namespace Node

variable {n m : Node} {c : NodeChange}

theorem IsClean.changed (h : n.IsClean) (hc : c.IsClean) (hm : n.ChangedBy c m) : m.IsClean where
  label := by
    rw [hm.label]
    cases hlabel : c.label with
    | none => exact h.label
    | some label => exact (hc.label label hlabel).1
  called hkind := by
    rw [hm.label]
    cases hlabel : c.label with
    | none => exact h.called (hm.kind ▸ hkind)
    | some label => exact (hc.label label hlabel).2
  description := by
    rw [Node.description, hm.description]
    cases hdescription : c.description with
    | none => exact h.description
    | some json =>
      obtain ⟨text, rfl, htext⟩ := hc.description json hdescription
      rw [Option.some_or, Json.textOrEmpty_str]
      exact htext
  roleName := by
    rw [performer, hm.others _ (by decide)]
    exact h.roleName
  typedNames member hmember := by
    have hother : member ∉ ["description", "inputs", "outputs"] := by
      rcases List.mem_pair.mp hmember with rfl | rfl
      · decide
      · decide
    rw [hm.others member hother]
    exact h.typedNames member hmember
  inputs := by
    rw [declaredInputs, hm.inputs]
    cases hinputs : c.inputs with
    | none => exact h.inputs
    | some names =>
      rw [Option.map_some, Option.some_or, namesOf_ofStrings]
      intro name hname
      obtain ⟨raw, hraw, rfl, hne⟩ := exists_of_mem_cleanNames hname
      exact hc.inputs names hinputs raw hraw hne
  outputs := by
    rw [declaredOutputs, hm.outputs]
    cases houtputs : c.outputs with
    | none => exact h.outputs
    | some names =>
      rw [Option.map_some, Option.some_or, namesOf_ofStrings]
      intro name hname
      obtain ⟨raw, hraw, rfl, hne⟩ := exists_of_mem_cleanNames hname
      exact hc.outputs names houtputs raw hraw hne

theorem IsClean.moved (h : n.IsClean) (position : Option (List (String × Double))) :
    Node.IsClean { n with position } :=
  ⟨h.label, h.called, h.description, h.roleName, h.typedNames, h.inputs, h.outputs⟩

end Node

/-! ## Edited graphs -/

namespace Graph

variable {g : Graph} {edit : Edit}

/-- An edit that sets nothing that cannot be written down keeps a graph clean. -/
theorem isClean_edited (h : g.IsClean) (hedit : edit.IsClean) : (g.edited edit).IsClean := by
  rcases g.edited_cases edit with hsame | ⟨touched, hdoes⟩
  · rwa [hsame]
  · generalize g.edited edit = after at hdoes
    cases hdoes with
    | @update _ _ _ front back n m hnodes _ _ hchanged =>
      rw [IsClean, hnodes, List.forall_mem_append, List.forall_mem_cons] at h
      obtain ⟨hfront, hn, hback⟩ := h
      exact List.forall_mem_append.mpr
        ⟨hfront, List.forall_mem_cons.mpr ⟨hn.changed hedit hchanged, hback⟩⟩
    | @move _ x y _ front back n hnodes =>
      rw [IsClean, hnodes, List.forall_mem_append, List.forall_mem_cons] at h
      obtain ⟨hfront, hn, hback⟩ := h
      exact List.forall_mem_append.mpr
        ⟨hfront, List.forall_mem_cons.mpr ⟨hn.moved _, hback⟩⟩
    | connect => exact h
    | disconnect => exact h

/-- So do any number of such edits. -/
theorem isClean_foldl_edited {edits : List Edit} (h : g.IsClean)
    (hedits : ∀ edit ∈ edits, edit.IsClean) : (edits.foldl edited g).IsClean := by
  induction edits generalizing g with
  | nil => exact h
  | cons edit edits ih =>
    obtain ⟨hedit, hmore⟩ := List.forall_mem_cons.mp hedits
    exact ih (isClean_edited h hedit) hmore

end Graph

/-- After each of any number of edits, those included that fail, the text of the graph of a document
is read as the program of the graph, if what the document says and the edits set can be written down
as it is. -/
theorem parse_text_of_edits {document : String} {p : Program} {edits : List Edit}
    (h : (parse document).value = .ok p)
    (hdescriptions : ∀ d ∈ p.descriptions, IsQuotable d ∧ IsSingleSpaced d)
    (hnames : ∀ a ∈ p.actions, a.name ≠ "if" ∧ ∀ x ∈ a.inputs, x ≠ "true" ∧ x ≠ "false")
    (hedits : ∀ edit ∈ edits, edit.IsClean) :
    ∀ done, done <+: edits →
      let g := done.foldl Graph.edited p.graph
      (parse g.text.value).value = .ok g.program := by
  intro done hdone
  have hgraph := p.isClean_graph (wellFormed_of_parse h) hdescriptions hnames
  exact Graph.parse_text_of_isClean
    (Graph.isClean_foldl_edited hgraph fun edit hedit => hedits edit (hdone.subset hedit))

theorem parse_text_of_edits_six :
    let document := "role Clerk \x7b description: \"Knows a/b\"; \x7d " ++
      "action A by role Clerk (t: Text) \x7b description: \"Reads it\"; outputs: [x]; \x7d " ++
      "action B by AI \x7b inputs: [x]; \x7d workflow W \x7b if (y) \x7b A; \x7d B; \x7d"
    let edits : List Edit :=
      [.update "node_0" ⟨some "Check", some (.str "Reads x"), some [" x ", " "], some ["y"]⟩,
        .connect "node_3" "node_0" none none, .connect "node_0" "node_1" none none,
        .disconnect "edge_user", .connect "node_4" "node_0" (some "data") none,
        .move "node_1" ⟨false, .zero⟩ ⟨true, .infinite⟩]
    ∃ p, (parse document).value = .ok p ∧
      (∀ d ∈ p.descriptions, IsQuotable d ∧ IsSingleSpaced d) ∧
      (∀ a ∈ p.actions, a.name ≠ "if" ∧ ∀ x ∈ a.inputs, x ≠ "true" ∧ x ≠ "false") ∧
      (∀ edit ∈ edits, edit.IsClean) ∧
      ∀ done, done <+: edits →
        let g := done.foldl Graph.edited p.graph
        (parse g.text.value).value = .ok g.program := by
  intro document edits
  let p : Program :=
    ⟨[⟨"A", .role, some "Clerk", [⟨"t", "Text"⟩], "Reads it", [], ["x"]⟩,
        ⟨"B", .ai, none, [], "", ["x"], []⟩], [], [⟨"Clerk", "Knows a/b", none⟩],
      [⟨"W", [.decision (.identifier "y") [.call "A" []] [], .call "B" []]⟩]⟩
  have hparse : (parse document).value = .ok p := parse_of_toOption (by decide +kernel)
  have hdescriptions : ∀ d ∈ p.descriptions, IsQuotable d ∧ IsSingleSpaced d := by decide
  have hnames : ∀ a ∈ p.actions, a.name ≠ "if" ∧ ∀ x ∈ a.inputs, x ≠ "true" ∧ x ≠ "false" := by
    decide
  have hchange : NodeChange.IsClean
      ⟨some "Check", some (.str "Reads x"), some [" x ", " "], some ["y"]⟩ := by
    refine ⟨by decide, ?_, by decide, by decide⟩
    intro json hjson
    exact ⟨"Reads x", (Option.some.inj hjson).symm, by decide⟩
  have hedits : ∀ edit ∈ edits, edit.IsClean := by
    intro edit hedit
    simp only [edits, List.mem_cons, List.not_mem_nil, or_false] at hedit
    rcases hedit with rfl | rfl | rfl | rfl | rfl | rfl
    · exact hchange
    · trivial
    · trivial
    · trivial
    · trivial
    · trivial
  exact ⟨p, hparse, hdescriptions, hnames, hedits,
    parse_text_of_edits hparse hdescriptions hnames hedits⟩

end RoleFlow
