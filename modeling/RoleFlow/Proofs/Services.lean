import RoleFlow.Proofs.Exchange
import RoleFlow.Proofs.ReadBack
import RoleFlow.Service.Agent
import RoleFlow.Service.CommandLine
import RoleFlow.Service.Web

/-!
# One conversion in every service

A document is given to a service for its graph, and the graph back to the service for a document.
The web interface, the tools of an agent and the commands each write graphs in their own way and
check what they read. All of them make the same document of one that they accept, unless its
decisions nest so deeply that none of them gives its graph out.

Main definitions:
* `webTrip`, `agentTrip`, `commandTrip`: the document that a service makes of a document.

Results:
* `trips_eq`: it is that of the program of the graph, in every service.
* `trips_eq_none`: no service makes one where decisions nest too deeply.
-/

namespace RoleFlow

/-- The value of a document that the web interface gives for the graph that it gives for a
document. -/
def webTrip (env : Environment) (document : String) : Option Json := do
  let there ← (Request.answer env
    ⟨"POST", "/dslToGraph", some (.object [("dsl", .str document)])⟩).value.toOption
  let graph ← there.body.get? "graph"
  let back ← (Request.answer env
    ⟨"POST", "/graphToDsl", some (.object [("graph", graph)])⟩).value.toOption
  back.body.get? "dsl"

/-- What an agent is given for the graph that it is given for a document. -/
def agentTrip (env : Environment) (document : String) : Option Json := do
  let call ← (ToolCall.ofRequest "dsl_to_graph" [("dsl", .str document)]).toOption
  let there ← (call.run env).value.toOption
  let graph ← there.result.get? "graph"
  let callBack ← (ToolCall.ofRequest "graph_to_dsl" [("graph", graph)]).toOption
  let back ← (callBack.run env).value.toOption
  return back.result

/-- What a command prints for the file that another one writes for a document, and its exit code.
`read` gives the contents of files. -/
def commandTrip {ε : Type} (read : String → Except ε String) (file output : String) :
    Option (Nat × String) := do
  let there ← (runArguments read ["graph", file, "-o", output]).value.toOption
  let (name, contents) ← there.written
  let readAfter (other : String) : Except ε String :=
    if other = name then .ok contents else read other
  let back ← (runArguments readAfter ["dsl", output]).value.toOption
  return (back.exit, back.output)

/-- The options of the command that writes a graph. -/
def graphOptions : List OptionSpec := [helpOption, outputOption, verboseOption]

/-- A name that a file may have and that the commands take for that of a file. -/
structure IsFileName (name : String) : Prop where
  ne_empty : name ≠ ""
  notMem_zero : '\x00' ∉ name.toList
  plain : ∀ specs ∈ [graphOptions, [helpOption]], shapeOf specs name = .plain

variable {env : Environment} {document : String} {p : Program}

theorem value_graphOfDocument (h : (parse document).value = .ok p) (diagnostics : Bool) :
    (graphOfDocument document diagnostics).value = .ok p.graph := by
  simp only [graphOfDocument, withProgram, Logged.value_bind, h, Logged.value_map,
    Program.value_build]

theorem text_of_reconcile {g : Graph} (h : g.reconcile = p.graph.reconcile) :
    g.text.value = p.graph.program.render := by
  show g.reconcile.value.render = _
  rw [h]
  rfl

/-! ## The web interface -/

theorem value_convertDocument (h : (parse document).value = .ok p) :
    (Request.answer env ⟨"POST", "/dslToGraph", some (.object [("dsl", .str document)])⟩).value =
      Request.graphResponse env p.graph := by
  show (Request.convertDocument env document none).value = _
  simp only [Request.convertDocument, Logged.value_bind, value_graphOfDocument h]
  rfl

theorem value_convertGraph (g : Graph) :
    (Request.answer env ⟨"POST", "/graphToDsl", some (.object [("graph", g.toJson)])⟩).value =
      .ok (.document g.text.value) := by
  have hcheck : Request.checkGraph (.object [("graph", g.toJson)]) = .valid g := by
    simp only [Request.checkGraph, Check.model, Check.required, Fields.get?, if_true,
      Graph.check_toJson]
    rfl
  show (Request.withBody (some (.object [("graph", g.toJson)])) Request.checkGraph
    Request.convertGraph).value = _
  simp only [Request.withBody, hcheck]
  rfl

theorem webTrip_eq {layout : Layout} (h : (parse document).value = .ok p)
    (hlayout : env.layout = .ok layout) (hdump : p.graph.dump = .ok p.graph.toJson) :
    webTrip env document = some (.str p.graph.program.render) := by
  have hresponse : Request.graphResponse env p.graph =
      .ok (.ok (withLayout p.graph.toJson layout)) := by
    simp only [Request.graphResponse, Environment.layoutHints, Graph.givenOut, hlayout, hdump]
    rfl
  have hgraph : (Response.ok (withLayout p.graph.toJson layout)).body.get? "graph" =
      some p.graph.withoutInfinities.toJson := by
    rw [← Graph.toJson_withoutInfinities fun n hn => (Program.hasData_of_mem hn).2]
    rfl
  have htext : p.graph.withoutInfinities.text.value = p.graph.program.render :=
    text_of_reconcile p.reconcile_withoutInfinities
  rw [webTrip, value_convertDocument h, hresponse]
  simp only [Except.toOption, Option.bind_eq_bind, Option.bind_some, hgraph, value_convertGraph,
    htext]
  rfl

theorem webTrip_of_error {e : DumpError} (h : (parse document).value = .ok p)
    (hdump : p.graph.dump = .error e) : webTrip env document = none := by
  have hresponse : (Request.graphResponse env p.graph).toOption = none := by
    unfold Request.graphResponse
    cases env.layoutHints with
    | error e => rfl
    | ok layout =>
      simp only [Graph.givenOut, hdump]
      rfl
  rw [webTrip, value_convertDocument h, hresponse]
  rfl

/-! ## Tools -/

theorem ofRequest_toGraph (document : String) :
    ToolCall.ofRequest "dsl_to_graph" [("dsl", .str document)] =
      .ok (.toGraph document (some false)) := by
  simp [ToolCall.ofRequest, ToolCall.documentIn, ToolCall.diagnosticsIn, Fields.get?]

theorem ofRequest_toDocument (graph : Json) :
    ToolCall.ofRequest "graph_to_dsl" [("graph", graph)] = .ok (.toDocument graph) := by
  simp [ToolCall.ofRequest]

theorem value_run_toGraph (h : (parse document).value = .ok p) (diagnostics : Option Bool) :
    ((ToolCall.toGraph document diagnostics).run env).value =
      (ToolCall.plain <$> ToolCall.graphAnswer env p.graph).mapError .service := by
  simp only [ToolCall.run, Logged.value_bind, value_graphOfDocument h]
  rfl

theorem value_run_toDocument (g : Graph) :
    ((ToolCall.toDocument g.toJson).run env).value = .ok (ToolCall.documentAnswer g).value := by
  simp only [ToolCall.run, Graph.check_toJson]
  rfl

theorem result_documentAnswer (g : Graph) :
    (ToolCall.documentAnswer g).value.result = .str g.text.value := rfl

theorem agentTrip_eq {layout : Layout} (h : (parse document).value = .ok p)
    (hlayout : env.layout = .ok layout) (hdump : p.graph.dump = .ok p.graph.toJson) :
    agentTrip env document = some (.str p.graph.program.render) := by
  have hanswer : ToolCall.graphAnswer env p.graph = .ok (withLayout p.graph.toJson layout) := by
    simp only [ToolCall.graphAnswer, Environment.layoutHints, Graph.givenOut, hlayout, hdump]
    rfl
  have hthere : ((ToolCall.toGraph document (some false)).run env).value =
      .ok (ToolCall.plain (withLayout p.graph.toJson layout)) := by
    rw [value_run_toGraph h, hanswer]
    rfl
  have hgraph : (ToolCall.plain (withLayout p.graph.toJson layout)).result.get? "graph" =
      some p.graph.toJson := rfl
  simp only [agentTrip, ofRequest_toGraph, hthere, Except.toOption, Option.bind_eq_bind,
    Option.bind_some, hgraph, ofRequest_toDocument, value_run_toDocument, result_documentAnswer,
    text_of_reconcile rfl]
  rfl

theorem agentTrip_of_error {e : DumpError} (h : (parse document).value = .ok p)
    (hdump : p.graph.dump = .error e) : agentTrip env document = none := by
  have hanswer : ToolCall.graphAnswer env p.graph = .error (.dump e) := by
    simp only [ToolCall.graphAnswer, Graph.givenOut, hdump]
    rfl
  simp only [agentTrip, ofRequest_toGraph, Except.toOption, Option.bind_eq_bind, Option.bind_some,
    value_run_toGraph h, hanswer]
  rfl

/-! ## Commands -/

/-- No name that begins otherwise than an option is taken for one. -/
theorem isFileName_of_head {name : String} (hempty : name ≠ "") (hzero : '\x00' ∉ name.toList)
    (hhead : name.toList.head? ≠ some '-') : IsFileName name :=
  ⟨hempty, hzero, fun _ _ => if_pos hhead⟩

namespace IsFileName

variable {name : String}

theorem plain_graph (h : IsFileName name) : shapeOf graphOptions name = .plain :=
  h.plain graphOptions List.mem_cons_self

theorem plain_alone (h : IsFileName name) : shapeOf [helpOption] name = .plain :=
  h.plain [helpOption] (List.mem_cons_of_mem _ List.mem_cons_self)

theorem ne_separator (h : IsFileName name) : name ≠ "--" := by
  rintro rfl
  have hoption : shapeOf [helpOption] "--" = .option helpOption "--help" none := rfl
  cases hoption.symm.trans h.plain_alone

end IsFileName

theorem shapeOf_output : shapeOf graphOptions "-o" = .option outputOption "-o" none := rfl

theorem hasAmbiguous_eq_false {specs : List OptionSpec} {arguments : List String}
    (h : ∀ argument ∈ arguments, shapeOf specs argument ≠ .ambiguous) :
    hasAmbiguous specs arguments = false := by
  refine List.any_eq_false.mpr fun argument hargument => ?_
  have hshape := h argument ((List.takeWhile_sublist _).subset hargument)
  split
  · next heq => exact absurd heq hshape
  · exact Bool.false_ne_true

theorem readCommandLine_graph {file output : String} (hfile : IsFileName file)
    (houtput : IsFileName output) :
    readCommandLine graphOptions [file, "-o", output] =
      [.plain file, .option "--output" (some output)] := by
  have hplain := hfile.plain_graph
  have hvalue := houtput.plain_graph
  have hambiguous : hasAmbiguous graphOptions [file, "-o", output] = false := by
    refine hasAmbiguous_eq_false fun argument hargument => ?_
    simp only [List.mem_cons, List.not_mem_nil, or_false] at hargument
    rcases hargument with rfl | rfl | rfl
    · rw [hplain]
      simp
    · rw [shapeOf_output]
      simp
    · rw [hvalue]
      simp
  rw [readCommandLine, hambiguous, if_neg (by decide), readArguments, if_neg hfile.ne_separator,
    hplain]
  simp [readArguments, shapeOf_output, readOption, readAlone, outputOption, isValue, hvalue,
    houtput.ne_separator, OptionSpec.name]

theorem readCommandLine_document {output : String} (houtput : IsFileName output) :
    readCommandLine [helpOption] [output] = [.plain output] := by
  have hplain := houtput.plain_alone
  have hambiguous : hasAmbiguous [helpOption] [output] = false := by
    refine hasAmbiguous_eq_false fun argument hargument => ?_
    rw [List.mem_singleton.mp hargument, hplain]
    simp
  rw [readCommandLine, hambiguous, if_neg (by decide), readArguments,
    if_neg houtput.ne_separator, hplain]
  rfl

theorem ofArguments_command {name : String} (h : IsFileName name) (arguments : List String) :
    Invocation.ofArguments (name :: arguments) = Invocation.ofCommand true name arguments := by
  rw [Invocation.ofArguments, Invocation.fromArguments, if_neg h.ne_separator, h.plain_alone]

theorem ofArguments_graph {file output : String} (hfile : IsFileName file)
    (houtput : IsFileName output) :
    Invocation.ofArguments ["graph", file, "-o", output] =
      .run (.graph file (some output) false) := by
  rw [ofArguments_command (isFileName_of_head (by decide) (by decide) (by decide))]
  simp only [Invocation.ofCommand, invocationOf]
  rw [show helpOption :: [outputOption, verboseOption] = graphOptions from rfl,
    readCommandLine_graph hfile houtput]
  rfl

theorem ofArguments_document {output : String} (houtput : IsFileName output) :
    Invocation.ofArguments ["dsl", output] = .run (.document output) := by
  rw [ofArguments_command (isFileName_of_head (by decide) (by decide) (by decide))]
  simp only [Invocation.ofCommand, invocationOf, readCommandLine_document houtput]
  rfl

theorem normalizeLineEnds_of_notMem {chars : List Char} (h : '\r' ∉ chars) :
    Source.normalizeLineEnds chars = chars := by
  fun_induction Source.normalizeLineEnds chars with
  | case1 => rfl
  | case2 cs ih => exact absurd List.mem_cons_self h
  | case3 c cs hne ih =>
    rw [List.mem_cons, not_or] at h
    rw [ih h.2, if_neg (Ne.symm h.1)]

section

variable {ε : Type} {read : String → Except ε String} {file output : String}

theorem value_runArguments_graph (hfile : IsFileName file) (houtput : IsFileName output)
    (hread : read file = .ok document) (hreturn : '\r' ∉ document.toList)
    (h : (parse document).value = .ok p) :
    (runArguments read ["graph", file, "-o", output]).value =
      (graphOutcome p.graph (some output)).mapError .dump := by
  have hzero : (Command.graph file (some output) false).file.toList.contains '\x00' = false := by
    simpa [Command.file] using hfile.notMem_zero
  have hparse : (parseFile document).value = .ok p := by
    rw [parseFile, normalizeLineEnds_of_notMem hreturn, String.ofList_toList, h]
  have hrun : ((Command.graph file (some output) false).run document).value =
      graphOutcome p.graph (some output) := by
    simp only [Command.run, Logged.value_bind, hparse, Program.value_build]
    rfl
  rw [runArguments, ofArguments_graph hfile houtput]
  simp only [hzero, Bool.false_eq_true, if_false]
  simp only [Command.file, hread]
  rw [Logged.value_map, hrun]

theorem value_runArguments_document {contents : String} {g : Graph} (houtput : IsFileName output)
    (hread : read output = .ok contents) (hgraph : graphOfText? contents = some g) :
    (runArguments read ["dsl", output]).value = .ok (.print 0 g.text.value) := by
  have hzero : (Command.document output).file.toList.contains '\x00' = false := by
    simpa [Command.file] using houtput.notMem_zero
  have hrun : ((Command.document output).run contents).value = .ok (.print 0 g.text.value) := by
    simp only [Command.run, hgraph]
    rfl
  rw [runArguments, ofArguments_document houtput]
  simp only [hzero, Bool.false_eq_true, if_false]
  simp only [Command.file, hread]
  rw [Logged.value_map, hrun]
  rfl

theorem graphOutcome_eq {g : Graph} (houtput : IsFileName output) (hdump : g.dump = .ok g.toJson) :
    ∃ message, graphOutcome g (some output) =
      .ok ⟨0, message, some (output, g.toJson.indented)⟩ := by
  refine ⟨"📁 Wrote " ++ digitsOf g.nodes.length ++ " nodes and " ++ digitsOf g.edges.length ++
    " edges to " ++ output ++ "\n", ?_⟩
  simp only [graphOutcome, hdump, bind, Except.bind]
  split
  · next hnone => cases hnone
  · next hempty => exact absurd (Option.some.inj hempty) houtput.ne_empty
  · next file hfile =>
    cases hfile
    rfl

theorem graphOfText?_indented (p : Program) :
    graphOfText? p.graph.toJson.indented = some p.graph := by
  simp only [graphOfText?, Json.parse_indented p.isReadable_graph, Option.bind_eq_bind,
    Option.bind_some, Graph.check_toJson]
  rfl

theorem commandTrip_eq (hfile : IsFileName file) (houtput : IsFileName output)
    (hread : read file = .ok document) (hreturn : '\r' ∉ document.toList)
    (h : (parse document).value = .ok p) (hdump : p.graph.dump = .ok p.graph.toJson) :
    commandTrip read file output = some (0, p.graph.program.render) := by
  obtain ⟨message, houtcome⟩ := graphOutcome_eq houtput hdump
  have hthere : (runArguments read ["graph", file, "-o", output]).value =
      .ok ⟨0, message, some (output, p.graph.toJson.indented)⟩ := by
    rw [value_runArguments_graph hfile houtput hread hreturn h, houtcome]
    rfl
  let readAfter (other : String) : Except ε String :=
    if other = output then .ok p.graph.toJson.indented else read other
  have hback : (runArguments readAfter ["dsl", output]).value =
      .ok (.print 0 p.graph.program.render) := by
    rw [value_runArguments_document houtput (if_pos rfl) (graphOfText?_indented p),
      text_of_reconcile rfl]
  simp only [commandTrip, hthere, Except.toOption, Option.bind_eq_bind, Option.bind_some]
  rw [hback]
  simp only [Option.bind_some, Outcome.print]
  rfl

theorem commandTrip_of_error {e : DumpError} (hfile : IsFileName file) (houtput : IsFileName output)
    (hread : read file = .ok document) (hreturn : '\r' ∉ document.toList)
    (h : (parse document).value = .ok p) (hdump : p.graph.dump = .error e) :
    commandTrip read file output = none := by
  have houtcome : graphOutcome p.graph (some output) = .error e := by
    simp only [graphOutcome, hdump]
    rfl
  simp only [commandTrip, value_runArguments_graph hfile houtput hread hreturn h, houtcome]
  rfl

/-! ## All services -/

/-- Every service makes the same document of one that it accepts, unless the elements of a workflow
nest too deeply. -/
theorem trips_eq {layout : Layout} (hlayout : env.layout = .ok layout)
    (h : (parse document).value = .ok p) (hreturn : '\r' ∉ document.toList)
    (hshallow : ∀ w ∈ p.workflows, w.IsShallow) (hfile : IsFileName file)
    (houtput : IsFileName output) (hread : read file = .ok document) :
    webTrip env document = some (.str p.graph.program.render) ∧
      agentTrip env document = some (.str p.graph.program.render) ∧
      commandTrip read file output = some (0, p.graph.program.render) := by
  have hdump : p.graph.dump = .ok p.graph.toJson := by
    rcases p.dump_graph with ⟨-, hdump⟩ | ⟨hdeep, -⟩
    · exact hdump
    · exact absurd hshallow hdeep
  exact ⟨webTrip_eq h hlayout hdump, agentTrip_eq h hlayout hdump,
    commandTrip_eq hfile houtput hread hreturn h hdump⟩

theorem trips_eq_two_decisions :
    let env : Environment := ⟨none, some "tb", some " 3_00 ", none⟩
    let document := "action A by AI \x7b \x7d workflow W \x7b if (\"größer \\\"7\\\"\") \x7b " ++
      "if (x.y) \x7b A(n: 0); \x7d \x7d else \x7b A; \x7d A(\"✓\"); \x7d"
    let read (file : String) : Except String String :=
      if file = "a flow" then .ok document else .error file
    ∃ p layout, env.layout = .ok layout ∧ (parse document).value = .ok p ∧
      '\r' ∉ document.toList ∧ (∀ w ∈ p.workflows, w.IsShallow) ∧ IsFileName "a flow" ∧
      IsFileName "flow.json" ∧ read "a flow" = .ok document ∧
      webTrip env document = some (.str p.graph.program.render) ∧
      agentTrip env document = some (.str p.graph.program.render) ∧
      commandTrip read "a flow" "flow.json" = some (0, p.graph.program.render) := by
  intro env document read
  let p : Program := ⟨[⟨"A", .ai, none, [], "", [], []⟩], [], [],
    [⟨"W", [.decision (.text "größer \"7\"")
      [.decision (.property "x" "y") [.call "A" [⟨some "n", .number ⟨false, .zero⟩⟩]] []]
      [.call "A" []], .call "A" [⟨none, .text "✓"⟩]]⟩]⟩
  have hparse : (parse document).value = .ok p := parse_of_toOption (by decide +kernel)
  have hlayout : ∃ layout, env.layout = .ok layout := ⟨_, rfl⟩
  obtain ⟨layout, hlayout⟩ := hlayout
  have hreturn : '\r' ∉ document.toList := by decide +kernel
  have hshallow : ∀ w ∈ p.workflows, w.IsShallow := by decide
  have hfile : IsFileName "a flow" := isFileName_of_head (by decide) (by decide) (by decide)
  have houtput : IsFileName "flow.json" := isFileName_of_head (by decide) (by decide) (by decide)
  have hread : read "a flow" = .ok document := if_pos rfl
  exact ⟨p, layout, hlayout, hparse, hreturn, hshallow, hfile, houtput, hread,
    trips_eq hlayout hparse hreturn hshallow hfile houtput hread⟩

/-- No service gives the graph of a document in which the elements of a workflow nest too deeply. -/
theorem trips_eq_none (h : (parse document).value = .ok p) (hreturn : '\r' ∉ document.toList)
    (hdeep : ¬ ∀ w ∈ p.workflows, w.IsShallow) (hfile : IsFileName file)
    (houtput : IsFileName output) (hread : read file = .ok document) :
    webTrip env document = none ∧ agentTrip env document = none ∧
      commandTrip read file output = none := by
  have hdump : p.graph.dump = .error .tooDeep := by
    rcases p.dump_graph with ⟨hshallow, -⟩ | ⟨-, hdump⟩
    · exact absurd hshallow hdeep
    · exact hdump
  exact ⟨webTrip_of_error h hdump, agentTrip_of_error h hdump,
    commandTrip_of_error hfile houtput hread hreturn h hdump⟩

end

/-! ## Documents that nest -/

/-- Decisions to a depth, each the only element of the first branch of the one around it. -/
def Element.nested : Nat → List Element
  | 0 => []
  | depth + 1 => [.decision (.identifier "x") (nested depth) []]

/-- The program of a workflow of decisions to a depth. -/
def Program.nested (depth : Nat) : Program := ⟨[], [], [], [⟨"W", Element.nested depth⟩]⟩

namespace Element

theorem wellFormed_nested (depth : Nat) : WellFormedList (nested depth) := by
  have hword : IsWord "x" := by decide
  induction depth with
  | zero => trivial
  | succ depth ih =>
    simpa [nested, WellFormedList, WellFormed, Expression.WellFormed, hword] using ih

theorem noDanglingElse_nested (depth : Nat) : NoDanglingElseList (nested depth) := by
  induction depth with
  | zero => trivial
  | succ depth ih =>
    simpa [nested, NoDanglingElseList, NoDanglingElse, BeginsWithElseCall] using ih

theorem arguments_nested (depth : Nat) : argumentsList (nested depth) = [] := by
  induction depth with
  | zero => rfl
  | succ depth ih => simpa [nested, argumentsList, arguments] using ih

theorem conditions_nested (depth : Nat) :
    ∀ e ∈ conditionsList (nested depth), e = .identifier "x" := by
  induction depth with
  | zero => exact fun e he => absurd he List.not_mem_nil
  | succ depth ih => simpa [nested, conditionsList, conditions] using ih

theorem notMem_raw_nested (depth indent : Nat) :
    '\r' ∉ Piece.raw (layoutList indent (nested depth)) := by
  induction depth generalizing indent with
  | zero => exact List.not_mem_nil
  | succ depth ih =>
    have hthen := ih (indent + 1)
    simpa [nested, layoutList, layout, Expression.layout] using hthen

theorem depth_nested (depth : Nat) :
    (Json.list (toJsonList (nested (depth + 1)))).depth = 2 * depth + 4 := by
  induction depth with
  | zero => decide
  | succ depth ih =>
    simp only [Json.depth] at ih
    rw [nested]
    simp only [toJsonList, toJson, Json.depth, Json.depthOfItems, Json.depthOfFields,
      Expression.toJson, ih]
    omega

end Element

namespace Program

theorem parse_nested (depth : Nat) :
    (parse (nested depth).render).value = .ok (nested depth) := by
  have hword : IsWord "W" := by decide
  have hwf : (nested depth).WellFormed := by
    refine ⟨by simp [nested], by simp [nested], by simp [nested], fun w hw => ?_⟩
    obtain rfl := List.mem_singleton.mp hw
    exact ⟨hword, Element.wellFormed_nested depth⟩
  have helse : (nested depth).NoDanglingElse := by
    intro w hw
    obtain rfl := List.mem_singleton.mp hw
    exact Element.noDanglingElse_nested depth
  have hdescriptions : (nested depth).descriptions = [] := rfl
  have hargs : (nested depth).arguments = [] := by
    simp [Program.arguments, nested, Element.arguments_nested]
  have hconditions : ∀ e ∈ (nested depth).conditions, e = .identifier "x" := by
    simpa [Program.conditions, nested] using Element.conditions_nested depth
  have hread := parse_render hwf helse (by simp [hdescriptions]) (by simp [hargs])
    fun e he => by rw [hconditions e he]; trivial
  rwa [reread_program hwf (by simp [hdescriptions]) (by simp [hargs])
    fun e he => by rw [hconditions e he]; trivial] at hread

theorem notMem_render_nested (depth : Nat) : '\r' ∉ (nested depth).render.toList := by
  have hbody := Element.notMem_raw_nested depth 1
  rw [← raw_program]
  simpa [Program.layout, definitions, nested, Definition.layout, WorkflowDef.layout] using hbody

end Program

/-- A document with 127 decisions inside one another is accepted, and no service gives its graph. -/
theorem trips_ne_of_nested :
    let env : Environment := ⟨none, none, none, none⟩
    let p := Program.nested 127
    let read (file : String) : Except String String :=
      if file = "nested" then .ok p.render else .error file
    env.layout = .ok .standard ∧ (parse p.render).value = .ok p ∧ '\r' ∉ p.render.toList ∧
      webTrip env p.render ≠ some (.str p.graph.program.render) ∧
      agentTrip env p.render ≠ some (.str p.graph.program.render) ∧
      commandTrip read "nested" "graph" ≠ some (0, p.graph.program.render) := by
  intro env p read
  have hparse : (parse p.render).value = .ok p := Program.parse_nested 127
  have hreturn : '\r' ∉ p.render.toList := Program.notMem_render_nested 127
  have hdeep : ¬ ∀ w ∈ p.workflows, w.IsShallow := by
    intro h
    have hw := h _ List.mem_cons_self
    rw [WorkflowDef.IsShallow, Element.depth_nested 126] at hw
    exact absurd hw (by decide)
  have hfile : IsFileName "nested" := isFileName_of_head (by decide) (by decide) (by decide)
  have houtput : IsFileName "graph" := isFileName_of_head (by decide) (by decide) (by decide)
  have hread : read "nested" = .ok p.render := if_pos rfl
  obtain ⟨hweb, hagent, hcommand⟩ := trips_eq_none hparse hreturn hdeep hfile houtput hread
  rw [hweb, hagent, hcommand]
  exact ⟨rfl, hparse, hreturn, nofun, nofun, nofun⟩

end RoleFlow
