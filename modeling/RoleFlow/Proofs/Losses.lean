import RoleFlow.Proofs.Accepted
import RoleFlow.Proofs.Lookalikes
import RoleFlow.Proofs.Services

/-!
# What the round trip reports

The command that takes a document through its graph compares the text of the program before the
trip with that after it. So it does not see that an argument has become a binding which looked like
one: `true: true` held a truth value before the trip, and passes on data called `true` after it.

Results:
* `ofArguments_roundTrip`: the command line that asks for a round trip.
* `roundTrip_tells`: what the command prints, and for which programs that is the truth.
* `roundTrip_hides`: a loss that it does not report.
-/

namespace RoleFlow

/-- The options of the command that takes a document through its graph. -/
def roundTripOptions : List OptionSpec := [helpOption, verboseOption]

theorem ofArguments_roundTrip {file : String} (hplain : shapeOf roundTripOptions file = .plain) :
    Invocation.ofArguments ["roundtrip", file] = .run (.roundTrip file false) := by
  have hseparator : file ≠ "--" := by
    rintro rfl
    have hoption : shapeOf roundTripOptions "--" = .ambiguous := rfl
    cases hoption.symm.trans hplain
  have hambiguous : hasAmbiguous roundTripOptions [file] = false := by
    refine hasAmbiguous_eq_false fun argument hargument => ?_
    rw [List.mem_singleton.mp hargument, hplain]
    simp
  rw [ofArguments_command (isFileName_of_head (by decide) (by decide) (by decide))]
  simp only [Invocation.ofCommand, invocationOf]
  rw [show helpOption :: [verboseOption] = roundTripOptions from rfl, readCommandLine, hambiguous,
    if_neg (by decide), readArguments, if_neg hseparator, hplain]
  rfl

section

variable {ε : Type} {read : String → Except ε String} {arguments : List String}
  {file contents : String} {verbose : Bool} {p : Program}

theorem value_runArguments_roundTrip
    (hcommand : Invocation.ofArguments arguments = .run (.roundTrip file verbose))
    (hname : '\x00' ∉ file.toList) (hread : read file = .ok contents)
    (h : (parseFile contents).value = .ok p) :
    (runArguments read arguments).value = .ok (roundTripOutcome p p.graph.program) := by
  have hzero : (Command.roundTrip file verbose).file.toList.contains '\x00' = false := by
    simpa [Command.file] using hname
  have hrun : ((Command.roundTrip file verbose).run contents).value =
      .ok (roundTripOutcome p p.graph.program) := by
    simp only [Command.run, Logged.value_bind, h, Program.afterGraph, Program.value_build]
    rfl
  rw [runArguments, hcommand]
  simp only [hzero, Bool.false_eq_true, if_false]
  simp only [Command.file, hread]
  rw [Logged.value_map, hrun]
  rfl

/-- The command reports a lossless trip exactly if the trip gives the program with bindings for all
arguments that look like them, and otherwise prints what the trip gives. It is the program itself
exactly if no call outside decisions has an argument that looks like a binding and is none. -/
theorem roundTrip_tells
    (hcommand : Invocation.ofArguments arguments = .run (.roundTrip file verbose))
    (hname : '\x00' ∉ file.toList) (hread : read file = .ok contents)
    (h : (parseFile contents).value = .ok p) :
    (runArguments read arguments).value = .ok
      (if p.graph.program = p.withBindings then .print 0 "✅ Round trip is lossless\n"
      else .print 2 ("⚠️  Round trip dropped decisions or literal arguments:\n" ++
        p.graph.program.render)) ∧
    (p.withBindings = p ↔ ∀ w ∈ p.workflows, ∀ name args, .call name args ∈ w.elements →
      ∀ a ∈ args, a ∉ lookalikes) := by
  have hwellFormed : p.WellFormed := wellFormed_of_parse h
  refine ⟨?_, Program.withBindings_eq_self_iff hwellFormed⟩
  rw [value_runArguments_roundTrip hcommand hname hread h, roundTripOutcome]
  simp only [Program.render_program_graph_iff hwellFormed]

/-- The trip of a document in which no argument looks like a binding and is none is lossless exactly
if the program is the same. -/
theorem roundTrip_tells_plain :
    let contents := "action P by AI \x7b outputs: [x, true]; \x7d " ++
      "action A by AI \x7b inputs: [x, true]; \x7d\r\nworkflow W \x7b P; A(x: x, true: \"1\"); \x7d"
    let read (file : String) : Except String String :=
      if file = "flow" then .ok contents else .error file
    ∃ p, Invocation.ofArguments ["roundtrip", "flow"] = .run (.roundTrip "flow" false) ∧
      '\x00' ∉ "flow".toList ∧ read "flow" = .ok contents ∧ (parseFile contents).value = .ok p ∧
      p.withBindings = p ∧
      (runArguments read ["roundtrip", "flow"]).value = .ok
        (.print 2 ("⚠️  Round trip dropped decisions or literal arguments:\n" ++
          p.graph.program.render)) := by
  intro contents read
  let p : Program := ⟨[⟨"P", .ai, none, [], "", [], ["x", "true"]⟩,
    ⟨"A", .ai, none, [], "", ["x", "true"], []⟩], [], [],
    [⟨"W", [.call "P" [], .call "A" [bindingOf "x", ⟨some "true", .text "1"⟩]]⟩]⟩
  have hcommand : Invocation.ofArguments ["roundtrip", "flow"] = .run (.roundTrip "flow" false) :=
    ofArguments_roundTrip rfl
  have hname : '\x00' ∉ "flow".toList := by decide
  have hread : read "flow" = .ok contents := if_pos rfl
  have hparse : (parseFile contents).value = .ok p := parse_of_toOption (by decide +kernel)
  obtain ⟨hvalue, hplain⟩ := roundTrip_tells hcommand hname hread hparse
  have hsame : p.withBindings = p := by decide +kernel
  have hlost : p.graph.program ≠ p.withBindings := by decide +kernel
  exact ⟨p, hcommand, hname, hread, hparse, hsame, hvalue.trans (congrArg _ (if_neg hlost))⟩

/-- The trip gives data called `true` for a truth value, and is reported to be lossless. -/
theorem roundTrip_hides :
    let contents := "action P by AI \x7b outputs: [true]; \x7d " ++
      "action A by AI \x7b inputs: [true]; \x7d workflow W \x7b A(true: true); \x7d"
    let read (file : String) : Except String String :=
      if file = "flow" then .ok contents else .error file
    ∃ p, (parseFile contents).value = .ok p ∧
      p.workflows = [⟨"W", [.call "A" [⟨some "true", .boolean true⟩]]⟩] ∧
      p.graph.program.workflows = [⟨"W", [.call "A" [⟨some "true", .identifier "true"⟩]]⟩] ∧
      p.graph.program ≠ p ∧
      (runArguments read ["roundtrip", "flow"]).value =
        .ok (.print 0 "✅ Round trip is lossless\n") := by
  intro contents read
  let p : Program := ⟨[⟨"P", .ai, none, [], "", [], ["true"]⟩,
    ⟨"A", .ai, none, [], "", ["true"], []⟩], [], [],
    [⟨"W", [.call "A" [⟨some "true", .boolean true⟩]]⟩]⟩
  have hparse : (parseFile contents).value = .ok p := parse_of_toOption (by decide +kernel)
  have hrender : p.graph.program.render = p.render := by decide +kernel
  refine ⟨p, hparse, rfl, by decide +kernel, by decide +kernel, ?_⟩
  rw [value_runArguments_roundTrip (ofArguments_roundTrip rfl) (by decide) (if_pos rfl) hparse,
    roundTripOutcome, if_pos hrender]

end

end RoleFlow
