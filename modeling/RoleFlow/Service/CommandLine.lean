import RoleFlow.Graph.Json
import RoleFlow.Json.Printer
import RoleFlow.Json.Reader
import RoleFlow.Service.Conversion
import RoleFlow.Service.Options

/-!
# The command line

Three commands convert a document to a graph, a graph to a document, or a document to a graph and
back. What a command prints and writes is computed from the contents of the file it is given.
Models of `to_graph`, `to_dsl`, `roundtrip` and the `main` that calls them.

Main definitions:
* `Invocation.ofArguments`: what a command line asks for.
* `Command.run`: what a command does with a file.
-/

namespace RoleFlow

/-! ## What is asked for -/

/-- A command and the file it works on. -/
inductive Command where
  | graph (file : String) (output : Option String) (verbose : Bool)
  | document (file : String)
  | roundTrip (file : String) (verbose : Bool)
  deriving DecidableEq

/-- The file that a command works on. -/
def Command.file : Command → String
  | .graph file _ _ => file
  | .document file => file
  | .roundTrip file _ => file

/-- What a command line asks for. Model of what `parse_args` gives `main`. -/
inductive Invocation where
  | run (command : Command)
  | help
  | nothing
  | misuse
  deriving DecidableEq

/-- The option that asks for help. -/
def helpOption : OptionSpec := ⟨["--help", "-h"], false⟩

/-- The option for more log records. -/
def verboseOption : OptionSpec := ⟨["--verbose", "-v"], false⟩

/-- The option for a file to write. -/
def outputOption : OptionSpec := ⟨["--output", "-o"], true⟩

/-- The options and files given to a command: the options, the last one first, the other
arguments in order, and whether all of them are known. -/
structure Given where
  options : List (String × Option String)
  files : List String
  known : Bool

/-- The options and files that the arguments mean, unless help is asked for or one of them is
malformed before that. `fileBefore` says whether a file was given before the arguments, and
`fileJustBefore` whether by the last of them: two dashes belong to the file next to them. -/
def collect (fileBefore fileJustBefore : Bool) : List ArgumentMeaning → Except Invocation Given
  | [] => .ok ⟨[], [], true⟩
  | .malformed :: _ => .error .misuse
  | .option name value :: rest =>
    if name = "--help" then .error .help
    else do
      let given ← collect fileBefore false rest
      return { given with options := given.options ++ [(name, value)] }
  | .plain file :: rest => do
    let given ← collect true true rest
    return { given with files := file :: given.files }
  | .separator :: rest => do
    let given ← collect fileBefore false rest
    return { given with known := given.known && (!fileBefore || fileJustBefore) }
  | .unknown _ :: rest => do
    let given ← collect fileBefore false rest
    return { given with known := false }

/-- A command whose options and only file are given, in an invocation whose other arguments are
known. -/
def invocationOf (known : Bool) (specs : List OptionSpec) (arguments : List String)
    (command : String → List (String × Option String) → Command) : Invocation :=
  match collect false false (readCommandLine (helpOption :: specs) arguments) with
  | .error invocation => invocation
  | .ok given =>
    match given.files with
    | [file] => if known && given.known then .run (command file given.options) else .misuse
    | _ => .misuse

namespace Invocation

/-- What a command with its arguments asks for. -/
def ofCommand (known : Bool) (name : String) (arguments : List String) : Invocation :=
  let isVerbose (options : List (String × Option String)) : Bool :=
    (options.lookup "--verbose").isSome
  match name with
  | "graph" =>
    invocationOf known [outputOption, verboseOption] arguments fun file options =>
      .graph file ((options.lookup "--output").join) (isVerbose options)
  | "dsl" => invocationOf known [] arguments fun file _ => .document file
  | "roundtrip" =>
    invocationOf known [verboseOption] arguments fun file options =>
      .roundTrip file (isVerbose options)
  | _ => .misuse

/-- What the arguments ask for, where `known` says whether those before them are known. -/
def fromArguments (known : Bool) : List String → Invocation
  | [] => if known then .nothing else .misuse
  | argument :: rest =>
    if argument = "--" then .misuse
    else
      match shapeOf [helpOption] argument with
      | .plain => ofCommand known argument rest
      | .unknown => fromArguments false rest
      | .ambiguous => .misuse
      | .option spec name attached =>
        match readOption [helpOption] spec name attached with
        | .ok _ => .help
        | .error () => .misuse

/-- What a command line asks for. -/
def ofArguments (arguments : List String) : Invocation := fromArguments true arguments

end Invocation

/-! ## What is done -/

/-- What a command prints, the file it writes, and its exit code. -/
structure Outcome where
  exit : Nat
  output : String
  written : Option (String × String)

namespace Outcome

/-- An outcome that only prints. -/
def print (exit : Nat) (output : String) : Outcome := ⟨exit, output, none⟩

/-- The outcome for a document with a syntax error. -/
def badDocument (e : SyntaxError) : Outcome := print 1 ("❌ " ++ e.located ++ "\n")

/-- The outcome for a file that holds no graph. -/
def badGraph : Outcome := print 1 "❌ Invalid graph\n"

end Outcome

/-- The graph that a file holds as JSON text. -/
def graphOfText? (contents : String) : Option Graph := do
  let json ← Json.parse contents
  (Graph.check json).toOption

/-- The outcome of writing a graph to a file, or of printing it if none is named. Model of the end
of `to_graph`. -/
def graphOutcome (g : Graph) (file : Option String) : Except DumpError Outcome := do
  let json ← g.dump
  let text := json.indented
  match file with
  | none | some "" => return .print 0 (text ++ "\n")
  | some file =>
    return ⟨0, "📁 Wrote " ++ digitsOf g.nodes.length ++ " nodes and " ++
      digitsOf g.edges.length ++ " edges to " ++ file ++ "\n", some (file, text)⟩

/-- The outcome of a trip of a program through its graph: whether the text stays the same. Model of
the end of `roundtrip`. -/
def roundTripOutcome (before after : Program) : Outcome :=
  if after.render = before.render then .print 0 "✅ Round trip is lossless\n"
  else
    .print 2 ("⚠️  Round trip dropped decisions or literal arguments:\n" ++ after.render)

/-- What a command does with the contents of its file. Model of `to_graph`, `to_dsl` and
`roundtrip`. -/
def Command.run (contents : String) : Command → Logged (Except DumpError Outcome)
  | .graph _ output verbose => do
    match ← parseFile contents with
    | .error e => pure (.ok (.badDocument e))
    | .ok program =>
      let built ← program.build verbose
      pure (graphOutcome built output)
  | .document _ =>
    match graphOfText? contents with
    | none => pure (.ok .badGraph)
    | some found => do
      let text ← found.text
      pure (.ok (.print 0 text))
  | .roundTrip _ verbose => do
    match ← parseFile contents with
    | .error e => pure (.ok (.badDocument e))
    | .ok program =>
      let after ← program.afterGraph verbose
      pure (.ok (roundTripOutcome program after))

/-- How the commands are used. -/
def usage : String :=
  "usage: flowgo [-h] \x7bgraph,dsl,roundtrip\x7d ...\n\nFlowgo DSL/Graph Tool\n"

/-- Why a command has no outcome: its file has no possible name or cannot be read, or its graph is
not given out. -/
inductive CommandError (ε : Type) where
  | impossibleName
  | unreadable (e : ε)
  | dump (e : DumpError)

/-- What a command does whose file has a name that no file can have, one with a zero character. -/
def Command.withImpossibleName {ε : Type} : Command → Except (CommandError ε) Outcome
  | .document _ => .ok .badGraph
  | _ => .error .impossibleName

/-- What a command line does, where `read` gives the contents of a file. Model of `main`. -/
def runArguments {ε : Type} (read : String → Except ε String) (arguments : List String) :
    Logged (Except (CommandError ε) Outcome) :=
  match Invocation.ofArguments arguments with
  | .help => pure (.ok (.print 0 usage))
  | .nothing => pure (.ok (.print 1 usage))
  | .misuse => pure (.ok (.print 2 ""))
  | .run command =>
    if command.file.toList.contains '\x00' then pure command.withImpossibleName
    else
      match read command.file with
      | .error e => pure (.error (.unreadable e))
      | .ok contents => Except.mapError .dump <$> command.run contents

end RoleFlow
