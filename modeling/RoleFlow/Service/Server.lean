import RoleFlow.Service.CommandLine

/-!
# Starting the agent server

The server that offers the tools to agents is started from a command line, and runs until it is
interrupted. This is the `main` of the server.
-/

namespace RoleFlow

/-- What a command line asks of the server. -/
inductive Launch where
  | start (debug : Bool)
  | version
  | help
  | misuse
  deriving DecidableEq

namespace Launch

/-- The option for debug records. -/
def debugOption : OptionSpec := ⟨["--debug"], false⟩

/-- The option for the version. -/
def versionOption : OptionSpec := ⟨["--version"], false⟩

/-- What the arguments ask for. The version and help are given as soon as they are asked for. -/
def ofMeanings (debug known : Bool) : List ArgumentMeaning → Launch
  | [] => if known then .start debug else .misuse
  | .malformed :: _ => .misuse
  | .option name _ :: rest =>
    if name = "--version" then .version
    else if name = "--help" then .help
    else ofMeanings true known rest
  | _ :: rest => ofMeanings debug false rest

/-- What a command line asks for. -/
def ofArguments (arguments : List String) : Launch :=
  ofMeanings false true (readCommandLine [helpOption, debugOption, versionOption] arguments)

end Launch

/-- The name and version of the program. -/
def versionText : String := "flowgo 0.1.0"

/-- The records of a run of the server. Model of the log of `main`. -/
def serverRecords (debug interrupted : Bool) : List Record :=
  let started : Record :=
    ⟨.info, .server, "Starting Flowgo MCP Server (debug=" ++ (if debug then "True" else "False") ++
      ")"⟩
  started :: if interrupted then [⟨.info, .server, "Flowgo MCP Server stopped"⟩] else []

/-- What a run of the server prints, and its exit code if it has ended. -/
structure ServerOutcome where
  exit : Option Nat
  output : String

/-- A run of the server that is interrupted or goes on. Model of `main`. -/
def runServer (arguments : List String) (interrupted : Bool) : Logged ServerOutcome :=
  match Launch.ofArguments arguments with
  | .version => pure ⟨some 0, versionText ++ "\n"⟩
  | .help => pure ⟨some 0, "usage: flowgo-mcp [-h] [--debug] [--version]\n"⟩
  | .misuse => pure ⟨some 2, ""⟩
  | .start debug =>
    ⟨⟨if interrupted then some 0 else none, ""⟩, serverRecords debug interrupted⟩

end RoleFlow
