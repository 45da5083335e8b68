import RoleFlow.Service.CommandLine

/-!
# The program

Reads the file that the command line names, prints and writes what the command computes, and
sends the log to the error output if that is wanted.
-/

namespace RoleFlow

/-- A record as a line of the error output. -/
def Record.line (r : Record) : String :=
  r.level.name ++ ":" ++ r.channel.name ++ ":" ++ r.message

/-- Whether a command line asks for log records. -/
def Invocation.isVerbose : Invocation → Bool
  | .run (.graph _ _ verbose) => verbose
  | .run (.roundTrip _ verbose) => verbose
  | _ => false

/-- Whether a record is shown: always if the log is wanted, otherwise from warnings on. -/
def Record.isShown (verbose : Bool) (r : Record) : Bool := verbose || r.level == .warning

/-- The contents of the file of a command, if it works on one. -/
def contentsOf (invocation : Invocation) : IO (Except IO.Error String) :=
  match invocation with
  | .run command => (IO.FS.readFile command.file).toBaseIO
  | _ => return .ok ""

/-- The wording of a failed command. -/
def CommandError.message : CommandError IO.Error → String
  | .impossibleName => "embedded null byte"
  | .unreadable e => toString e
  | .dump e => e.message

end RoleFlow

open RoleFlow in
/-- Runs a command line. -/
def main (arguments : List String) : IO UInt32 := do
  let invocation := Invocation.ofArguments arguments
  let contents ← contentsOf invocation
  let result := runArguments (fun _ => contents) arguments
  for record in result.records do
    if record.isShown invocation.isVerbose then
      IO.eprintln record.line
  match result.value with
  | .error e =>
    IO.eprintln e.message
    return 1
  | .ok outcome =>
    if let some (file, text) := outcome.written then
      IO.FS.writeFile file text
    IO.print outcome.output
    return outcome.exit.toUInt32
