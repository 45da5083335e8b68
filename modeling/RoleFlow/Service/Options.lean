import RoleFlow.Text.DecimalDigit

/-!
# Reading command lines

Options may stand anywhere among the other arguments. Long names may be cut short as long as one
option is meant, and take a value after an equals sign or as the next argument. Short names may
be joined, the last with its value attached. After two dashes nothing is an option.

Main definitions:
* `readArguments`: what the arguments of a command line mean, one by one.
-/

namespace RoleFlow

/-- An option: its names, dashes included, and whether it takes a value. The first name is the
one it is known by. -/
structure OptionSpec where
  names : List String
  takesValue : Bool

/-- What an argument means. -/
inductive ArgumentMeaning where
  | option (name : String) (value : Option String)
  | plain (text : String)
  | separator
  | unknown (text : String)
  | malformed
  deriving DecidableEq

/-- How an argument looks: an option with the text attached to its name, if there is any, or no
option. Text is attached after an equals sign, or directly to a short name. -/
inductive ArgumentShape where
  | option (spec : OptionSpec) (name : String) (attached : Option (List Char))
  | plain
  | unknown
  | ambiguous

/-- The name an option is known by. -/
def OptionSpec.name (spec : OptionSpec) : String := spec.names.headD ""

/-- The option of an exact name. -/
def findOption? (specs : List OptionSpec) (name : String) : Option OptionSpec :=
  specs.find? (·.names.contains name)

/-- A text cut at its first equals sign, if it has one. -/
def cutAtEquals? (text : List Char) : Option (List Char × List Char) :=
  if text.contains '=' then
    some (text.takeWhile (· != '='), (text.dropWhile (· != '=')).drop 1)
  else none

/-- The text without the line end that it may have. -/
def dropLineEnd (text : List Char) : List Char :=
  if text.getLast? = some '\n' then text.dropLast else text

/-- Whether a text is a negative number, which is no option. Its digits may be those of any script,
and a line may end after it. -/
def isNegativeNumber (text : List Char) : Bool :=
  let isDigit (c : Char) : Bool := (decimalDigitValue? c).isSome
  match dropLineEnd text with
  | '-' :: number =>
    match number.dropWhile isDigit with
    | [] => !number.isEmpty
    | '.' :: fraction => !fraction.isEmpty && fraction.all isDigit
    | _ => false
  | _ => false

/-- Whether a name is a long one. -/
def isLongName (name : List Char) : Bool := name.take 2 == ['-', '-']

/-- The options that a text that is no exact name may mean, with what is attached to each. -/
def candidates (specs : List OptionSpec) (text : List Char) :
    List (OptionSpec × String × Option (List Char)) :=
  let (start, attached) := match cutAtEquals? text with
    | some (start, value) => (start, some value)
    | none => (text, none)
  let short := String.ofList (text.take 2)
  specs.flatMap fun spec =>
    spec.names.filterMap fun name =>
      if isLongName text then
        if start.isPrefixOf name.toList then some (spec, name, attached) else none
      else if name = short then some (spec, name, some (text.drop 2))
      else if text.isPrefixOf name.toList then some (spec, name, none)
      else none

/-- The option whose exact name stands before an equals sign. -/
def exactBeforeEquals? (specs : List OptionSpec) (text : List Char) : Option ArgumentShape := do
  let (start, value) ← cutAtEquals? text
  let spec ← findOption? specs (String.ofList start)
  return .option spec (String.ofList start) (some value)

/-- How an argument looks. -/
def shapeOf (specs : List OptionSpec) (argument : String) : ArgumentShape :=
  let text := argument.toList
  if text.head? ≠ some '-' then .plain
  else
    match findOption? specs argument with
    | some spec => .option spec argument none
    | none =>
      if text.length = 1 then .plain
      else
        match exactBeforeEquals? specs text with
        | some shape => shape
        | none =>
          match candidates specs text with
          | [(spec, name, attached)] => .option spec name attached
          | _ :: _ :: _ => .ambiguous
          | [] =>
            if isNegativeNumber text || text.contains ' ' then .plain else .unknown

/-- Whether an argument can be the value of the option before it. -/
def isValue (specs : List OptionSpec) (argument : String) : Bool :=
  match shapeOf specs argument with
  | .plain => true
  | _ => false

/-- What the options in one argument mean, and the option that wants the next argument as its
value, if there is one. -/
abbrev OptionReading := Except Unit (List ArgumentMeaning × Option OptionSpec)

/-- An option alone in its argument. -/
def readAlone (spec : OptionSpec) : OptionReading :=
  if spec.takesValue then .ok ([], some spec) else .ok ([.option spec.name none], none)

/-- An option with attached text: its value if it takes one. After a short name that takes none the
text goes on with the letters of further short names, the last of which may take the rest. -/
def readAttached (specs : List OptionSpec) (spec : OptionSpec) (isShort : Bool) :
    (attached : List Char) → OptionReading
  | [] => if spec.takesValue then .ok ([.option spec.name (some "")], none) else .error ()
  | c :: rest =>
    if spec.takesValue then
      .ok ([.option spec.name (some (String.ofList (c :: rest)))], none)
    else if isShort then
      match findOption? specs (String.ofList ['-', c]) with
      | none => .error ()
      | some other => do
        let (found, wanting) ←
          if rest.isEmpty then readAlone other else readAttached specs other true rest
        return (.option spec.name none :: found, wanting)
    else .error ()

/-- An option by one of its names, with the text attached to the name. -/
def readOption (specs : List OptionSpec) (spec : OptionSpec) (name : String)
    (attached : Option (List Char)) : OptionReading :=
  match attached with
  | none => readAlone spec
  | some text => readAttached specs spec (!isLongName name.toList) text

/-- What the arguments mean, up to the first malformed one. -/
def readArguments (specs : List OptionSpec) : List String → List ArgumentMeaning
  | [] => []
  | argument :: rest =>
    if argument = "--" then .separator :: rest.map .plain
    else
      match shapeOf specs argument with
      | .plain => .plain argument :: readArguments specs rest
      | .unknown => .unknown argument :: readArguments specs rest
      | .ambiguous => [.malformed]
      | .option spec name attached =>
        match readOption specs spec name attached with
        | .error () => [.malformed]
        | .ok (found, none) => found ++ readArguments specs rest
        | .ok (found, some wanting) =>
          match rest with
          | [] => [.malformed]
          | value :: rest =>
            if value ≠ "--" && isValue specs value then
              found ++ .option wanting.name (some value) :: readArguments specs rest
            else [.malformed]

/-- Whether a name that is cut short too far stands among the options, which is noticed before
anything is done. -/
def hasAmbiguous (specs : List OptionSpec) (arguments : List String) : Bool :=
  (arguments.takeWhile (· != "--")).any fun argument =>
    match shapeOf specs argument with
    | .ambiguous => true
    | _ => false

/-- What a whole command line means. -/
def readCommandLine (specs : List OptionSpec) (arguments : List String) : List ArgumentMeaning :=
  if hasAmbiguous specs arguments then [.malformed] else readArguments specs arguments

end RoleFlow
