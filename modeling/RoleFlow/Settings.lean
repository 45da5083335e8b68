import RoleFlow.Json.Printer
import RoleFlow.Number.Text
import RoleFlow.Text.Uppercase

/-!
# Settings

Whether graph construction is logged, and the hints for the layout of graphs, come from the
environment. The hints go to the layout engine as they are; only the direction is checked. Models
of `LayoutOptions`, `FlowgoConfig` and `diagnostics_enabled`.
-/

namespace RoleFlow

/-- The variables of the environment that hold settings. -/
structure Environment where
  diagnostics : Option String
  direction : Option String
  width : Option String
  height : Option String

/-- The settings among the variables of an environment. -/
def Environment.ofVariables (value? : String → Option String) : Environment where
  diagnostics := value? "FLOWGO_DIAGNOSTICS"
  direction := value? "FLOWGO_LAYOUT_DIRECTION"
  width := value? "FLOWGO_NODE_WIDTH"
  height := value? "FLOWGO_NODE_HEIGHT"

/-- Whether the environment asks for a log of graph construction: by the word for true in any case.
Model of `diagnostics_enabled`. -/
def Environment.wantsDiagnostics (env : Environment) : Bool :=
  ((env.diagnostics.getD "false").toList.map Char.toLower) == "true".toList

/-- What is wrong with settings. -/
inductive SettingsError where
  | unsupportedDirection (direction : String)
  | notAnInteger (text : String)
  | tooManyDigits (count : Nat)
  | directionNotText
  | groupsNotMembers
  | groupNotPair (index length : Nat)
  | unknownOption (name : String)

/-- The wording of a fault in settings. -/
def SettingsError.message : SettingsError → String
  | .unsupportedDirection direction => "Unsupported layout direction: " ++ direction
  | .notAnInteger text =>
    "invalid literal for int() with base 10: " ++ String.ofList ((quoted text).toList.take 200)
  | .tooManyDigits count =>
    "Exceeds the limit (" ++ digitsOf maxIntDigits ++
      " digits) for integer string conversion: value has " ++ digitsOf count ++
      " digits; use sys.set_int_max_str_digits() to increase the limit"
  | .directionNotText => "The layout direction is not a text"
  | .groupsNotMembers => "The rank groups are not given by name"
  | .groupNotPair index length =>
    "dictionary update sequence element #" ++ digitsOf index ++ " has length " ++ digitsOf length ++
      "; 2 is required"
  | .unknownOption name => "Unknown layout option: " ++ name

/-! ## Layout -/

/-- The direction in which the ranks of a graph follow each other. -/
inductive Direction where
  | leftToRight
  | topToBottom
  | rightToLeft
  | bottomToTop
  deriving DecidableEq

/-- The name of a direction. -/
def Direction.name : Direction → String
  | .leftToRight => "LR"
  | .topToBottom => "TB"
  | .rightToLeft => "RL"
  | .bottomToTop => "BT"

/-- The direction of a name in any case. Model of `LayoutOptions.__post_init__`. -/
def Direction.ofText (text : String) : Except SettingsError Direction :=
  let name := toUpperCase text
  let directions : List Direction := [.leftToRight, .topToBottom, .rightToLeft, .bottomToTop]
  match directions.find? (·.name == name) with
  | some direction => .ok direction
  | none => .error (.unsupportedDirection name)

/-- Hints for the layout engine, sizes and separations in its units. Model of `LayoutOptions`. -/
structure Layout where
  direction : Direction
  nodeWidth : Json
  nodeHeight : Json
  nodeSeparation : Json
  rankSeparation : Json
  rankGroups : Fields

namespace Layout

/-- The hints where nothing is set; the nodes of one kind share a rank group. -/
def standard : Layout where
  direction := .leftToRight
  nodeWidth := .int 250
  nodeHeight := .int 120
  nodeSeparation := .int 100
  rankSeparation := .int 300
  rankGroups :=
    [("workflow", .int 0), ("action", .int 1), ("entity", .int 2), ("role", .int 3),
      ("data", .int 4)]

/-- The hints as JSON, by the names that the layout engine uses. Model of
`LayoutOptions.to_dict`. -/
def toJson (l : Layout) : Json :=
  .object [("direction", .str l.direction.name), ("nodeWidth", l.nodeWidth),
    ("nodeHeight", l.nodeHeight), ("nodeSeparation", l.nodeSeparation),
    ("rankSeparation", l.rankSeparation), ("groupSpacing", .object l.rankGroups)]

/-- The names of the options. -/
def optionNames : List String :=
  ["direction", "node_width", "node_height", "node_separation", "rank_separation", "rank_groups"]

/-- The name and the group that the element at a place stands for: its two parts. -/
def groupOf (index : Nat) (element : Json) : Except SettingsError (String × Json) :=
  match element.parts? with
  | none => .error .groupsNotMembers
  | some [name, group] =>
    match name.memberName? with
    | some name => .ok (name, group)
    | none => .error .groupsNotMembers
  | some parts => .error (.groupNotPair index parts.length)

/-- The rank groups of an object, or those that the parts of another value stand for; of several of
one name the last group counts. -/
def groupsOf : Json → Except SettingsError Fields
  | .object groups => .ok groups
  | json =>
    match json.parts? with
    | some elements => Fields.ofList <$> elements.zipIdx.mapM fun (element, i) => groupOf i element
    | none => .error .groupsNotMembers

/-- The hints with some options set. Their values are taken as they are, but for the direction.
Model of the constructor of `LayoutOptions`. -/
def ofOptions (options : Fields) : Except SettingsError Layout := do
  match options.find? fun (name, _) => !optionNames.contains name with
  | some (name, _) => .error (.unknownOption name)
  | none =>
    let direction ← match options.get? "direction" with
      | none => .ok standard.direction
      | some (.str text) => Direction.ofText text
      | some _ => .error .directionNotText
    let rankGroups ← match options.get? "rank_groups" with
      | none => .ok standard.rankGroups
      | some json => groupsOf json
    return {
      direction
      nodeWidth := (options.get? "node_width").getD standard.nodeWidth
      nodeHeight := (options.get? "node_height").getD standard.nodeHeight
      nodeSeparation := (options.get? "node_separation").getD standard.nodeSeparation
      rankSeparation := (options.get? "rank_separation").getD standard.rankSeparation
      rankGroups }

end Layout

namespace Environment

/-- The integer in a variable, if the variable is set. -/
def integer (value : Option String) (unset : Json) : Except SettingsError Json :=
  match value with
  | none => .ok unset
  | some text =>
    match intOfText text with
    | .ok i => .ok (.int i)
    | .error .malformed => .error (.notAnInteger text)
    | .error (.tooManyDigits count) => .error (.tooManyDigits count)

/-- The layout hints of an environment. The width is read before the height, and both before the
direction is checked. Model of `FlowgoConfig.from_env` and `get_config`. -/
def layout (env : Environment) : Except SettingsError Layout := do
  let nodeWidth ← integer env.width Layout.standard.nodeWidth
  let nodeHeight ← integer env.height Layout.standard.nodeHeight
  let direction ← match env.direction with
    | some text => Direction.ofText text
    | none => .ok Layout.standard.direction
  return { Layout.standard with direction, nodeWidth, nodeHeight }

end Environment

end RoleFlow
