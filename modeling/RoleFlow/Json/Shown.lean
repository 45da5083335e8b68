import RoleFlow.Json.Basic
import RoleFlow.Number.Spelling
import RoleFlow.Text.Quoted

/-!
# JSON values inside texts

How a value reads where a text is wanted, and in messages. A text reads as itself; inside a
list or an object, and in a message about the value, it is quoted.
-/

namespace RoleFlow

namespace Json

mutual

/-- A value as a message shows it. -/
def shown : Json → String
  | .null => "None"
  | .bool value => if value then "True" else "False"
  | .int value => intText value
  | .float value => value.shown
  | .str value => quoted value
  | .list items => "[" ++ ", ".intercalate (shownItems items) ++ "]"
  | .object fields => "\x7b" ++ ", ".intercalate (shownFields fields) ++ "\x7d"

/-- Each item as a message shows it. -/
def shownItems : List Json → List String
  | [] => []
  | item :: items => item.shown :: shownItems items

/-- Each member as a message shows it. -/
def shownFields : List (String × Json) → List String
  | [] => []
  | (name, value) :: fields => (quoted name ++ ": " ++ value.shown) :: shownFields fields

end

/-- The text that a value stands for. -/
def asText : Json → String
  | .str value => value
  | json => json.shown

/-- The text that an optional value stands for; a void one stands for the empty text. -/
def textOrEmpty : Option Json → String
  | none => ""
  | some json => if json.isVoid then "" else json.asText

end Json

end RoleFlow
