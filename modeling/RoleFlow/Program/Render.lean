import RoleFlow.Number.Spelling
import RoleFlow.Program.Basic

/-!
# Programs as text

A program is written roles first, then actions, entities and workflows, each kind in its order,
two spaces deeper per level, with an empty line after each definition. Empty parts are left out.
This is `DSLGenerator`, with the `__str__` of the parts of a program.
-/

namespace RoleFlow

/-- A text in double quotes; quotes and backslashes inside have a backslash in front. Model of
`StringLiteral.__str__`. -/
def quoteText (value : String) : String :=
  let escape (c : Char) : List Char := if c = '"' ∨ c = '\\' then ['\\', c] else [c]
  String.ofList ('"' :: value.toList.flatMap escape ++ ['"'])

/-- An expression as text. Model of `__str__` of the five kinds. -/
def Expression.render : Expression → String
  | .text value => quoteText value
  | .number value => value.literal
  | .boolean value => if value then "true" else "false"
  | .identifier name => name
  | .property owner part => owner ++ "." ++ part

/-- An argument as text; an empty name counts as none. Model of `Argument.__str__`. -/
def Argument.render (a : Argument) : String :=
  match a.name with
  | some name => if name.isEmpty then a.value.render else name ++ ": " ++ a.value.render
  | none => a.value.render

/-- Texts with a comma and a space between them. -/
def commaSeparated (items : List String) : String := ", ".intercalate items

/-- A call as text. Model of `ActionCall.__str__`. -/
def renderCall (name : String) (args : List Argument) : String :=
  if args.isEmpty then name ++ ";"
  else name ++ "(" ++ commaSeparated (args.map Argument.render) ++ ");"

/-- A name and its type as text. Model of `Parameter.__str__`. -/
def TypedName.render (t : TypedName) : String := t.name ++ ": " ++ t.type

/-- An attribute of an entity as text. Model of `Attribute.__str__`. -/
def TypedName.renderAttribute (t : TypedName) : String := t.render ++ ";"

/-- The opening of a block. -/
def opening : String := " \x7b"

/-- The closing of a block. -/
def closing : String := "\x7d"

/-- The blanks in front of a line at a depth. -/
def indentation (depth : Nat) : String := String.ofList (List.replicate (2 * depth) ' ')

/-- Lines with a line feed between them. -/
def joinLines (lines : List String) : String := "\n".intercalate lines

/-- The line of an attribute, if it has a value. -/
def attributeLine (name : String) (value : Option String) : List String :=
  (value.map fun value => indentation 1 ++ name ++ ": " ++ value ++ ";").toList

/-- The line of a description, unless it is empty. The description is quoted as it stands. -/
def descriptionLine (description : String) : List String :=
  attributeLine "description"
    (if description.isEmpty then none else some ("\"" ++ description ++ "\""))

/-- The line of a list of names, unless it is empty. -/
def namesLine (name : String) (names : List String) : List String :=
  attributeLine name (if names.isEmpty then none else some ("[" ++ commaSeparated names ++ "]"))

/-- A role as text. Model of `DSLGenerator._role`. -/
def RoleDef.render (r : RoleDef) : String :=
  joinLines (["role " ++ r.name ++ opening] ++ descriptionLine r.description ++
    attributeLine "type" (r.kind.map ActorKind.name) ++ [closing])

/-- The first line of an action. -/
def ActionDef.header (a : ActionDef) : String :=
  let performer := match a.actor with
    | .role => "role " ++ roleNameText a.roleName
    | kind => kind.name
  let parameters :=
    if a.parameters.isEmpty then ""
    else " (" ++ commaSeparated (a.parameters.map TypedName.render) ++ ")"
  "action " ++ a.name ++ " by " ++ performer ++ parameters ++ opening

/-- An action as text. Model of `DSLGenerator._action`. -/
def ActionDef.render (a : ActionDef) : String :=
  joinLines ([a.header] ++ descriptionLine a.description ++ namesLine "inputs" a.inputs ++
    namesLine "outputs" a.outputs ++ [closing])

/-- An entity as text. Model of `DSLGenerator._entity`. -/
def EntityDef.render (e : EntityDef) : String :=
  joinLines (["entity " ++ e.name ++ opening] ++
    e.attributes.map (indentation 1 ++ ·.renderAttribute) ++ [closing])

mutual

/-- The lines of a step at a depth. -/
def Element.lines (depth : Nat) : Element → List String
  | .call name args => [indentation depth ++ renderCall name args]
  | .decision condition thenBody elseBody =>
    (indentation depth ++ "if (" ++ condition.render ++ ")" ++ opening) ::
      Element.linesList (depth + 1) thenBody ++
      (if elseBody.isEmpty then []
       else (indentation depth ++ closing ++ " else" ++ opening) ::
         Element.linesList (depth + 1) elseBody) ++
      [indentation depth ++ closing]

/-- The lines of a body at a depth. Model of `DSLGenerator._elements`. -/
def Element.linesList (depth : Nat) : List Element → List String
  | [] => []
  | element :: elements => element.lines depth ++ Element.linesList depth elements

end

/-- A workflow as text. Model of `DSLGenerator._workflow`. -/
def WorkflowDef.render (w : WorkflowDef) : String :=
  joinLines (["workflow " ++ w.name ++ opening] ++ Element.linesList 1 w.elements ++ [closing])

/-- The definitions of a program as texts, in the order in which they are written. -/
def Program.blocks (p : Program) : List String :=
  p.roles.map RoleDef.render ++ p.actions.map ActionDef.render ++
    p.entities.map EntityDef.render ++ p.workflows.map WorkflowDef.render

/-- A program as text. Model of `DSLGenerator.generate`. -/
def Program.render (p : Program) : String :=
  String.join (p.blocks.map (· ++ "\n\n"))

end RoleFlow
