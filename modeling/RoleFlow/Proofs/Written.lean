import RoleFlow.Program.Render
import RoleFlow.Proofs.Layout

/-!
# The layout of a written program

A program is written as lexemes with gaps between them. A text may be written with several blanks
together; its lexeme has one space for them.

Results:
* `raw_expression`, `raw_body`, `raw_action`: parts of a program are written as they are laid out.
* `raw_program`: a program is written as it is laid out.
-/

namespace RoleFlow

/-- A text with every run of blanks as one space. -/
def collapseText (value : String) : String := String.ofList (collapseBlanks false value.toList)

namespace Piece

/-! ## Parts of layouts -/

/-- A lexeme that is written as it is. -/
abbrev plain (kind : TokenKind) (text : String) : Piece := .lexeme kind text.toList text.toList

/-- A word. -/
abbrev word (text : String) : Piece := plain .word text

/-- A punctuation mark. -/
abbrev mark (c : Char) : Piece := .lexeme .mark [c] [c]

/-- A text in quotes. -/
def text (value : String) : Piece :=
  .lexeme .text (quoteText (collapseText value)).toList (quoteText value).toList

/-- A description in quotes, in which nothing is escaped. -/
def description (value : String) : Piece :=
  .lexeme .text ('"' :: (collapseText value).toList ++ ['"']) ('"' :: value.toList ++ ['"'])

/-- A space. -/
abbrev space : Piece := .gap [' ']

/-- The beginning of a line at a depth. -/
abbrev line (depth : Nat) : Piece := .gap ('\n' :: List.replicate (2 * depth) ' ')

/-- Layouts with a comma and a space between them. -/
def commas : List (List Piece) → List Piece
  | [] => []
  | [pieces] => pieces
  | pieces :: more => pieces ++ mark ',' :: space :: commas more

@[simp] theorem raw_nil : raw [] = [] := rfl

attribute [simp] raw_cons raw_append written

theorem raw_commas {α : Type} {layout : α → List Piece} {render : α → String} {xs : List α}
    (h : ∀ x ∈ xs, raw (layout x) = (render x).toList) :
    raw (commas (xs.map layout)) = (commaSeparated (xs.map render)).toList := by
  induction xs with
  | nil => rfl
  | cons x xs ih =>
    obtain ⟨hx, hxs⟩ := List.forall_mem_cons.mp h
    cases xs with
    | nil =>
      show raw (layout x) = (", ".intercalate [render x]).toList
      rw [hx, String.intercalate_singleton]
    | cons y ys =>
      show raw (layout x ++ mark ',' :: space :: commas ((y :: ys).map layout)) =
        (", ".intercalate (render x :: render y :: ys.map render)).toList
      rw [String.intercalate_cons_cons, String.toList_append, String.toList_append]
      show _ = (render x).toList ++ ", ".toList ++ (commaSeparated ((y :: ys).map render)).toList
      rw [← ih hxs, raw_append, hx]
      simp

end Piece

/-! ## Expressions, arguments and types -/

open Piece

/-- The layout of an expression. A number that is not finite is written as a word. -/
def Expression.layout : Expression → List Piece
  | .text value => [Piece.text value]
  | .number value =>
    [plain (if value.magnitude = .infinite then .word else .number) value.literal]
  | .boolean value => [word (if value then "true" else "false")]
  | .identifier name => [word name]
  | .property owner part => [word owner, mark '.', word part]

/-- The layout of an argument; an empty name counts as none. -/
def Argument.layout (a : Argument) : List Piece :=
  match a.name with
  | some name =>
    if name.isEmpty then a.value.layout else word name :: mark ':' :: space :: a.value.layout
  | none => a.value.layout

/-- The layout of the arguments of a call. -/
def argumentsLayout (args : List Argument) : List Piece :=
  if args.isEmpty then [] else mark '(' :: commas (args.map Argument.layout) ++ [mark ')']

/-- A layout with one more letter in front, which belongs to a word in front. -/
def consLetter (c : Char) : List Piece → List Piece
  | .lexeme .word chars written :: pieces => .lexeme .word (c :: chars) (c :: written) :: pieces
  | pieces => .lexeme .word [c] [c] :: pieces

/-- The layout of a type: letters make words, other characters are marks. -/
def typeLayout : List Char → List Piece
  | [] => []
  | c :: cs => if isLetter c then consLetter c (typeLayout cs) else mark c :: typeLayout cs

/-- The layout of a name and its type. -/
def TypedName.layout (t : TypedName) : List Piece :=
  word t.name :: mark ':' :: space :: typeLayout t.type.toList

/-- The layout of an attribute of an entity, on a line of its own. -/
def TypedName.attributeLayout (t : TypedName) : List Piece := line 1 :: t.layout ++ [mark ';']

/-! ## Steps of a workflow -/

mutual

/-- The layout of a step on lines at a depth. -/
def Element.layout (depth : Nat) : Element → List Piece
  | .call name args => line depth :: word name :: argumentsLayout args ++ [mark ';']
  | .decision condition thenBody elseBody =>
    line depth :: word "if" :: space :: mark '(' :: condition.layout ++
      mark ')' :: space :: mark '\x7b' :: Element.layoutList (depth + 1) thenBody ++
      (if elseBody.isEmpty then []
       else line depth :: mark '\x7d' :: space :: word "else" :: space :: mark '\x7b' ::
         Element.layoutList (depth + 1) elseBody) ++
      [line depth, mark '\x7d']

/-- The layout of a body on lines at a depth. -/
def Element.layoutList (depth : Nat) : List Element → List Piece
  | [] => []
  | element :: elements => element.layout depth ++ Element.layoutList depth elements

end

/-! ## Definitions -/

/-- The layout of an attribute on a line of its own, if it has a value. -/
def attributeLayout (name : String) (value : Option (List Piece)) : List Piece :=
  match value with
  | some value => line 1 :: word name :: mark ':' :: space :: value ++ [mark ';']
  | none => []

/-- The layout of a description, unless it is empty. -/
def descriptionLayout (description : String) : List Piece :=
  attributeLayout "description"
    (if description.isEmpty then none else some [Piece.description description])

/-- The layout of a list of names, unless it is empty. -/
def namesLayout (name : String) (names : List String) : List Piece :=
  attributeLayout name
    (if names.isEmpty then none else some (mark '[' :: commas (names.map ([word ·])) ++ [mark ']']))

/-- The layout of the attributes of a role. -/
def RoleDef.attributesLayout (r : RoleDef) : List Piece :=
  descriptionLayout r.description ++
    attributeLayout "type" (r.kind.map fun kind => [word kind.name])

/-- The layout of a role. -/
def RoleDef.layout (r : RoleDef) : List Piece :=
  word "role" :: space :: word r.name :: space :: mark '\x7b' :: r.attributesLayout ++
    [line 0, mark '\x7d']

/-- The layout of who performs an action. -/
def ActionDef.performerLayout (a : ActionDef) : List Piece :=
  match a.actor with
  | .role => [word "role", space, word (roleNameText a.roleName)]
  | kind => [word kind.name]

/-- The layout of the parameters of an action, with a space in front. -/
def ActionDef.parametersLayout (a : ActionDef) : List Piece :=
  if a.parameters.isEmpty then []
  else space :: mark '(' :: commas (a.parameters.map TypedName.layout) ++ [mark ')']

/-- The layout of the attributes of an action. -/
def ActionDef.attributesLayout (a : ActionDef) : List Piece :=
  descriptionLayout a.description ++ namesLayout "inputs" a.inputs ++
    namesLayout "outputs" a.outputs

/-- The layout of an action. -/
def ActionDef.layout (a : ActionDef) : List Piece :=
  word "action" :: space :: word a.name :: space :: word "by" :: space :: a.performerLayout ++
    a.parametersLayout ++ space :: mark '\x7b' :: a.attributesLayout ++ [line 0, mark '\x7d']

/-- The layout of an entity. -/
def EntityDef.layout (e : EntityDef) : List Piece :=
  word "entity" :: space :: word e.name :: space :: mark '\x7b' ::
    e.attributes.flatMap TypedName.attributeLayout ++ [line 0, mark '\x7d']

/-- The layout of a workflow. -/
def WorkflowDef.layout (w : WorkflowDef) : List Piece :=
  word "workflow" :: space :: word w.name :: space :: mark '\x7b' ::
    Element.layoutList 1 w.elements ++ [line 0, mark '\x7d']

/-- The layout of a definition. -/
def Definition.layout : Definition → List Piece
  | .action a => a.layout
  | .entity e => e.layout
  | .role r => r.layout
  | .workflow w => w.layout

/-- The definitions of a program in the order in which they are written. -/
def Program.definitions (p : Program) : List Definition :=
  p.roles.map .role ++ p.actions.map .action ++ p.entities.map .entity ++ p.workflows.map .workflow

/-- The layout of a program, with an empty line after each definition. -/
def Program.layout (p : Program) : List Piece :=
  p.definitions.flatMap fun d => d.layout ++ [.gap ['\n', '\n']]

/-! ## Written as laid out -/

theorem raw_text (value : String) : (Piece.text value).written = (quoteText value).toList := rfl

theorem raw_expression (e : Expression) : raw e.layout = e.render.toList := by
  cases e with
  | text value => exact List.append_nil _
  | number value => exact List.append_nil _
  | boolean value => exact List.append_nil _
  | identifier name => exact List.append_nil _
  | property owner part => simp [Expression.layout, Expression.render]

theorem raw_argument (a : Argument) : raw a.layout = a.render.toList := by
  obtain ⟨_ | name, value⟩ := a
  · exact raw_expression value
  · by_cases hname : name.isEmpty = true
    · simp [Argument.layout, Argument.render, hname, raw_expression]
    · simp [Argument.layout, Argument.render, hname, raw_expression]

theorem raw_typeLayout (cs : List Char) : raw (typeLayout cs) = cs := by
  have hcons : ∀ c pieces, raw (consLetter c pieces) = c :: raw pieces := by
    intro c pieces
    unfold consLetter
    split <;> simp
  induction cs with
  | nil => rfl
  | cons c cs ih =>
    rw [typeLayout]
    split
    · rw [hcons, ih]
    · simp [ih]

theorem raw_typedName (t : TypedName) : raw t.layout = t.render.toList := by
  simp [TypedName.layout, TypedName.render, raw_typeLayout]

theorem raw_call (name : String) (args : List Argument) :
    raw (word name :: argumentsLayout args ++ [mark ';']) = (renderCall name args).toList := by
  unfold argumentsLayout renderCall
  split
  · simp
  · simp [raw_commas fun a _ => raw_argument a]

/-- Lines, each with a line feed in front. -/
def linesAfter (lines : List String) : List Char := lines.flatMap fun line => '\n' :: line.toList

@[simp] theorem linesAfter_nil : linesAfter [] = [] := rfl

@[simp] theorem linesAfter_cons (line : String) (lines : List String) :
    linesAfter (line :: lines) = '\n' :: line.toList ++ linesAfter lines :=
  List.flatMap_cons

@[simp] theorem linesAfter_append (lines more : List String) :
    linesAfter (lines ++ more) = linesAfter lines ++ linesAfter more :=
  List.flatMap_append

theorem toList_joinLines (line : String) (lines : List String) :
    (joinLines (line :: lines)).toList = line.toList ++ linesAfter lines := by
  induction lines generalizing line with
  | nil => simp [joinLines]
  | cons next lines ih =>
    rw [joinLines, String.intercalate_cons_cons, String.toList_append, String.toList_append,
      ← joinLines, ih, linesAfter_cons]
    simp

theorem Element.bodyInduction {motive : List Element → Prop} (nil : motive [])
    (call : ∀ name args rest, motive rest → motive (.call name args :: rest))
    (decision : ∀ condition thenBody elseBody rest, motive thenBody → motive elseBody →
      motive rest → motive (.decision condition thenBody elseBody :: rest)) :
    ∀ elements, motive elements
  | [] => nil
  | .call name args :: rest => call name args rest (bodyInduction nil call decision rest)
  | .decision condition thenBody elseBody :: rest =>
    decision condition thenBody elseBody rest (bodyInduction nil call decision thenBody)
      (bodyInduction nil call decision elseBody) (bodyInduction nil call decision rest)

theorem raw_body (depth : Nat) (elements : List Element) :
    raw (Element.layoutList depth elements) = linesAfter (Element.linesList depth elements) := by
  induction elements using Element.bodyInduction generalizing depth with
  | nil => rfl
  | call name args rest ih =>
    have hcall := raw_call name args
    rw [Element.layoutList, Element.linesList, raw_append, linesAfter_append, ih]
    simp only [Element.layout, Element.lines]
    rw [List.cons_append, raw_cons, hcall]
    simp [indentation]
  | decision condition thenBody elseBody rest ihThen ihElse ih =>
    rw [Element.layoutList, Element.linesList, raw_append, linesAfter_append, ih, Element.layout,
      Element.lines]
    by_cases helse : elseBody.isEmpty = true
    · simp [helse, ihThen, raw_expression, indentation, opening, closing]
    · simp [helse, ihThen, ihElse, raw_expression, indentation, opening, closing]

theorem raw_attribute {name : String} {pieces : Option (List Piece)} {value : Option String}
    (h : pieces.map raw = value.map String.toList) :
    raw (attributeLayout name pieces) = linesAfter (attributeLine name value) := by
  cases value with
  | none =>
    obtain rfl : pieces = none := Option.map_eq_none_iff.mp h
    rfl
  | some value =>
    obtain ⟨pieces, rfl, hraw⟩ := Option.map_eq_some_iff.mp h
    simp [attributeLayout, attributeLine, hraw, indentation]

theorem raw_description (description : String) :
    raw (descriptionLayout description) = linesAfter (descriptionLine description) := by
  refine raw_attribute ?_
  split
  · rfl
  · simp [Piece.description]

theorem raw_names (name : String) (names : List String) :
    raw (namesLayout name names) = linesAfter (namesLine name names) := by
  have hnames : raw (commas (names.map ([word ·]))) = (commaSeparated names).toList := by
    rw [raw_commas fun x _ => (by simp : raw [word x] = (id x).toList), List.map_id]
  refine raw_attribute ?_
  split
  · rfl
  · simp [hnames]

theorem raw_role (r : RoleDef) : raw r.layout = r.render.toList := by
  have hkind : raw (attributeLayout "type" (r.kind.map fun kind => [word kind.name])) =
      linesAfter (attributeLine "type" (r.kind.map ActorKind.name)) := by
    refine raw_attribute ?_
    cases r.kind with
    | none => rfl
    | some kind => simp
  unfold RoleDef.layout RoleDef.attributesLayout RoleDef.render
  simp [toList_joinLines, raw_description, hkind, opening, closing]

theorem raw_action (a : ActionDef) : raw a.layout = a.render.toList := by
  have hparameters : raw a.parametersLayout =
      (if a.parameters.isEmpty then ""
        else " (" ++ commaSeparated (a.parameters.map TypedName.render) ++ ")").toList := by
    unfold ActionDef.parametersLayout
    split
    · rfl
    · simp [raw_commas fun t _ => raw_typedName t]
  unfold ActionDef.layout ActionDef.attributesLayout ActionDef.render
  rcases hactor : a.actor <;>
    simp [toList_joinLines, raw_description, raw_names, hparameters, opening, closing,
      ActionDef.header, ActionDef.performerLayout, hactor]

theorem raw_entity (e : EntityDef) : raw e.layout = e.render.toList := by
  have hattributes : raw (e.attributes.flatMap TypedName.attributeLayout) =
      linesAfter (e.attributes.map (indentation 1 ++ ·.renderAttribute)) := by
    induction e.attributes with
    | nil => rfl
    | cons t ts ih =>
      rw [List.flatMap_cons, raw_append, ih]
      simp [TypedName.attributeLayout, raw_typedName, indentation, TypedName.renderAttribute]
  unfold EntityDef.layout EntityDef.render
  simp [toList_joinLines, hattributes, opening, closing]

theorem raw_workflow (w : WorkflowDef) : raw w.layout = w.render.toList := by
  unfold WorkflowDef.layout WorkflowDef.render
  simp [toList_joinLines, raw_body, opening, closing]

/-- A definition as text. -/
def Definition.render : Definition → String
  | .action a => a.render
  | .entity e => e.render
  | .role r => r.render
  | .workflow w => w.render

theorem raw_definition (d : Definition) : raw d.layout = d.render.toList := by
  cases d with
  | action a => exact raw_action a
  | entity e => exact raw_entity e
  | role r => exact raw_role r
  | workflow w => exact raw_workflow w

theorem Program.blocks_eq (p : Program) : p.blocks = p.definitions.map Definition.render := by
  simp only [Program.blocks, Program.definitions, List.map_append, List.map_map]
  rfl

/-- A program is written as it is laid out. -/
theorem raw_program (p : Program) : raw p.layout = p.render.toList := by
  unfold Program.layout Program.render
  rw [p.blocks_eq]
  induction p.definitions with
  | nil => rfl
  | cons d ds ih =>
    rw [List.flatMap_cons, raw_append, ih, raw_append, raw_definition]
    simp

end RoleFlow
