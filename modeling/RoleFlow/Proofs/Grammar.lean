import RoleFlow.Source.Parser

/-!
# The grammar of workflow documents

Every nonterminal is a relation between the tokens of a phrase and what the phrase denotes:

* `Program := Definition*`, `Definition := ActionDef | EntityDef | RoleDef | WorkflowDef`
* `ActionDef := 'action' Ident 'by' Actor Params? '{' ActionAttr* '}'`
* `Actor := 'role' Ident | 'AI' | 'Al' | 'Human'`, `Params := '(' (Param (',' Param)*)? ')'`
* `Param := Ident ':' Type`, `Type := Letters ('<' Type '>')?`
* `ActionAttr := 'description' ':' String ';' | ('inputs' | 'outputs') ':' '[' IdentList ']' ';'`
* `EntityDef := 'entity' Ident '{' (Ident ':' Type ';')* '}'`
* `RoleDef := 'role' Ident '{' ('description' ':' String ';' | 'type' ':' RoleType ';')* '}'`
* `WorkflowDef := 'workflow' Ident '{' WorkflowElem* '}'`
* `WorkflowElem := 'if' '(' Expr ')' '{' WorkflowElem* '}' ('else' '{' WorkflowElem* '}')?`
  `| Ident Args? ';'`
* `Args := '(' (Arg (',' Arg)*)? ')'`, `Arg := (Ident ':')? Expr`
* `Expr := Ident '.' Ident | String | Number | Bool | Ident`

What may stand for `RoleType` is a parameter of the grammar: the kinds of actors (`IsKind`), or
all actors (`IsActor`).
-/

namespace RoleFlow

namespace Grammar

/-! ## Lists of phrases -/

section Lists

variable {α : Type} (item : List Token → α → Prop)

/-- Phrases one after the other. -/
inductive Many : List Token → List α → Prop
  | nil : Many [] []
  | cons {ts us : List Token} {x : α} {xs : List α} (head : item ts x) (tail : Many us xs) :
    Many (ts ++ us) (x :: xs)

/-- Phrases with commas between them, at least one. -/
inductive Separated : List Token → List α → Prop
  | last {ts : List Token} {x : α} (head : item ts x) : Separated ts [x]
  | more {ts us : List Token} {comma : Token} {x : α} {xs : List α} (head : item ts x)
    (hcomma : comma.isMark ',') (tail : Separated us xs) :
    Separated (ts ++ comma :: us) (x :: xs)

/-- Phrases with commas between them, perhaps none, between two marks. -/
inductive Enclosed (opening closing : Char) : List Token → List α → Prop
  | empty {first last : Token} (hfirst : first.isMark opening) (hlast : last.isMark closing) :
    Enclosed opening closing [first, last] []
  | full {first last : Token} {ts : List Token} {xs : List α} (hfirst : first.isMark opening)
    (hlast : last.isMark closing) (inner : Separated item ts xs) :
    Enclosed opening closing (first :: ts ++ [last]) xs

/-- A list in parentheses, which may be left out. -/
inductive Parenthesized : List Token → List α → Prop
  | absent : Parenthesized [] []
  | present {ts : List Token} {xs : List α} (h : Enclosed item '(' ')' ts xs) :
    Parenthesized ts xs

end Lists

/-! ## Names, texts, types and actors -/

/-- Any word. -/
inductive IsName : List Token → String → Prop
  | word {t : Token} (h : t.kind = .word) : IsName [t] t.text

/-- A text in quotes. -/
inductive IsText : List Token → String → Prop
  | text {t : Token} (h : t.kind = .text) : IsText [t] (String.ofList (unescape t.chars))

/-- Letters, perhaps with another type in angle brackets. -/
inductive IsType : List Token → String → Prop
  | plain {t : Token} (h : t.isTypeName) : IsType [t] t.text
  | generic {t less greater : Token} {ts : List Token} {argument : String} (h : t.isTypeName)
    (hless : less.isMark '<') (inner : IsType ts argument) (hgreater : greater.isMark '>') :
    IsType (t :: less :: ts ++ [greater]) (t.text ++ "<" ++ argument ++ ">")

/-- A name with its type. -/
inductive IsTypedName : List Token → TypedName → Prop
  | mk {name colon : Token} {ts : List Token} {type : String} (hname : name.kind = .word)
    (hcolon : colon.isMark ':') (htype : IsType ts type) :
    IsTypedName (name :: colon :: ts) ⟨name.text, type⟩

/-- The word of an AI or a human; `Al` reads as `AI`. -/
inductive IsKind : List Token → ActorKind → Prop
  | ai {t : Token} (h : t.isWord "AI") : IsKind [t] .ai
  | al {t : Token} (h : t.isWord "Al") : IsKind [t] .ai
  | human {t : Token} (h : t.isWord "Human") : IsKind [t] .human

/-- An AI, a human or a named role. -/
inductive IsActor : List Token → ActorKind × Option String → Prop
  | role {keyword name : Token} (hkeyword : keyword.isWord "role") (hname : name.kind = .word) :
    IsActor [keyword, name] (.role, some name.text)
  | kind {ts : List Token} {kind : ActorKind} (h : IsKind ts kind) : IsActor ts (kind, none)

/-! ## Attributes -/

/-- A keyword, a colon, a value and a semicolon. -/
inductive IsAttribute {α : Type} (keyword : String) (value : List Token → α → Prop) :
    List Token → α → Prop
  | mk {word colon semicolon : Token} {ts : List Token} {x : α} (hword : word.isWord keyword)
    (hcolon : colon.isMark ':') (hvalue : value ts x) (hsemicolon : semicolon.isMark ';') :
    IsAttribute keyword value (word :: colon :: ts ++ [semicolon]) x

/-- What an attribute of an action says. -/
inductive ActionAttribute where
  | description (text : String)
  | inputs (names : List String)
  | outputs (names : List String)

/-- An attribute of an action. -/
inductive IsActionAttribute : List Token → ActionAttribute → Prop
  | description {ts : List Token} {text : String} (h : IsAttribute "description" IsText ts text) :
    IsActionAttribute ts (.description text)
  | inputs {ts : List Token} {names : List String}
    (h : IsAttribute "inputs" (Enclosed IsName '[' ']') ts names) :
    IsActionAttribute ts (.inputs names)
  | outputs {ts : List Token} {names : List String}
    (h : IsAttribute "outputs" (Enclosed IsName '[' ']') ts names) :
    IsActionAttribute ts (.outputs names)

/-- What an attribute of a role says. -/
inductive RoleAttribute where
  | description (text : String)
  | type (kind : ActorKind)

/-- An attribute of a role, where `roleType` are the phrases of its type. -/
inductive IsRoleAttribute (roleType : List Token → ActorKind → Prop) :
    List Token → RoleAttribute → Prop
  | description {ts : List Token} {text : String} (h : IsAttribute "description" IsText ts text) :
    IsRoleAttribute roleType ts (.description text)
  | type {ts : List Token} {kind : ActorKind} (h : IsAttribute "type" roleType ts kind) :
    IsRoleAttribute roleType ts (.type kind)

/-- The last value that is given. -/
def lastGiven? {α β : Type} (given : α → Option β) (xs : List α) : Option β :=
  (xs.filterMap given).getLast?

namespace ActionAttribute

/-- The description that the attribute gives. -/
def description? : ActionAttribute → Option String
  | .description text => some text
  | _ => none

/-- The inputs that the attribute gives. -/
def inputs? : ActionAttribute → Option (List String)
  | .inputs names => some names
  | _ => none

/-- The outputs that the attribute gives. -/
def outputs? : ActionAttribute → Option (List String)
  | .outputs names => some names
  | _ => none

end ActionAttribute

namespace RoleAttribute

/-- The description that the attribute gives. -/
def description? : RoleAttribute → Option String
  | .description text => some text
  | _ => none

/-- The kind of actor that the attribute gives. -/
def kind? : RoleAttribute → Option ActorKind
  | .type kind => some kind
  | _ => none

end RoleAttribute

/-! ## Actions, entities and roles -/

/-- An action. Of several attributes of one name the last one counts. -/
inductive IsAction : List Token → ActionDef → Prop
  | mk {keyword name byWord opening closing : Token} {actor parameters attributes : List Token}
    {kind : ActorKind} {roleName : Option String} {params : List TypedName}
    {attrs : List ActionAttribute}
    (hkeyword : keyword.isWord "action") (hname : name.kind = .word) (hby : byWord.isWord "by")
    (hactor : IsActor actor (kind, roleName))
    (hparams : Parenthesized IsTypedName parameters params) (hopening : opening.isMark '\x7b')
    (hattrs : Many IsActionAttribute attributes attrs) (hclosing : closing.isMark '\x7d') :
    IsAction
      (keyword :: name :: byWord :: actor ++ parameters ++ opening :: attributes ++ [closing])
      ⟨name.text, kind, roleName, params, (lastGiven? ActionAttribute.description? attrs).getD "",
        (lastGiven? ActionAttribute.inputs? attrs).getD [],
        (lastGiven? ActionAttribute.outputs? attrs).getD []⟩

/-- An attribute of an entity. -/
inductive IsEntityAttribute : List Token → TypedName → Prop
  | mk {ts : List Token} {semicolon : Token} {found : TypedName}
    (h : IsTypedName ts found) (hsemicolon : semicolon.isMark ';') :
    IsEntityAttribute (ts ++ [semicolon]) found

/-- An entity. -/
inductive IsEntity : List Token → EntityDef → Prop
  | mk {keyword name opening closing : Token} {attributes : List Token} {attrs : List TypedName}
    (hkeyword : keyword.isWord "entity") (hname : name.kind = .word)
    (hopening : opening.isMark '\x7b') (hattrs : Many IsEntityAttribute attributes attrs)
    (hclosing : closing.isMark '\x7d') :
    IsEntity (keyword :: name :: opening :: attributes ++ [closing]) ⟨name.text, attrs⟩

/-- A role. Of several attributes of one name the last one counts. -/
inductive IsRole (roleType : List Token → ActorKind → Prop) : List Token → RoleDef → Prop
  | mk {keyword name opening closing : Token} {attributes : List Token}
    {attrs : List RoleAttribute} (hkeyword : keyword.isWord "role") (hname : name.kind = .word)
    (hopening : opening.isMark '\x7b') (hattrs : Many (IsRoleAttribute roleType) attributes attrs)
    (hclosing : closing.isMark '\x7d') :
    IsRole roleType (keyword :: name :: opening :: attributes ++ [closing])
      ⟨name.text, (lastGiven? RoleAttribute.description? attrs).getD "",
        lastGiven? RoleAttribute.kind? attrs⟩

/-! ## Workflows -/

/-- An expression. Two words and a point are a property access exactly if nothing stands between
them, and the words `true` and `false` are booleans. -/
inductive IsExpression : List Token → Expression → Prop
  | property {owner point part : Token} (howner : owner.kind = .word) (hpoint : point.isMark '.')
    (hpart : part.kind = .word) (hleft : owner.stop = point.start)
    (hright : point.stop = part.start) :
    IsExpression [owner, point, part] (.property owner.text part.text)
  | text {t : Token} (h : t.kind = .text) :
    IsExpression [t] (.text (String.ofList (unescape t.chars)))
  | number {t : Token} (h : t.kind = .number) : IsExpression [t] (.number t.number)
  | true {t : Token} (h : t.isWord "true") : IsExpression [t] (.boolean true)
  | false {t : Token} (h : t.isWord "false") : IsExpression [t] (.boolean false)
  | identifier {t : Token} (h : t.kind = .word) (htrue : t.isWord "true" = Bool.false)
    (hfalse : t.isWord "false" = Bool.false) : IsExpression [t] (.identifier t.text)

/-- An argument. -/
inductive IsArgument : List Token → Argument → Prop
  | named {name colon : Token} {ts : List Token} {value : Expression} (hname : name.kind = .word)
    (hcolon : colon.isMark ':') (hvalue : IsExpression ts value) :
    IsArgument (name :: colon :: ts) ⟨some name.text, value⟩
  | positional {ts : List Token} {value : Expression} (hvalue : IsExpression ts value) :
    IsArgument ts ⟨none, value⟩

/-- A condition in parentheses. -/
inductive IsCondition : List Token → Expression → Prop
  | mk {opening closing : Token} {ts : List Token} {value : Expression}
    (hopening : opening.isMark '(') (hvalue : IsExpression ts value)
    (hclosing : closing.isMark ')') : IsCondition (opening :: ts ++ [closing]) value

/-- Whether the word `else` comes first. -/
def BeginsWithElse (tokens : List Token) : Prop := ∃ t ∈ tokens.head?, t.isWord "else"

/-- The elements of a workflow. An element that begins with the word `if` is a decision, and the
word `else` right after the first branch of a decision opens its other branch. -/
inductive IsBody : List Token → List Element → Prop
  | nil : IsBody [] []
  | call {name semicolon : Token} {arguments rest : List Token} {args : List Argument}
    {elements : List Element} (hname : name.kind = .word) (hif : name.isWord "if" = false)
    (hargs : Parenthesized IsArgument arguments args) (hsemicolon : semicolon.isMark ';')
    (hrest : IsBody rest elements) :
    IsBody (name :: arguments ++ semicolon :: rest) (.call name.text args :: elements)
  | ifThen {keyword opening closing : Token} {condition first rest : List Token}
    {value : Expression} {thenBody elements : List Element} (hkeyword : keyword.isWord "if")
    (hcondition : IsCondition condition value) (hopening : opening.isMark '\x7b')
    (hfirst : IsBody first thenBody) (hclosing : closing.isMark '\x7d')
    (hrest : IsBody rest elements) (helse : ¬ BeginsWithElse rest) :
    IsBody (keyword :: condition ++ opening :: first ++ closing :: rest)
      (.decision value thenBody [] :: elements)
  | ifThenElse {keyword opening closing elseWord elseOpening elseClosing : Token}
    {condition first second rest : List Token} {value : Expression}
    {thenBody elseBody elements : List Element} (hkeyword : keyword.isWord "if")
    (hcondition : IsCondition condition value) (hopening : opening.isMark '\x7b')
    (hfirst : IsBody first thenBody) (hclosing : closing.isMark '\x7d')
    (helse : elseWord.isWord "else") (helseOpening : elseOpening.isMark '\x7b')
    (hsecond : IsBody second elseBody) (helseClosing : elseClosing.isMark '\x7d')
    (hrest : IsBody rest elements) :
    IsBody
      (keyword :: condition ++ opening :: first ++
        closing :: elseWord :: elseOpening :: second ++ elseClosing :: rest)
      (.decision value thenBody elseBody :: elements)

/-- A workflow. -/
inductive IsWorkflow : List Token → WorkflowDef → Prop
  | mk {keyword name opening closing : Token} {body : List Token} {elements : List Element}
    (hkeyword : keyword.isWord "workflow") (hname : name.kind = .word)
    (hopening : opening.isMark '\x7b') (hbody : IsBody body elements)
    (hclosing : closing.isMark '\x7d') :
    IsWorkflow (keyword :: name :: opening :: body ++ [closing]) ⟨name.text, elements⟩

/-! ## Documents -/

/-- A definition. -/
inductive IsDefinition (roleType : List Token → ActorKind → Prop) :
    List Token → Definition → Prop
  | action {ts : List Token} {a : ActionDef} (h : IsAction ts a) :
    IsDefinition roleType ts (.action a)
  | entity {ts : List Token} {e : EntityDef} (h : IsEntity ts e) :
    IsDefinition roleType ts (.entity e)
  | role {ts : List Token} {r : RoleDef} (h : IsRole roleType ts r) :
    IsDefinition roleType ts (.role r)
  | workflow {ts : List Token} {w : WorkflowDef} (h : IsWorkflow ts w) :
    IsDefinition roleType ts (.workflow w)

/-- A document: definitions, each kind of which is collected in source order. -/
inductive IsProgram (roleType : List Token → ActorKind → Prop) : List Token → Program → Prop
  | mk {ts : List Token} {definitions : List Definition}
    (h : Many (IsDefinition roleType) ts definitions) :
    IsProgram roleType ts (Program.ofDefinitions definitions)

end Grammar

end RoleFlow
