import RoleFlow.Json.Basic
import RoleFlow.Number.Text

/-!
# Checking JSON values against expected shapes

A check turns a JSON value into a value of the domain or lists everything that is wrong with it,
in the order of the parts it looks at. Numbers and booleans may come in several forms; texts,
lists and objects may not. These are the rules that `model_validate` follows for the declared types
of fields.

Results:
* `Checked.map_valid`, `Checked.apply_valid`, `Checked.under_valid`: what comes of checks that
  succeed.
-/

namespace RoleFlow

-- Powers are the core library's, whatever other instances are in scope: they are evaluated as one
-- operation.
attribute [local instance (2000)] instPowNat

/-- What is wrong with a value. -/
inductive IssueKind where
  | missing
  | notModel
  | notAttributes
  | notList
  | notObject
  | notString
  | notMember
  | wrongLiteral
  | tagNotFound
  | tagInvalid
  | floatParsing
  | notFloat
  | boolParsing
  | notBool
  deriving DecidableEq

/-- The name of a kind of issue. -/
def IssueKind.name : IssueKind → String
  | .missing => "missing"
  | .notModel => "model_type"
  | .notAttributes => "model_attributes_type"
  | .notList => "list_type"
  | .notObject => "dict_type"
  | .notString => "string_type"
  | .notMember => "enum"
  | .wrongLiteral => "literal_error"
  | .tagNotFound => "union_tag_not_found"
  | .tagInvalid => "union_tag_invalid"
  | .floatParsing => "float_parsing"
  | .notFloat => "float_type"
  | .boolParsing => "bool_parsing"
  | .notBool => "bool_type"

/-- A step from a value to one of its parts. -/
inductive PathStep where
  | field (name : String)
  | index (i : Nat)
  deriving DecidableEq

/-- Something wrong with the part of a value that a path leads to. -/
structure Issue where
  kind : IssueKind
  path : List PathStep
  deriving DecidableEq

/-- The outcome of a check. -/
inductive Checked (α : Type) where
  | valid (value : α)
  | invalid (issues : List Issue)

namespace Checked

variable {α β : Type}

/-- A check that fails with one issue at the value itself. -/
def fail (kind : IssueKind) : Checked α := .invalid [⟨kind, []⟩]

/-- Two checks, the issues of both being collected. -/
def seq (f : Checked (α → β)) (x : Checked α) : Checked β :=
  match f, x with
  | .valid f, .valid x => .valid (f x)
  | .valid _, .invalid issues => .invalid issues
  | .invalid issues, .valid _ => .invalid issues
  | .invalid issues, .invalid more => .invalid (issues ++ more)

instance : Applicative Checked where
  pure := .valid
  seq f x := seq f (x ())

/-- The check of a part: its issues lie behind one more step. -/
def under (step : PathStep) : Checked α → Checked α
  | .valid value => .valid value
  | .invalid issues => .invalid (issues.map fun issue => { issue with path := step :: issue.path })

/-- The value of a check that succeeded. -/
def toOption : Checked α → Option α
  | .valid value => some value
  | .invalid _ => none

@[simp] theorem map_valid (f : α → β) (x : α) : f <$> Checked.valid x = .valid (f x) := rfl

@[simp] theorem apply_valid (f : α → β) (x : α) :
    Checked.valid f <*> Checked.valid x = .valid (f x) := rfl

@[simp] theorem under_valid (step : PathStep) (x : α) : (Checked.valid x).under step = .valid x :=
  rfl

end Checked

namespace Check

variable {α : Type}

/-! ## Plain values -/

/-- A text. -/
def text : Json → Checked String
  | .str value => .valid value
  | _ => .fail .notString

/-- The double that an integer is nearest to, unless it is too large. -/
def doubleOfInt (i : Int) : Checked Double :=
  let x := Double.ofInt i
  if x.isFinite then .valid x else .fail .notFloat

/-- A number: a number, a boolean, or the text of a number. -/
def double : Json → Checked Double
  | .float value => .valid value
  | .int value => doubleOfInt value
  | .bool value => .valid (if value then .one else .zero)
  | .str value =>
    match doubleOfText? value with
    | some x => .valid x
    | none => .fail .floatParsing
  | _ => .fail .notFloat

/-- The texts that stand for true. -/
def trueTexts : List String := ["1", "on", "t", "true", "y", "yes"]

/-- The texts that stand for false. -/
def falseTexts : List String := ["0", "off", "f", "false", "n", "no"]

/-- A boolean from an integer; one that does not fit 64 bits is none at all. -/
def boolOfInt (i : Int) : Checked Bool :=
  if i = 0 then .valid false
  else if i = 1 then .valid true
  else if -2 ^ (63 : Nat) ≤ i ∧ i < 2 ^ (63 : Nat) then .fail .boolParsing
  else .fail .notBool

/-- A boolean from a number with a fraction or an exponent. The number has to be whole and inside
the range of 64 bits, whose lower end does not count. -/
def boolOfDouble (x : Double) : Checked Bool :=
  match x.toInt? with
  | some i => if i = -2 ^ (63 : Nat) then .fail .notBool else boolOfInt i
  | none => .fail .notBool

/-- A boolean: a boolean, a number that is zero or one, or one of the texts for true and false
in any case. -/
def boolean : Json → Checked Bool
  | .bool value => .valid value
  | .int value => boolOfInt value
  | .float value => boolOfDouble value
  | .str value =>
    let lower := String.ofList (value.toList.map Char.toLower)
    if trueTexts.contains lower then .valid true
    else if falseTexts.contains lower then .valid false
    else .fail .boolParsing
  | _ => .fail .notBool

/-- An optional value: null stands for none. -/
def optional (check : Json → Checked α) : Json → Checked (Option α)
  | .null => .valid none
  | json => some <$> check json

/-! ## Lists and objects -/

/-- The items of a list, numbered from `i`. -/
def itemsFrom (check : Json → Checked α) : (i : Nat) → List Json → Checked (List α)
  | _, [] => .valid []
  | i, json :: items =>
    List.cons <$> (check json).under (.index i) <*> itemsFrom check (i + 1) items

/-- A list. -/
def list (check : Json → Checked α) : Json → Checked (List α)
  | .list items => itemsFrom check 0 items
  | _ => .fail .notList

/-- An object with members of any value. -/
def object : Json → Checked Fields
  | .object fields => .valid fields
  | _ => .fail .notObject

/-- The members of an object, each checked under its name. -/
def membersOf (check : Json → Checked α) : Fields → Checked (List (String × α))
  | [] => .valid []
  | (name, json) :: fields =>
    (fun value more => (name, value) :: more) <$> (check json).under (.field name) <*>
      membersOf check fields

/-- An object whose members all have one shape. -/
def members (check : Json → Checked α) : Json → Checked (List (String × α))
  | .object fields => membersOf check fields
  | _ => .fail .notObject

/-! ## Models -/

/-- An object of known members. -/
def model (check : Fields → Checked α) : Json → Checked α
  | .object fields => check fields
  | _ => .fail .notModel

/-- A member that must be there. -/
def required (fields : Fields) (name : String) (check : Json → Checked α) : Checked α :=
  match fields.get? name with
  | some json => (check json).under (.field name)
  | none => (Checked.fail .missing).under (.field name)

/-- A member that may be absent. -/
def withDefault (fields : Fields) (name : String) (absent : α) (check : Json → Checked α) :
    Checked α :=
  match fields.get? name with
  | some json => (check json).under (.field name)
  | none => .valid absent

/-- One of a few named values. -/
def oneOf (value? : String → Option α) : Json → Checked α
  | .str name =>
    match value? name with
    | some value => .valid value
    | none => .fail .notMember
  | _ => .fail .notMember

/-- The tag that tells which of several models an object is: absent, or of the expected text. -/
def tag (fields : Fields) (expected : String) : Checked Unit :=
  withDefault fields "type" () fun
    | .str found => if found = expected then .valid () else .fail .wrongLiteral
    | _ => .fail .wrongLiteral

end Check

end RoleFlow
