import RoleFlow.Number.Double

/-!
# JSON values

Objects keep their members in order, and whole numbers are kept apart from numbers with a
fraction or an exponent. Whole numbers may have any size.

Results:
* `Fields.get?_put`: a member that was set is found, and every other member is as before.
-/

namespace RoleFlow

/-- A JSON value. -/
inductive Json where
  | null
  | bool (value : Bool)
  | int (value : Int)
  | float (value : Double)
  | str (value : String)
  | list (items : List Json)
  | object (fields : List (String × Json))

instance : Inhabited Json := ⟨.null⟩

/-- The members of an object, in order. -/
abbrev Fields := List (String × Json)

namespace Fields

/-- The value of a member. -/
def get? : Fields → String → Option Json
  | [], _ => none
  | (key, value) :: fields, name => if key = name then some value else get? fields name

/-- The members with one of them set: in its place if it is there, at the end if not. -/
def put : Fields → String → Json → Fields
  | [], name, value => [(name, value)]
  | (key, old) :: fields, name, value =>
    if key = name then (key, value) :: fields else (key, old) :: put fields name value

/-- The members set one after the other. -/
def ofList (members : List (String × Json)) : Fields :=
  members.foldl (fun fields (name, value) => put fields name value) []

theorem get?_put (fields : Fields) (name other : String) (value : Json) :
    (put fields name value).get? other =
      if name = other then some value else fields.get? other := by
  induction fields with
  | nil => rfl
  | cons member fields ih => grind [put, get?]

end Fields

namespace Json

/-- Whether a value counts as absent where a text is wanted: null, false, a zero, and the empty
text, list and object. -/
def isVoid : Json → Bool
  | .null => true
  | .bool value => !value
  | .int value => value == 0
  | .float value => value.isZero
  | .str value => value.isEmpty
  | .list items => items.isEmpty
  | .object fields => fields.isEmpty

/-- A list of texts as a JSON value. -/
def ofStrings (items : List String) : Json := .list (items.map .str)

/-- A text, or null. -/
def ofString? : Option String → Json
  | some value => .str value
  | none => .null

/-- A natural number as a JSON value. -/
def ofNat (n : Nat) : Json := .int n

/-- The member of an object; a value that is no object has none. -/
def get? (json : Json) (name : String) : Option Json :=
  match json with
  | .object fields => Fields.get? fields name
  | _ => none

/-- The object with a member set; a value that is no object stays as it is. -/
def put (json : Json) (name : String) (value : Json) : Json :=
  match json with
  | .object fields => .object (Fields.put fields name value)
  | json => json

/-- The parts that a value is made of: the characters of a text, the items of a list, the names of
an object's members. -/
def parts? : Json → Option (List Json)
  | .str value => some (value.toList.map fun c => .str (String.singleton c))
  | .list items => some items
  | .object fields => some (fields.map fun (name, _) => .str name)
  | _ => none

/-! ## Depth -/

mutual

/-- How deep a value nests: one for itself, and what its deepest part adds. -/
def depth : Json → Nat
  | .list items => depthOfItems items + 1
  | .object fields => depthOfFields fields + 1
  | _ => 1

/-- The depth of the deepest item. -/
def depthOfItems : List Json → Nat
  | [] => 0
  | item :: items => max item.depth (depthOfItems items)

/-- The depth of the deepest member. -/
def depthOfFields : List (String × Json) → Nat
  | [] => 0
  | (_, value) :: fields => max value.depth (depthOfFields fields)

end

/-! ## Infinite numbers -/

mutual

/-- The value with null in place of every infinite number, as JSON text without a spelling for
infinity carries it. -/
def withoutInfinities : Json → Json
  | .float value => if value.isFinite then .float value else .null
  | .list items => .list (withoutInfinitiesItems items)
  | .object fields => .object (withoutInfinitiesFields fields)
  | json => json

/-- `withoutInfinities` on each item. -/
def withoutInfinitiesItems : List Json → List Json
  | [] => []
  | item :: items => item.withoutInfinities :: withoutInfinitiesItems items

/-- `withoutInfinities` on each member. -/
def withoutInfinitiesFields : List (String × Json) → List (String × Json)
  | [] => []
  | (name, value) :: fields => (name, value.withoutInfinities) :: withoutInfinitiesFields fields

end

end Json

end RoleFlow
