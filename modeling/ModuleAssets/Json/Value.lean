import ModuleAssets.Decimal.Numeral
/-!
# JSON values — and the members of objects

The members of an object keep the order in which their keys first appear.
`Json.merged` gives a repeated key its first place and its last value.
-/

namespace ModuleAssets

/-- A JSON value. Whole numbers that fit 64 bits are kept apart from other
numbers. -/
inductive Json where
  | null
  | bool (value : Bool)
  | integer (value : Int)
  | double (value : Float)
  | string (value : String)
  | array (items : List Json)
  | object (members : List (String × Json))
deriving Inhabited

namespace Json

/-- Sets the value of a key, at the key's place if it has one and else at the
end. -/
def setMember {α : Type} (members : List (String × α)) (key : String) (value : α) :
    List (String × α) :=
  match members with
  | [] => [(key, value)]
  | (k, v) :: rest => if k = key then (k, value) :: rest else (k, v) :: setMember rest key value

/-- The members with every key once. -/
def mergeMembers {α : Type} (members : List (String × α)) : List (String × α) :=
  members.foldl (fun merged m => setMember merged m.1 m.2) []

/-- The value of a key. -/
def member? {α : Type} (members : List (String × α)) (key : String) : Option α :=
  (members.find? (·.1 == key)).map (·.2)

mutual

/-- The value with every key of every object once. -/
def merged : Json → Json
  | array items => array (mergedItems items)
  | object members => object (mergeMembers (mergedMembers members))
  | value => value

/-- `merged` for the items of an array. -/
def mergedItems : List Json → List Json
  | [] => []
  | item :: rest => merged item :: mergedItems rest

/-- `merged` for the values of members. -/
def mergedMembers : List (String × Json) → List (String × Json)
  | [] => []
  | (key, value) :: rest => (key, merged value) :: mergedMembers rest

end

/-- The value of a key, if the value is an object that has it. -/
def get? : Json → String → Option Json
  | object members, key => member? members key
  | _, _ => none

/-- The text of a string value. -/
def string? : Json → Option String
  | string value => some value
  | _ => none

end Json

end ModuleAssets
