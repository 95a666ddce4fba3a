import ModuleAssets.Json.Value
/-!
# Decoding — JSON values as values of other types

A decoder has no answer for a value of another type. Numbers with a fraction
or an exponent are not whole numbers.
-/

namespace ModuleAssets.Json

/-- A truth value. -/
def bool? : Json → Option Bool
  | bool b => some b
  | _ => none

/-- A whole number of at most so many bits that is not negative. -/
def word? (bits : Nat) : Json → Option Nat
  | integer n => if 0 ≤ n ∧ n < Nat.pow 2 bits then some n.toNat else none
  | _ => none

/-- A list of items of one type. -/
def list? {α : Type} (item? : Json → Option α) : Json → Option (List α)
  | array items => items.mapM item?
  | _ => none

/-- A value that may be null. -/
def nullable? {α : Type} (value? : Json → Option α) : Json → Option (Option α)
  | null => some none
  | value => (value? value).map some

/-- The members of an object. -/
def objectMembers? : Json → Option (List (String × Json))
  | object members => some members
  | _ => none

/-- None of the keys occurs twice among the members. -/
def keysOnce {α : Type} (keys : List String) (members : List (String × α)) : Bool :=
  keys.all fun key => members.countP (·.1 == key) ≤ 1

end ModuleAssets.Json
