import ModuleAssets.Decimal.Numeral
import ModuleAssets.Json.Value
import ModuleAssets.Text.Slice
import ModuleAssets.Text.Trim
import ModuleAssets.Text.Units
import ModuleAssets.Value.Builtin
/-!
# Values — what an expression is known to be

Conversions and comparisons are those of the language, wherever their
outcome is certain. Where it would depend on the identity of an object, or on
how an unusual number is written, there is none.
-/

namespace ModuleAssets

/-- A value that is known before the program runs. -/
inductive Value where
  | undefined
  | null
  | bool (value : Bool)
  | number (value : Float)
  | text (value : String)
  | array (items : List Value)
  /-- The members that are known. Nothing is known of others. -/
  | object (members : List (String × Value))
  | builtin (value : Builtin)
deriving Inhabited

namespace Value

/-- The text of a text. -/
def text? : Value → Option String
  | text s => some s
  | _ => none

/-- The value counts as true. -/
def truthy : Value → Bool
  | undefined | null => false
  | bool b => b
  | number x => !(x == 0.0) && !x.isNaN
  | text s => s != ""
  | array _ | object _ | builtin _ => true

/-- The value is `undefined` or `null`. -/
def isNullish : Value → Bool
  | undefined | null => true
  | _ => false

/-- The name of the value's type. -/
def typeName : Value → String
  | undefined => "undefined"
  | null | array _ | object _ => "object"
  | bool _ => "boolean"
  | number _ => "number"
  | text _ => "string"
  | builtin b => if b.isCallable then "function" else "object"

/-- The value has no identity beyond its content. -/
def isPrimitive : Value → Bool
  | array _ | object _ | builtin _ => false
  | _ => true

/-! ## Conversions -/

/-- How a number is written, for zero and magnitudes from `10 ^ -6` up to
`10 ^ 21`. Others have exponents. Of two shortest decimals equally near the
greater is written. -/
def numberText? (x : Float) : Option String :=
  if x.isNaN then some "NaN"
  else if x.isInf then some (if 0.0 < x then "Infinity" else "-Infinity")
  else if x == 0.0 then some "0"
  else
    let d := Decimal.shortest .up x
    let place := d.pointPlace
    if -6 < place ∧ place ≤ 21 then
      some (String.ofList (if x < 0.0 then '-' :: d.positional else d.positional))
    else none

/-- The number a text stands for. Nothing is known of numerals in other bases
than ten. -/
def numberOfText? (s : String) : Option Float :=
  let cs := Text.trim s.toList
  let isSign (c : Char) : Bool := c == '+' || c == '-'
  let signs := cs.takeWhile isSign
  let unsigned := cs.dropWhile isSign
  let negate (x : Float) : Float := if signs == ['-'] then -x else x
  if cs = [] then some 0.0
  else if 1 < signs.length then none
  else if unsigned = "Infinity".toList then some (negate Double.infinity)
  else if unsigned.all fun c => c.isDigit || isSign c || c == '.' || c == 'e' || c == 'E' then
    some (((Decimal.ofNumeral? unsigned).map fun d => negate d.toFloat).getD Double.nan)
  else none

/-- The value as a text. -/
def toText? : Value → Option String
  | undefined => some "undefined"
  | null => some "null"
  | bool b => some (if b then "true" else "false")
  | number x => numberText? x
  | text s => some s
  | array _ | object _ | builtin _ => none

/-- The value as a number. -/
def toNumber? : Value → Option Float
  | undefined => some Double.nan
  | null => some 0.0
  | bool b => some (if b then 1.0 else 0.0)
  | number x => some x
  | text s => numberOfText? s
  | array _ | object _ | builtin _ => none

/-! ## Comparisons -/

/-- The values are equal without conversion. -/
def strictEquals? (a b : Value) : Option Bool :=
  if a.isPrimitive && b.isPrimitive then
    some <|
      match a, b with
      | undefined, undefined | null, null => true
      | bool x, bool y => x == y
      | number x, number y => x == y
      | text x, text y => x == y
      | _, _ => false
  else none

/-- The values are equal. Of values of two types this is known only if one is
nullish. -/
def looseEquals? (a b : Value) : Option Bool :=
  if a.isPrimitive && b.isPrimitive then
    match a.isNullish, b.isNullish with
    | true, true => some true
    | false, false => if a.typeName == b.typeName then strictEquals? a b else none
    | _, _ => some false
  else none

/-- The order of two values, if they are not incomparable. The outer answer
is missing if it is not known. -/
def compare? (a b : Value) : Option (Option Ordering) :=
  match a, b with
  | text x, text y => some (some (Text.compareUnits x y))
  | _, _ =>
    match a.toNumber?, b.toNumber? with
    | some x, some y =>
      some (if x < y then some .lt else if y < x then some .gt else if x == y then some .eq
        else none)
    | _, _ => none

/-! ## Members -/

/-- The number a key stands for as the index of an array: digits without
zeros in front. -/
def indexOfKey? (key : String) : Option Nat :=
  let cs := key.toList
  if cs ≠ [] ∧ cs.all Char.isDigit ∧ (cs = ['0'] ∨ cs.head? ≠ some '0') then
    some (Decimal.natOfDigits cs)
  else none

/-- The member of a value, as far as it is known. -/
def member? (object : Value) (key : String) : Option Value :=
  match object with
  | .object members => (members.find? (·.1 == key)).map (·.2)
  | .builtin b => (b.member? key).map .builtin
  | .text s => if key = "length" then some (.number (Float.ofNat (Text.units s).length)) else none
  | .array items =>
    if key = "length" then some (.number (Float.ofNat items.length))
    else (indexOfKey? key).bind fun i => items[i]?
  | _ => none

end Value

end ModuleAssets
