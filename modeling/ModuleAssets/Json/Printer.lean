import ModuleAssets.Json.Value
/-!
# Writing JSON — compact and indented

Strings escape only the quote, the backslash and control characters. Numbers
that are not whole are written as the shortest decimal that reads back, with
an even last digit if two are equally near.
-/

namespace ModuleAssets.Json

/-- A hexadecimal digit in lower case. -/
def hexDigit (n : Nat) : Char :=
  if n < 10 then Char.ofNat ('0'.toNat + n) else Char.ofNat ('a'.toNat + (n - 10))

/-- How a character is written inside quotes. -/
def escapeChar (c : Char) : List Char :=
  if c = '"' then ['\\', '"']
  else if c = '\\' then ['\\', '\\']
  else if c.toNat < 0x20 then
    if c.toNat = 8 then ['\\', 'b']
    else if c.toNat = 9 then ['\\', 't']
    else if c.toNat = 10 then ['\\', 'n']
    else if c.toNat = 12 then ['\\', 'f']
    else if c.toNat = 13 then ['\\', 'r']
    else ['\\', 'u', '0', '0', hexDigit (c.toNat / 16), hexDigit (c.toNat % 16)]
  else [c]

/-- A text between quotes, on characters. -/
def quoteChars (cs : List Char) : List Char :=
  '"' :: (cs.flatMap escapeChar ++ ['"'])

/-- A text between quotes. -/
def quote (text : String) : String :=
  String.ofList (quoteChars text.toList)

/-- A number that is not whole, or too large to be kept so. Positional
notation is for magnitudes from `10 ^ -5` up to `10 ^ 16`, and shows a
fraction. -/
def doubleText (x : Float) : String :=
  let d := Decimal.shortest .even x
  let place := d.pointPlace
  let body :=
    if d.digits = 0 then ['0', '.', '0']
    else if 0 ≤ d.exponent ∧ place ≤ 16 then d.positional ++ ['.', '0']
    else if -5 < place ∧ place ≤ 16 then d.positional
    else d.scientific
  String.ofList (if (Binary.ofFloat x).negative then '-' :: body else body)

/-- A value without parts. -/
def scalarText : Json → String
  | null => "null"
  | bool true => "true"
  | bool false => "false"
  | integer n => toString n
  | double x => doubleText x
  | string s => quote s
  | array _ => "[]"
  | object _ => "\x7b\x7d"

mutual

/-- The value without any blanks. -/
def compact : Json → String
  | array items => "[" ++ compactItems items ++ "]"
  | object members => "\x7b" ++ compactMembers members ++ "\x7d"
  | value => scalarText value

/-- The items of an array with commas between them. -/
def compactItems : List Json → String
  | [] => ""
  | [item] => compact item
  | item :: rest => compact item ++ "," ++ compactItems rest

/-- The members of an object with commas between them. -/
def compactMembers : List (String × Json) → String
  | [] => ""
  | [(key, value)] => quote key ++ ":" ++ compact value
  | (key, value) :: rest => quote key ++ ":" ++ compact value ++ "," ++ compactMembers rest

end

/-- A new line, indented by two blanks a level. -/
def lineBreak (level : Nat) : String :=
  String.ofList ('\n' :: List.replicate (2 * level) ' ')

mutual

/-- The value with each item and member on a line of its own. -/
def pretty (level : Nat) : Json → String
  | array (item :: rest) =>
    "[" ++ prettyItems (level + 1) (item :: rest) ++ lineBreak level ++ "]"
  | object (m :: rest) =>
    "\x7b" ++ prettyMembers (level + 1) (m :: rest) ++ lineBreak level ++ "\x7d"
  | value => scalarText value

/-- The items of an array, each on its line. -/
def prettyItems (level : Nat) : List Json → String
  | [] => ""
  | [item] => lineBreak level ++ pretty level item
  | item :: rest => lineBreak level ++ pretty level item ++ "," ++ prettyItems level rest

/-- The members of an object, each on its line. -/
def prettyMembers (level : Nat) : List (String × Json) → String
  | [] => ""
  | [(key, value)] => lineBreak level ++ quote key ++ ": " ++ pretty level value
  | (key, value) :: rest =>
    lineBreak level ++ quote key ++ ": " ++ pretty level value ++ "," ++ prettyMembers level rest

end

end ModuleAssets.Json
