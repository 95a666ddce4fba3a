import ModuleAssets.Json.Value
/-!
# Reading JSON

`Json.read?` reads a whole text. Arrays and objects nest up to 127 deep. A
number that is not kept whole is worked out from digits that fit 64 bits
together, those at its start and those after the point, by one division or
multiplication with a power of ten.
-/

namespace ModuleAssets.Json

/-- The rest of a text without the blanks it starts with. -/
def skipBlanks (cs : List Char) : List Char :=
  cs.dropWhile fun c => c == ' ' || c == '\n' || c == '\t' || c == '\r'

/-! ## Strings -/

/-- The value of a hexadecimal digit. -/
def hexValue? (c : Char) : Option Nat :=
  if c.isDigit then some (c.toNat - '0'.toNat)
  else if 'a' ≤ c ∧ c ≤ 'f' then some (c.toNat - 'a'.toNat + 10)
  else if 'A' ≤ c ∧ c ≤ 'F' then some (c.toNat - 'A'.toNat + 10)
  else none

/-- Four hexadecimal digits and the rest. -/
def hexQuad? : List Char → Option (Nat × List Char)
  | a :: b :: c :: d :: rest => do
    let a ← hexValue? a
    let b ← hexValue? b
    let c ← hexValue? c
    let d ← hexValue? d
    return (((a * 16 + b) * 16 + c) * 16 + d, rest)
  | _ => none

/-- The character of an escape, after its backslash, and the rest. Code units
of a surrogate pair come together. -/
def escaped? : List Char → Option (Char × List Char)
  | '"' :: rest => some ('"', rest)
  | '\\' :: rest => some ('\\', rest)
  | '/' :: rest => some ('/', rest)
  | 'b' :: rest => some (Char.ofNat 8, rest)
  | 'f' :: rest => some (Char.ofNat 12, rest)
  | 'n' :: rest => some ('\n', rest)
  | 'r' :: rest => some ('\r', rest)
  | 't' :: rest => some ('\t', rest)
  | 'u' :: rest => do
    let (unit, rest) ← hexQuad? rest
    if 0xD800 ≤ unit ∧ unit < 0xDC00 then
      match rest with
      | '\\' :: 'u' :: rest =>
        let (low, rest) ← hexQuad? rest
        if 0xDC00 ≤ low ∧ low < 0xE000 then
          return (Char.ofNat (0x10000 + (unit - 0xD800) * 0x400 + (low - 0xDC00)), rest)
        else none
      | _ => none
    else if 0xDC00 ≤ unit ∧ unit < 0xE000 then none
    else return (Char.ofNat unit, rest)
  | _ => none

/-- The text up to the closing quote, and the rest. `fuel` bounds the number
of characters. -/
def stringBody? : Nat → List Char → Option (List Char × List Char)
  | 0, _ => none
  | _ + 1, [] => none
  | fuel + 1, c :: rest =>
    if c = '"' then some ([], rest)
    else if c = '\\' then do
      let (d, rest) ← escaped? rest
      let (body, rest) ← stringBody? fuel rest
      return (d :: body, rest)
    else if c.toNat < 0x20 then none
    else do
      let (body, rest) ← stringBody? fuel rest
      return (c :: body, rest)

/-- A string after its opening quote, and the rest. -/
def stringAfterQuote? (cs : List Char) : Option (String × List Char) :=
  (stringBody? (cs.length + 1) cs).map fun (body, rest) => (String.ofList body, rest)

/-! ## Numbers -/

/-- The largest number of 64 bits. -/
def maxUnsigned : Nat := Nat.pow 2 64 - 1

/-- The digits that fit 64 bits together with those of `n` in front of them,
as one number, and the digits left over. -/
def significand (n : Nat) : List Char → Nat × List Char
  | [] => (n, [])
  | c :: cs =>
    let next := 10 * n + Decimal.digitValue c
    if maxUnsigned < next then (n, c :: cs) else significand next cs

/-- `n · 10 ^ exponent` by one rounded operation. Exponents below `-308` take
further divisions first. A number too large for a double has none. -/
def scaled? : Nat → Float → Int → Option Float
  | 0, x, _ => some x
  | fuel + 1, x, exponent =>
    if exponent.natAbs ≤ 308 then
      let power := Float.ofScientific 1 false exponent.natAbs
      if 0 ≤ exponent then
        if (x * power).isInf then none else some (x * power)
      else some (x / power)
    else if x == 0.0 then some x
    else if 0 ≤ exponent then none
    else scaled? fuel (x / Float.ofScientific 1 false 308) (exponent + 308)

/-- A number that is not kept whole, from its first digits. -/
def doubleOf? (negative : Bool) (n : Nat) (exponent : Int) : Option Json :=
  let capped := max (-100000) exponent
  (scaled? 400 (Float.ofNat n) capped).map fun x => double (if negative then -x else x)

/-- The exponent after its letter, and the rest. -/
def exponentPart? (cs : List Char) : Option (Int × List Char) :=
  let (negative, rest) :=
    match cs with
    | '-' :: rest => (true, rest)
    | '+' :: rest => (false, rest)
    | _ => (false, cs)
  let digits := rest.takeWhile Char.isDigit
  if digits.isEmpty then none
  else
    let n : Int := Decimal.natOfDigits digits
    some (if negative then -n else n, rest.dropWhile Char.isDigit)

/-- The end of a number after its digits: an exponent, perhaps. -/
def numberEnd? (negative : Bool) (n : Nat) (exponent : Int) (cs : List Char) :
    Option (Json × List Char) :=
  match cs with
  | c :: rest =>
    if c = 'e' ∨ c = 'E' then do
      let (e, rest) ← exponentPart? rest
      return (← doubleOf? negative n (exponent + e), rest)
    else (doubleOf? negative n exponent).map (·, cs)
  | [] => (doubleOf? negative n exponent).map (·, [])

/-- A number without its sign, and the rest. -/
def unsigned? (negative : Bool) (cs : List Char) : Option (Json × List Char) :=
  let whole := cs.takeWhile Char.isDigit
  let rest := cs.dropWhile Char.isDigit
  if whole.isEmpty || (whole.head? == some '0' && whole.length != 1) then none
  else
    let (n, dropped) := significand 0 whole
    match rest with
    | '.' :: rest =>
      let fraction := rest.takeWhile Char.isDigit
      let rest := rest.dropWhile Char.isDigit
      if fraction.isEmpty then none
      else
        let (n, unread) := significand n fraction
        let exponent : Int := dropped.length - (fraction.length - unread.length : Nat)
        numberEnd? negative n exponent rest
    | c :: _ =>
      if c = 'e' ∨ c = 'E' ∨ !dropped.isEmpty then numberEnd? negative n dropped.length rest
      else some (wholeNumber n, rest)
    | [] =>
      if dropped.isEmpty then some (wholeNumber n, []) else numberEnd? negative n dropped.length []
where
  /-- A whole number. Zero with a sign, and numbers below the least one of 64
  bits, are doubles. -/
  wholeNumber (n : Nat) : Json :=
    if !negative then integer n
    else if n = 0 ∨ Nat.pow 2 63 < n then double (-Float.ofNat n)
    else integer (-(n : Int))

/-! ## Values -/

/-- What follows a value inside brackets: a comma with the rest, or the
closing bracket with the rest. -/
def separator? (closing : Char) (cs : List Char) : Option (Bool × List Char) :=
  match skipBlanks cs with
  | c :: rest =>
    if c = ',' then some (true, rest) else if c = closing then some (false, rest) else none
  | [] => none

/-- The items of an array up to its closing bracket, each read by `item`. -/
def items? {α : Type} (item : List Char → Option (α × List Char)) :
    Nat → List Char → Option (List α × List Char)
  | 0, _ => none
  | fuel + 1, cs => do
    let (value, rest) ← item cs
    let (more, rest) ← separator? ']' rest
    if more then
      let (values, rest) ← items? item fuel rest
      return (value :: values, rest)
    else
      return ([value], rest)

/-- A key with its value. -/
def memberPair? {α : Type} (item : List Char → Option (α × List Char)) (cs : List Char) :
    Option ((String × α) × List Char) :=
  match skipBlanks cs with
  | '"' :: rest => do
    let (key, rest) ← stringAfterQuote? rest
    match skipBlanks rest with
    | ':' :: rest =>
      let (value, rest) ← item rest
      return ((key, value), rest)
    | _ => none
  | _ => none

/-- The members of an object up to its closing bracket. -/
def members? {α : Type} (item : List Char → Option (α × List Char)) :
    Nat → List Char → Option (List (String × α) × List Char)
  | 0, _ => none
  | fuel + 1, cs => do
    let (pair, rest) ← memberPair? item cs
    let (more, rest) ← separator? '\x7d' rest
    if more then
      let (pairs, rest) ← members? item fuel rest
      return (pair :: pairs, rest)
    else
      return ([pair], rest)

/-- A value with brackets to spare for `depth` levels, and the rest. -/
def value? : Nat → List Char → Option (Json × List Char)
  | depth, cs =>
    match skipBlanks cs with
    | 'n' :: 'u' :: 'l' :: 'l' :: rest => some (null, rest)
    | 't' :: 'r' :: 'u' :: 'e' :: rest => some (bool true, rest)
    | 'f' :: 'a' :: 'l' :: 's' :: 'e' :: rest => some (bool false, rest)
    | '"' :: rest => (stringAfterQuote? rest).map fun (s, rest) => (string s, rest)
    | '-' :: rest => unsigned? true rest
    | '[' :: rest =>
      match depth with
      | 0 => none
      | depth + 1 =>
        match skipBlanks rest with
        | ']' :: rest => some (array [], rest)
        | rest => (items? (value? depth) (rest.length + 1) rest).map fun (l, r) => (array l, r)
    | '\x7b' :: rest =>
      match depth with
      | 0 => none
      | depth + 1 =>
        match skipBlanks rest with
        | '\x7d' :: rest => some (object [], rest)
        | rest => (members? (value? depth) (rest.length + 1) rest).map fun (l, r) => (object l, r)
    | rest => unsigned? false rest

/-- How many levels arrays and objects may nest. -/
def maxDepth : Nat := 127

/-- Reads a whole text. The members of objects stay as they are written,
repeated keys included. -/
def read? (text : String) : Option Json :=
  match value? maxDepth text.toList with
  | some (value, rest) => if (skipBlanks rest).isEmpty then some value else none
  | none => none

end ModuleAssets.Json
