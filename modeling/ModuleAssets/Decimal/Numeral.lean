import ModuleAssets.Decimal.Shortest
/-!
# Numerals — reading decimals

A numeral is digits with at most one point among them, and then perhaps an
exponent. It stands for the double nearest to its value.
-/

namespace ModuleAssets.Decimal

/-- The value of a decimal digit. -/
def digitValue (c : Char) : Nat :=
  c.toNat - '0'.toNat

/-- The whole number that decimal digits write. -/
def natOfDigits (cs : List Char) : Nat :=
  cs.foldl (fun n c => 10 * n + digitValue c) 0

/-- The double nearest to a decimal. -/
def toFloat (d : Decimal) : Float :=
  let place := d.pointPlace
  if d.digits = 0 ∨ place < -400 then 0.0
  else if 400 < place then Double.infinity
  else Float.ofScientific d.digits (d.exponent < 0) d.exponent.natAbs

/-- Reads an exponent without its letter: a sign, perhaps, and digits. -/
def exponentOf? (cs : List Char) : Option Int :=
  let (negative, digits) :=
    match cs with
    | '-' :: rest => (true, rest)
    | '+' :: rest => (false, rest)
    | _ => (false, cs)
  if digits.isEmpty || !digits.all Char.isDigit then none
  else some (if negative then -(natOfDigits digits : Int) else natOfDigits digits)

/-- Reads an unsigned numeral. It has a digit before or after the point. -/
def ofNumeral? (cs : List Char) : Option Decimal :=
  let whole := cs.takeWhile Char.isDigit
  let afterWhole := cs.dropWhile Char.isDigit
  let (fraction, afterFraction) :=
    match afterWhole with
    | '.' :: rest => (rest.takeWhile Char.isDigit, rest.dropWhile Char.isDigit)
    | _ => ([], afterWhole)
  if whole.isEmpty && fraction.isEmpty then none
  else
    let digits := natOfDigits (whole ++ fraction)
    match afterFraction with
    | [] => some ⟨digits, -(fraction.length : Int)⟩
    | c :: rest =>
      if c = 'e' ∨ c = 'E' then
        (exponentOf? rest).map fun e => ⟨digits, e - fraction.length⟩
      else none

end ModuleAssets.Decimal
