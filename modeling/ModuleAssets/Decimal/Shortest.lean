import ModuleAssets.Decimal.Double
/-!
# Shortest decimals — the fewest digits that read back

`Decimal.shortest` gives, among the decimals with the fewest digits that
round to a double, the one nearest to it. Which of two is taken that are
equally near, and how the digits are laid out, is up to each format.
-/

namespace ModuleAssets

/-- The number `digits · 10 ^ exponent`. -/
structure Decimal where
  digits : Nat
  exponent : Int
deriving DecidableEq

namespace Decimal

/-- What is taken of two decimals equally near. -/
inductive Tie where
  /-- The greater one. -/
  | up
  /-- The one whose last digit is even. -/
  | even
deriving DecidableEq, Inhabited

/-- A nonnegative fraction. -/
structure Ratio where
  num : Nat
  den : Nat

/-- The fraction times a power of a base. -/
def Ratio.scale (r : Ratio) (base : Nat) (power : Int) : Ratio :=
  if 0 ≤ power then ⟨r.num * Nat.pow base power.toNat, r.den⟩
  else ⟨r.num, r.den * Nat.pow base (-power).toNat⟩

/-- The order of fractions. -/
def Ratio.le (r s : Ratio) : Bool :=
  r.num * s.den ≤ s.num * r.den

/-- The strict order of fractions. -/
def Ratio.lt (r s : Ratio) : Bool :=
  r.num * s.den < s.num * r.den

/-- The decimal as a fraction. -/
def toRatio (d : Decimal) : Ratio :=
  Ratio.scale ⟨d.digits, 1⟩ 10 d.exponent

/-- The values that round to a double, and whether the ends do so too. -/
structure Interval where
  low : Ratio
  high : Ratio
  closed : Bool

/-- The fraction lies in the interval. -/
def Interval.holds (i : Interval) (r : Ratio) : Bool :=
  if i.closed then i.low.le r && r.le i.high else i.low.lt r && r.lt i.high

/-- What rounds to a positive double. Below a power of two the next double is
half as far away. -/
def interval (b : Binary) : Interval :=
  let below := if b.mantissa = Binary.topBit ∧ Binary.leastExponent < b.exponent then 1 else 2
  ⟨Ratio.scale ⟨4 * b.mantissa - below, 4⟩ 2 b.exponent,
    Ratio.scale ⟨4 * b.mantissa + 2, 4⟩ 2 b.exponent, b.mantissa % 2 == 0⟩

/-- The power of ten at or below a positive double. -/
def magnitude (b : Binary) : Int :=
  let guess := (Int.ofNat b.mantissa.log2 + b.exponent) * 30103 / 100000
  let value := Ratio.scale ⟨b.mantissa, 1⟩ 2 b.exponent
  if (toRatio ⟨1, guess + 1⟩).le value then guess + 1
  else if (toRatio ⟨1, guess⟩).le value then guess
  else guess - 1

/-- Of the steps `n` and `n + 1` of a grid the one that is nearer to `n` and
the given rest of a step. -/
def nearer (tie : Tie) (n : Nat) (rest : Ratio) : Nat :=
  if 2 * rest.num < rest.den then n
  else if rest.den < 2 * rest.num then n + 1
  else
    match tie with
    | .up => n + 1
    | .even => n + n % 2

/-- The nearer of the two neighbours on a decimal grid that round to the
double, if one does. -/
def onGrid? (tie : Tie) (b : Binary) (exponent : Int) : Option Decimal :=
  let value := Ratio.scale ⟨b.mantissa, 1⟩ 2 b.exponent
  let steps := value.scale 10 (-exponent)
  let n := steps.num / steps.den
  let below : Decimal := ⟨n, exponent⟩
  let above : Decimal := ⟨n + 1, exponent⟩
  let i := interval b
  match i.holds below.toRatio, i.holds above.toRatio with
  | true, true => some ⟨nearer tie n ⟨steps.num % steps.den, steps.den⟩, exponent⟩
  | true, false => some below
  | false, true => some above
  | false, false => none

/-- The first grid with a hit, trying `tries` grids, each ten times finer than
the one before. -/
def search (tie : Tie) (b : Binary) : Nat → Int → Decimal
  | 0, exponent => ⟨b.mantissa, exponent⟩
  | tries + 1, exponent => (onGrid? tie b exponent).getD (search tie b tries (exponent - 1))

/-- The number without zeros at the end of its digits. -/
def trimZeros : Nat → Decimal → Decimal
  | 0, d => d
  | fuel + 1, d =>
    if d.digits % 10 = 0 ∧ d.digits ≠ 0 then trimZeros fuel ⟨d.digits / 10, d.exponent + 1⟩ else d

/-- The shortest decimal that rounds to the magnitude of a finite double. No
double needs more than 17 digits. -/
def shortest (tie : Tie) (x : Float) : Decimal :=
  let b := Binary.ofFloat x
  if b.mantissa = 0 then ⟨0, 0⟩ else trimZeros 17 (search tie b 17 (magnitude b))

/-! ## Layout -/

/-- The digits of a whole number. -/
def digitChars (n : Nat) : List Char :=
  Nat.toDigits 10 n

/-- The place of the decimal point, counted from the first digit. -/
def pointPlace (d : Decimal) : Int :=
  (digitChars d.digits).length + d.exponent

/-- Positional notation without exponent. -/
def positional (d : Decimal) : List Char :=
  let digits := digitChars d.digits
  let place := d.pointPlace
  if 0 ≤ d.exponent then digits ++ List.replicate d.exponent.toNat '0'
  else if 0 < place then digits.take place.toNat ++ '.' :: digits.drop place.toNat
  else '0' :: '.' :: List.replicate (-place).toNat '0' ++ digits

/-- One digit before the point, and a signed exponent. -/
def scientific (d : Decimal) : List Char :=
  let digits := digitChars d.digits
  let exponent := d.pointPlace - 1
  let fraction := if digits.length ≤ 1 then [] else '.' :: digits.drop 1
  digits.take 1 ++ fraction ++ 'e' :: (if exponent < 0 then '-' else '+') ::
    digitChars exponent.natAbs

end Decimal

end ModuleAssets
