/-!
# Doubles — binary numbers of 53 bits, taken apart exactly

A finite double is a sign and `mantissa · 2 ^ exponent`. Exact remainders and
exact decimal digits are worked out on these whole numbers.
-/

namespace ModuleAssets

/-- The number `mantissa · 2 ^ exponent`, or its negative. -/
structure Binary where
  negative : Bool
  mantissa : Nat
  exponent : Int
deriving DecidableEq

namespace Binary

/-- The least exponent of a double. -/
def leastExponent : Int := -1074

/-- The bit above the stored bits of a mantissa. Numbers of the least exponent
may do without it. -/
def topBit : Nat := Nat.pow 2 52

/-- The bit of the sign. -/
def signBit : Nat := Nat.pow 2 63

/-- The parts of a finite double. -/
def ofFloat (x : Float) : Binary :=
  let bits := x.toBits.toNat
  let fraction := bits % topBit
  let biased := bits / topBit % 2048
  let negative := bits / signBit == 1
  if biased = 0 then ⟨negative, fraction, leastExponent⟩
  else ⟨negative, fraction + topBit, Int.ofNat biased - 1075⟩

/-- The double with these parts, if the mantissa has at most 53 bits and the
exponent is that of a double. -/
def toFloat (b : Binary) : Float :=
  let shift := min (52 - b.mantissa.log2) (b.exponent - leastExponent).toNat
  let mantissa := b.mantissa * Nat.pow 2 shift
  let exponent := b.exponent - shift
  let magnitude :=
    if mantissa < topBit then mantissa
    else (exponent + 1075).toNat * topBit + (mantissa - topBit)
  Float.ofBits (UInt64.ofNat (magnitude + if b.negative then signBit else 0))

end Binary

namespace Double

/-- Not a number. -/
def nan : Float := 0.0 / 0.0

/-- Above all numbers. -/
def infinity : Float := 1.0 / 0.0

/-- The remainder of the division that rounds toward zero. It is exact and
has the sign of the dividend. -/
def remainder (x y : Float) : Float :=
  if x.isNaN || y.isNaN || x.isInf || y == 0.0 then nan
  else if y.isInf || x == 0.0 then x
  else
    let a := Binary.ofFloat x
    let b := Binary.ofFloat y
    let exponent := min a.exponent b.exponent
    let whole (c : Binary) : Nat := c.mantissa * Nat.pow 2 (c.exponent - exponent).toNat
    Binary.toFloat ⟨a.negative, whole a % whole b, exponent⟩

end Double

end ModuleAssets
