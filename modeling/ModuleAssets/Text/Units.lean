/-!
# Code units — texts as UTF-16

Programs count and compare the 16-bit units of their texts, not the
characters. A character beyond the basic plane is two units.
-/

namespace ModuleAssets.Text

/-- The units of a character. -/
def unitsOf (c : Char) : List Nat :=
  if c.toNat < 0x10000 then [c.toNat]
  else
    let rest := c.toNat - 0x10000
    [0xD800 + rest / 0x400, 0xDC00 + rest % 0x400]

/-- The units of a text. -/
def units (text : String) : List Nat :=
  text.toList.flatMap unitsOf

/-- The order of lists by their first difference, a beginning first. -/
def compareLists : List Nat → List Nat → Ordering
  | [], [] => .eq
  | [], _ :: _ => .lt
  | _ :: _, [] => .gt
  | a :: as, b :: bs => if a < b then .lt else if b < a then .gt else compareLists as bs

/-- The order of texts by their units. -/
def compareUnits (a b : String) : Ordering :=
  compareLists (units a) (units b)

end ModuleAssets.Text
