import ModuleAssets.Text.Slice
/-!
# UTF-8 — texts from bytes that may not be one

`Text.ofBytes` reads any bytes. Each longest run of bytes that begins a
character but does not finish it, and each other byte that fits nowhere, is
read as one replacement character.
-/

namespace ModuleAssets.Text

/-- Stands for bytes that make up no character. -/
def replacement : Char := Char.ofNat 0xFFFD

/-- What a first byte asks for: how many bytes follow, the range of the next
of them, and the bits that the first byte gives. -/
def leadByte? (b : Nat) : Option (Nat × Nat × Nat × Nat) :=
  if 0xC2 ≤ b ∧ b ≤ 0xDF then some (1, 0x80, 0xBF, b - 0xC0)
  else if b = 0xE0 then some (2, 0xA0, 0xBF, 0)
  else if b = 0xED then some (2, 0x80, 0x9F, b - 0xE0)
  else if 0xE1 ≤ b ∧ b ≤ 0xEF then some (2, 0x80, 0xBF, b - 0xE0)
  else if b = 0xF0 then some (3, 0x90, 0xBF, 0)
  else if b = 0xF4 then some (3, 0x80, 0x8F, b - 0xF0)
  else if 0xF1 ≤ b ∧ b ≤ 0xF3 then some (3, 0x80, 0xBF, b - 0xF0)
  else none

/-- A character that is being read: how many bytes it needs, the range of the
next of them, and its bits so far. -/
structure Unfinished where
  needed : Nat
  low : Nat
  high : Nat
  bits : Nat

/-- Reads a byte that begins a character or is one. -/
def beginChar (b : Nat) : List Char × Option Unfinished :=
  if b < 0x80 then ([Char.ofNat b], none)
  else
    match leadByte? b with
    | some (needed, low, high, bits) => ([], some ⟨needed, low, high, bits⟩)
    | none => ([replacement], none)

/-- Reads bytes, the first of them perhaps within a character. -/
def decodeFrom : Option Unfinished → List UInt8 → List Char
  | none, [] => []
  | some _, [] => [replacement]
  | none, b :: rest =>
    let (chars, state) := beginChar b.toNat
    chars ++ decodeFrom state rest
  | some u, b :: rest =>
    if u.low ≤ b.toNat ∧ b.toNat ≤ u.high then
      let bits := u.bits * 64 + (b.toNat - 0x80)
      if u.needed = 1 then Char.ofNat bits :: decodeFrom none rest
      else decodeFrom (some ⟨u.needed - 1, 0x80, 0xBF, bits⟩) rest
    else
      let (chars, state) := beginChar b.toNat
      replacement :: (chars ++ decodeFrom state rest)

/-- The text of some bytes, whatever they are. -/
def ofBytes (bytes : ByteArray) : String :=
  (String.fromUTF8? bytes).getD (String.ofList (decodeFrom none bytes.toList))

end ModuleAssets.Text
