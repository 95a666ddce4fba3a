import ModuleAssets.Sorted
import ModuleAssets.Text.Slice
/-!
# Position maps — from the patched text back to the given one

A `PositionMap` pairs spans of a patched text with the spans of the given
text they come from. It is put together from left to right by `Builder`.

As in a patch, offsets are numbers of any size, for texts of fewer than 2^32 bytes.
-/

namespace ModuleAssets

/-- A span of the patched text and the span it stands for. -/
structure Mapping where
  generated : Span
  given : Span
deriving DecidableEq

/-- The mappings in the order of the patched text. -/
structure PositionMap where
  mappings : List Mapping
deriving DecidableEq

namespace PositionMap

/-- A map without mappings. -/
def empty : PositionMap :=
  ⟨[]⟩

/-- Where `offset` of `inside` lies in `outside`. Within spans of one length
positions correspond one to one; otherwise all of them go to the start. -/
def transfer (inside outside : Span) (offset : Nat) : Nat :=
  if inside.length = outside.length then outside.start + (offset - inside.start) else outside.start

/-- The mapping of a position of the patched text. Where none starts at the
position, the one before the place at which it would be put in is looked at. -/
def mappingAt? (map : PositionMap) (offset : Nat) : Option Mapping :=
  let index :=
    match binarySearch (fun m => compare m.generated.start offset) map.mappings with
    | .ok index => index
    | .error index => index - 1
  map.mappings[index]?.filter (·.generated.contains offset)

/-- The given position that a position of the patched text stands for. -/
def givenPosition (map : PositionMap) (offset : Nat) : Option Nat :=
  (map.mappingAt? offset).map fun m => transfer m.generated m.given offset

/-- Where a position of the given text went. -/
def generatedPosition (map : PositionMap) (offset : Nat) : Option Nat :=
  (map.mappings.find? (·.given.contains offset)).map fun m =>
    transfer m.given m.generated offset

/-! ## Building -/

/-- The mappings so far, latest first, and the length of the text they are
for, which is to stay below 2^32 bytes. -/
structure Builder where
  reversed : List Mapping
  offset : Nat

namespace Builder

/-- Nothing written yet. -/
def start : Builder :=
  ⟨[], 0⟩

/-- Writes text that stands for `given`. Empty text leaves no mapping. -/
def addTransformed (b : Builder) (given : Span) (text : String) : Builder :=
  let n := Text.byteLength text.toList
  if n = 0 then b else ⟨⟨⟨b.offset, b.offset + n⟩, given⟩ :: b.reversed, b.offset + n⟩

/-- Writes text copied from the given text at `givenStart`. -/
def addSource (b : Builder) (givenStart : Nat) (text : String) : Builder :=
  b.addTransformed ⟨givenStart, givenStart + Text.byteLength text.toList⟩ text

/-- Writes text that stands for nothing. -/
def addGenerated (b : Builder) (text : String) : Builder :=
  { b with offset := b.offset + Text.byteLength text.toList }

/-- The finished map. -/
def build (b : Builder) : PositionMap :=
  ⟨sortBy (fun x y => x.generated.start ≤ y.generated.start) b.reversed.reverse⟩

end Builder

end PositionMap

end ModuleAssets
