import ModuleAssets.Sorted
import ModuleAssets.Text.Slice
/-!
# Line index — byte offsets and line and column positions

A line ends after each line feed, and columns count bytes. Positions are
counted from zero and shown from one. The index keeps its numbers in 32 bits,
which is enough for texts of less than 2^32 bytes.
-/

namespace ModuleAssets

/-- A line and a byte column in it, both counted from zero. -/
structure LineCol where
  line : Nat
  col : Nat
deriving DecidableEq

/-- The position as editors show it. -/
def LineCol.display (p : LineCol) : String :=
  toString (p.line + 1) ++ ":" ++ toString (p.col + 1)

/-- Where each line of a text starts. -/
structure LineIndex where
  starts : List Nat
  length : Nat

namespace LineIndex

/-- The offsets just after the line feeds, the first character being at
`offset`. -/
def startsAfter (offset : Nat) : List Char → List Nat
  | [] => []
  | c :: cs =>
    let next := offset + c.utf8Size
    if c == '\n' then next :: startsAfter next cs else startsAfter next cs

/-- A number as it is kept, in 32 bits. -/
def narrow (n : Nat) : Nat :=
  n % UInt32.size

/-- The index of a text. -/
def ofText (text : String) : LineIndex :=
  ⟨0 :: (startsAfter 0 text.toList).map narrow, narrow (Text.byteLength text.toList)⟩

/-- The number of lines. -/
def lineCount (index : LineIndex) : Nat :=
  index.starts.length

/-- The line of a byte offset: the one that starts there, or else the one
before the place at which such a line would have to be put in. -/
def lineAt (index : LineIndex) (offset : Nat) : Nat :=
  match binarySearch (compare · offset) index.starts with
  | .ok line => line
  | .error line => line - 1

/-- The position of a byte offset, if it is not past the text. -/
def lineCol? (index : LineIndex) (offset : Nat) : Option LineCol :=
  if index.length < offset then none
  else
    let line := index.lineAt offset
    index.starts[line]?.map fun start => ⟨narrow line, offset - start⟩

/-- The byte offset of a position in a line of the text. The column is not
checked against the length of the line. -/
def offset? (index : LineIndex) (p : LineCol) : Option Nat :=
  index.starts[p.line]?.map (· + p.col)

end LineIndex

end ModuleAssets
