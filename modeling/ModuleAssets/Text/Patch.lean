import ModuleAssets.Sorted
import ModuleAssets.Text.PositionMap
/-!
# Patches — edits collected against a fixed text

An edit names positions of the given text, whatever other edits there are.
An overwrite that covers earlier edits takes their place. An edit that lands
inside an overwrite, or across one of its ends, is refused. `apply` splices
all edits at once and keeps the position map.

Offsets are kept in 32 bits where this is run for real, and cut to these. Here they are
numbers of any size, so what is said of a patch holds for texts, given and patched, of
fewer than 2^32 bytes.
-/

namespace ModuleAssets

/-- Why an edit is refused. -/
inductive PatchError where
  /-- The edit reaches past the text. -/
  | outOfBounds (start stop length : Nat)
  /-- An overwrite has to cover a byte. -/
  | emptySpan (offset : Nat)
  /-- The span cuts through an end of an overwrite. -/
  | overlap (new existing : Span)
  /-- The edit lies inside an overwrite. -/
  | insideEdit (new existing : Span)
deriving DecidableEq

/-- How messages show a span. -/
def Span.display (s : Span) : String :=
  "Span \x7b start: " ++ toString s.start ++ ", end: " ++ toString s.stop ++ " \x7d"

/-- The text of a refusal. -/
def PatchError.message : PatchError → String
  | outOfBounds start stop length =>
    "span " ++ toString start ++ ".." ++ toString stop ++ " is out of bounds for text of length "
      ++ toString length
  | emptySpan offset => "cannot overwrite an empty span at " ++ toString offset
  | overlap new existing =>
    "span " ++ new.display ++ " partially overlaps the edited span " ++ existing.display
  | insideEdit new existing =>
    "span " ++ new.display ++ " lies inside the already edited span " ++ existing.display

/-- Text to put in the place of a span. -/
structure Overwrite where
  span : Span
  text : String
deriving DecidableEq

/-- Text to put in at a position. Among the insertions of one position a
lower `rank` comes first. -/
structure Insertion where
  position : Nat
  text : String
  rank : Nat
deriving DecidableEq

/-- The edits collected for a text of `length` bytes, in the order they came. -/
structure Patch where
  length : Nat
  overwrites : List Overwrite
  insertions : List Insertion
deriving DecidableEq

/-- A patched text and the map back to the given one. -/
structure Patched where
  code : String
  map : PositionMap
deriving DecidableEq

namespace Patch

/-- No edits yet, for a text of fewer than 2^32 bytes. -/
def ofText (text : String) : Patch :=
  ⟨Text.byteLength text.toList, [], []⟩

/-- The number of edits held. -/
def editCount (p : Patch) : Nat :=
  p.overwrites.length + p.insertions.length

/-- No edit is held. -/
def isEmpty (p : Patch) : Bool :=
  p.overwrites.isEmpty && p.insertions.isEmpty

/-- An overwrite covers the span. -/
def isOverwritten (p : Patch) (span : Span) : Bool :=
  p.overwrites.any (·.span.containsSpan span)

/-- The refusal that an overwrite already held gives to one of `new`. -/
def conflict? (new existing : Span) : Option PatchError :=
  if !existing.overlaps new || new.containsSpan existing then none
  else if existing.containsSpan new then some (.insideEdit new existing)
  else some (.overlap new existing)

/-- Puts `text` in the place of `span`, dropping the edits it covers. -/
def overwrite (p : Patch) (span : Span) (text : String) : Except PatchError Patch :=
  if p.length < span.stop ∨ span.stop < span.start then
    .error (.outOfBounds span.start span.stop p.length)
  else if span.isEmpty then
    .error (.emptySpan span.start)
  else
    match p.overwrites.findSome? (conflict? span ·.span) with
    | some e => .error e
    | none =>
      .ok { p with
        overwrites := p.overwrites.filter (!span.containsSpan ·.span) ++ [⟨span, text⟩]
        insertions := p.insertions.filter (!span.containsInner ·.position) }

/-- Takes the text of `span` away. -/
def remove (p : Patch) (span : Span) : Except PatchError Patch :=
  p.overwrite span ""

/-- Puts `text` in at `position`. Its rank is the number of insertions held. -/
def appendRight (p : Patch) (position : Nat) (text : String) : Except PatchError Patch :=
  if p.length < position then
    .error (.outOfBounds position position p.length)
  else
    match p.overwrites.find? (·.span.containsInner position) with
    | some o => .error (.insideEdit (Span.empty position) o.span)
    | none => .ok { p with insertions := p.insertions ++ [⟨position, text, p.insertions.length⟩] }

/-! ## Splicing -/

/-- A part of the patched text. -/
inductive Piece where
  /-- Copied from the given text. -/
  | copied (start : Nat) (text : String)
  /-- Put in by an insertion. -/
  | inserted (text : String)
  /-- Put in the place of a span. -/
  | replaced (span : Span) (text : String)

/-- The text of a part. -/
def Piece.text : Piece → String
  | copied _ text => text
  | inserted text => text
  | replaced _ text => text

/-- Adds a part to a position map. -/
def Piece.record (b : PositionMap.Builder) : Piece → PositionMap.Builder
  | copied start text => b.addSource start text
  | inserted text => b.addGenerated text
  | replaced span text => b.addTransformed span text

/-- The given text between two positions. There is none if they are not in
order or one of them splits a character. -/
def copy (source : List Char) (start stop : Nat) : List Piece :=
  if stop ≤ start then []
  else
    match Text.sliceChars? source ⟨start, stop⟩ with
    | some cs => [.copied start (String.ofList cs)]
    | none => []

/-- The parts that insertions give from `cursor` on, and where they end. -/
def insertionPieces (source : List Char) : Nat → List Insertion → List Piece × Nat
  | cursor, [] => ([], cursor)
  | cursor, i :: rest =>
    let (pieces, last) := insertionPieces source (max cursor i.position) rest
    (copy source cursor i.position ++ .inserted i.text :: pieces, last)

/-- The parts of the patched text from `cursor` on, for edits in the order
of their positions. Insertions at the start of an overwrite come before it. -/
def pieces (source : List Char) (length : Nat) :
    Nat → List Overwrite → List Insertion → List Piece
  | cursor, [], insertions =>
    let (before, last) := insertionPieces source cursor insertions
    before ++ copy source last length
  | cursor, o :: rest, insertions =>
    let (before, last) :=
      insertionPieces source cursor (insertions.takeWhile (·.position ≤ o.span.start))
    before ++ copy source last o.span.start ++ .replaced o.span o.text ::
      pieces source length o.span.stop rest (insertions.dropWhile (·.position ≤ o.span.start))

/-- The overwrites by their starts. -/
def sortedOverwrites (p : Patch) : List Overwrite :=
  sortBy (fun a b => a.span.start ≤ b.span.start) p.overwrites

/-- The insertions by position and rank. -/
def sortedInsertions (p : Patch) : List Insertion :=
  sortBy (fun a b => a.position < b.position || (a.position == b.position && a.rank ≤ b.rank))
    p.insertions

/-- The parts of the patched text, if that has fewer than 2^32 bytes. -/
def parts (p : Patch) (source : String) : List Piece :=
  let chars := source.toList
  pieces chars (Text.byteLength chars) 0 p.sortedOverwrites p.sortedInsertions

/-- Splices every edit into `source`, the text the patch was collected for. -/
def apply (p : Patch) (source : String) : Patched :=
  let parts := p.parts source
  ⟨String.join (parts.map Piece.text), (parts.foldl Piece.record .start).build⟩

end Patch

end ModuleAssets
