/-!
# Spans — half-open byte ranges of a text

Every position in a module is a count of UTF-8 bytes from its start. A
`Span` is a half-open range of such positions.
-/

namespace ModuleAssets

/-- The half-open byte range from `start` to `stop`. -/
structure Span where
  start : Nat
  stop : Nat
deriving DecidableEq, Inhabited

namespace Span

/-- The empty span at `offset`. -/
def empty (offset : Nat) : Span :=
  ⟨offset, offset⟩

/-- The number of bytes covered. -/
def length (s : Span) : Nat :=
  s.stop - s.start

/-- The span covers no byte. -/
def isEmpty (s : Span) : Bool :=
  s.start == s.stop

/-- The byte at `offset` is covered. -/
def contains (s : Span) (offset : Nat) : Bool :=
  s.start ≤ offset && offset < s.stop

/-- `offset` lies strictly between the two ends. -/
def containsInner (s : Span) (offset : Nat) : Bool :=
  s.start < offset && offset < s.stop

/-- `other` lies within the span. -/
def containsSpan (s other : Span) : Bool :=
  s.start ≤ other.start && other.stop ≤ s.stop

/-- The two spans share a byte. -/
def overlaps (s other : Span) : Bool :=
  s.start < other.stop && other.start < s.stop

/-- The least span over both. -/
def cover (s other : Span) : Span :=
  ⟨min s.start other.start, max s.stop other.stop⟩

end Span

end ModuleAssets
