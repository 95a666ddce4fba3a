import ModuleAssets.Text.Span
/-!
# Slices — cutting a text at byte positions

A cut is possible only between characters: `slice?` has no answer for a span
that reaches past the text or splits a character.
-/

namespace ModuleAssets.Text

/-- The number of bytes the characters take in UTF-8. -/
def byteLength : List Char → Nat
  | [] => 0
  | c :: cs => c.utf8Size + byteLength cs

/-- The characters after the first `n` bytes. -/
def dropBytes? : List Char → Nat → Option (List Char)
  | cs, 0 => some cs
  | [], _ + 1 => none
  | c :: cs, n + 1 => if c.utf8Size ≤ n + 1 then dropBytes? cs (n + 1 - c.utf8Size) else none

/-- The characters that make up the first `n` bytes. -/
def takeBytes? : List Char → Nat → Option (List Char)
  | _, 0 => some []
  | [], _ + 1 => none
  | c :: cs, n + 1 =>
    if c.utf8Size ≤ n + 1 then (takeBytes? cs (n + 1 - c.utf8Size)).map (c :: ·) else none

/-- The characters a span covers. -/
def sliceChars? (cs : List Char) (s : Span) : Option (List Char) :=
  if s.start ≤ s.stop then
    (dropBytes? cs s.start).bind (takeBytes? · (s.stop - s.start))
  else
    none

/-- The text a span covers. -/
def slice? (text : String) (s : Span) : Option String :=
  (sliceChars? text.toList s).map String.ofList

/-- The text without its last characters, if those are `ending`. -/
def dropSuffix? (cs ending : List Char) : Option (List Char) :=
  if ending.isSuffixOf cs then some (cs.take (cs.length - ending.length)) else none

/-- The text without its first characters, if those are `beginning`. -/
def dropPrefix? : List Char → List Char → Option (List Char)
  | cs, [] => some cs
  | [], _ :: _ => none
  | c :: cs, b :: bs => if c == b then dropPrefix? cs bs else none

/-- The text begins with `beginning`. -/
def startsWith (text beginning : String) : Bool :=
  beginning.toList.isPrefixOf text.toList

/-- The text ends with `ending`. -/
def endsWith (text ending : String) : Bool :=
  ending.toList.isSuffixOf text.toList

/-- Some part of the text is `part`. -/
def containsChars (part : List Char) : List Char → Bool
  | [] => part.isEmpty
  | c :: cs => part.isPrefixOf (c :: cs) || containsChars part cs

/-- The pieces between the characters equal to `mark`. -/
def splitAtChar (mark : Char) : List Char → List (List Char)
  | [] => [[]]
  | c :: cs =>
    if c == mark then
      [] :: splitAtChar mark cs
    else
      match splitAtChar mark cs with
      | [] => [[c]]
      | piece :: pieces => (c :: piece) :: pieces

/-- The pieces with `mark` between them. -/
def joinWithChar (mark : Char) : List (List Char) → List Char
  | [] => []
  | [piece] => piece
  | piece :: next :: pieces => piece ++ mark :: joinWithChar mark (next :: pieces)

end ModuleAssets.Text
