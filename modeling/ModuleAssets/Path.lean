import ModuleAssets.Text.Slice
/-!
# Paths — arithmetic on POSIX paths

Paths are texts whose segments are divided by `/`. All operations work on
the text alone. Where the answer would depend on the directory a program
runs in, there is none.

Each operation is given on characters and, under the name without `Chars`,
on strings.
-/

namespace ModuleAssets.Path

/-- Divides segments. -/
def separator : String := "/"

/-- Divides the paths of a search list. -/
def listDelimiter : String := ":"

/-- The path starts at the root, on characters. -/
def isAbsoluteChars : List Char → Bool
  | c :: _ => c == '/'
  | [] => false

/-- The path starts at the root. -/
def isAbsolute (path : String) : Bool :=
  isAbsoluteChars path.toList

/-- The pieces between slashes, empty ones included. -/
def pieces (path : List Char) : List (List Char) :=
  Text.splitAtChar '/' path

/-- One step of normalization: what a piece does to the segments kept so far,
the last of them first. -/
def keepSegment (absolute : Bool) (kept : List (List Char)) (piece : List Char) :
    List (List Char) :=
  if piece = [] ∨ piece = ['.'] then kept
  else if piece = ['.', '.'] then
    match kept with
    | last :: rest => if last = ['.', '.'] then piece :: kept else rest
    | [] => if absolute then [] else [piece]
  else piece :: kept

/-- The segments left once `.` and `..` are worked out. Above the root there
is nothing, so there `..` stays at the root. -/
def normalSegments (path : List Char) : List (List Char) :=
  ((pieces path).foldl (keepSegment (isAbsoluteChars path)) []).reverse

/-- The path ends with a slash. -/
def endsWithSlash (path : List Char) : Bool :=
  path.getLast? == some '/'

/-- Works out `.`, `..` and repeated slashes, on characters. A slash at the
end stays. -/
def normalizeChars (path : List Char) : List Char :=
  if path = [] then ['.']
  else
    let joined := Text.joinWithChar '/' (normalSegments path)
    let out := if isAbsoluteChars path then '/' :: joined else joined
    if out = [] then (if endsWithSlash path then ['.', '/'] else ['.'])
    else if endsWithSlash path ∧ out ≠ ['/'] then out ++ ['/']
    else out

/-- Works out `.`, `..` and repeated slashes. A slash at the end stays. -/
def normalize (path : String) : String :=
  String.ofList (normalizeChars path.toList)

/-- Puts segments together and normalizes the result. -/
def join (segments : List String) : String :=
  let parts := (segments.map String.toList).filter (· ≠ [])
  if parts = [] then "." else String.ofList (normalizeChars (Text.joinWithChar '/' parts))

/-- The path without slashes at its end, except for the root itself. -/
def trimSlashes (path : List Char) : List Char :=
  let trimmed := (path.reverse.dropWhile (· == '/')).reverse
  if trimmed = [] ∧ isAbsoluteChars path then ['/'] else trimmed

/-- The segments from the last absolute one on, given the segments from last
to first. None is absolute in the answer `none`. -/
def sinceAbsolute : List (List Char) → Option (List (List Char))
  | [] => none
  | segment :: before =>
    if segment = [] then sinceAbsolute before
    else if isAbsoluteChars segment then some [segment]
    else (sinceAbsolute before).map (· ++ [segment])

/-- The absolute path that segments lead to, later absolute segments starting
anew. There is none if no segment is absolute. -/
def resolve (segments : List String) : Option String :=
  (sinceAbsolute (segments.map String.toList).reverse).map fun parts =>
    String.ofList (trimSlashes (normalizeChars (Text.joinWithChar '/' parts)))

/-- Splits a path at its last slash: what stands before it, if there is one,
and what stands after it. -/
def splitLast (path : List Char) : Option (List Char) × List Char :=
  let last := (path.reverse.takeWhile (· != '/')).reverse
  if last.length < path.length then
    (some (path.take (path.length - last.length - 1)), last)
  else
    (none, path)

/-- The directory of a path. -/
def dirname (path : String) : String :=
  if path = "" then "."
  else
    match (splitLast (trimSlashes path.toList)).1 with
    | none => "."
    | some [] => "/"
    | some directory => String.ofList directory

/-- A path and the directories around it, at most `fuel` of them, up to the
first that is its own directory. -/
def climb : Nat → String → List String
  | 0, path => [path]
  | fuel + 1, path =>
    let parent := dirname path
    if parent = path then [path] else path :: climb fuel parent

/-- A path and the directories around it, nearest first. -/
def ancestors (path : String) : List String :=
  climb (path.length + 2) path

/-- The last segment of a path, on characters. -/
def basenameChars (path : List Char) : List Char :=
  let trimmed := trimSlashes path
  if trimmed = ['/'] then [] else (splitLast trimmed).2

/-- The last segment of a path, without `ending` if it ends so and is more
than that. -/
def basename (path : String) (ending : Option String) : String :=
  let base := basenameChars path.toList
  match ending with
  | none => String.ofList base
  | some ending =>
    if ending = "" ∨ base = ending.toList then String.ofList base
    else String.ofList ((Text.dropSuffix? base ending.toList).getD base)

/-- The extension of a name from its last dot on. A dot at the start of the
name begins no extension. -/
def extension (name : List Char) : List Char :=
  let tail := (name.reverse.takeWhile (· != '.')).reverse
  if tail.length + 1 < name.length then '.' :: tail else []

/-- The extension of the last segment, with its dot. -/
def extname (path : String) : String :=
  let base := basenameChars path.toList
  if base = ['.', '.'] then "" else String.ofList (extension base)

/-- Two lists without the beginning they share. -/
def dropShared {α : Type} [DecidableEq α] : List α → List α → List α × List α
  | x :: xs, y :: ys => if x = y then dropShared xs ys else (x :: xs, y :: ys)
  | xs, ys => (xs, ys)

/-- The path from one absolute path to another. -/
def relative (start target : String) : Option String :=
  if isAbsolute start && isAbsolute target then
    let segments (path : String) := (pieces (normalizeChars path.toList)).filter (· ≠ [])
    let (up, down) := dropShared (segments start) (segments target)
    some (String.ofList (Text.joinWithChar '/' (up.map (fun _ => ['.', '.']) ++ down)))
  else
    none

/-- `path` is `base` or lies below it, whole segments compared. -/
def isWithin (path base : String) : Bool :=
  let base := trimSlashes base.toList
  match Text.dropPrefix? path.toList base with
  | some rest => rest = [] || isAbsoluteChars rest || base = ['/']
  | none => false

end ModuleAssets.Path
