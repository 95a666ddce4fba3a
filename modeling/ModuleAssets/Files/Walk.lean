import ModuleAssets.Files.Node
import ModuleAssets.Text.Slice
/-!
# Following a path — from the text of a path to a place

A path is followed name by name from the root. Every name, `.` and `..`
included, needs a directory to start from. A link on the way is replaced by
the names of its target; at most `linkLimit` links are followed. A path that
ends in a slash means what is found when it goes on with `.`.

Only absolute paths lead anywhere.
-/

namespace ModuleAssets

/-- Why the file system refuses an operation. -/
inductive FileError where
  | noEntry
  | exists_
  | notDirectory
  | isDirectory
  | nameTooLong
  | tooManyLinks
  /-- A path holds a character that no name can have. -/
  | invalidName
  /-- A file is not a text. -/
  | notText
deriving DecidableEq, Inhabited

namespace FileError

/-- The error in words. -/
def message : FileError → String
  | noEntry => "No such file or directory (os error 2)"
  | exists_ => "File exists (os error 17)"
  | notDirectory => "Not a directory (os error 20)"
  | isDirectory => "Is a directory (os error 21)"
  | nameTooLong => "File name too long (os error 36)"
  | tooManyLinks => "Too many levels of symbolic links (os error 40)"
  | invalidName => "file name contained an unexpected NUL byte"
  | notText => "stream did not contain valid UTF-8"

end FileError

/-- Where a path leads. -/
inductive Arrival where
  /-- To a node that is there. -/
  | found (place : List String)
  /-- To a name that is missing in a directory. -/
  | missing (directory : List String) (name : String)
deriving DecidableEq, Inhabited

namespace Arrival

/-- The number of links that are followed on the way. -/
def linkLimit : Nat := 40

/-- The bytes that a name may have. -/
def nameLimit : Nat := 255

/-- The bytes that a path may have. -/
def pathLimit : Nat := 4095

/-- The names of a path, with a `.` for a slash at its end. -/
def names (path : String) : List String :=
  let pieces := (Text.splitAtChar '/' path.toList).filter (· ≠ [])
  let steps := if path.toList.getLast? = some '/' then pieces ++ [['.']] else pieces
  steps.map String.ofList

/-- Follows names from a place. `jump` goes on from the place of a link, with
the target of the link and the names behind it. -/
def walk (root : Node) (follow : Bool)
    (jump : List String → String → List String → Except FileError Arrival)
    (place : List String) : List String → Except FileError Arrival
  | [] => .ok (.found place)
  | name :: rest =>
    match root.at? place with
    | some (.directory entries) =>
      if name = "." then walk root follow jump place rest
      else if name = ".." then walk root follow jump place.dropLast rest
      else if nameLimit < Text.byteLength name.toList then .error .nameTooLong
      else
        match Node.child? entries name with
        | none => if rest = [] then .ok (.missing place name) else .error .noEntry
        | some (.link target) =>
          if rest = [] ∧ follow = false then .ok (.found (place ++ [name]))
          else jump place target rest
        | some _ => walk root follow jump (place ++ [name]) rest
    | _ => .error .notDirectory

/-- Follows names from a place and at most so many links on the way. -/
def walkLinks (root : Node) (follow : Bool) :
    Nat → List String → List String → Except FileError Arrival
  | 0 => walk root follow fun _ _ _ => .error .tooManyLinks
  | links + 1 =>
    walk root follow fun place target rest =>
      if target = "" then .error .noEntry
      else
        walkLinks root follow links (if target.toList.head? = some '/' then [] else place)
          (names target ++ rest)

/-- Where a path leads. If its last name is a link, `follow` tells whether to
follow that too. -/
def ofPath (root : Node) (follow : Bool) (path : String) : Except FileError Arrival :=
  if path.toList.contains (Char.ofNat 0) then .error .invalidName
  else if pathLimit < Text.byteLength path.toList then .error .nameTooLong
  else if path.toList.head? = some '/' then walkLinks root follow linkLimit [] (names path)
  else .error .noEntry

end Arrival

end ModuleAssets
