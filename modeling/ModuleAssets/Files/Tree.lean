import ModuleAssets.Files.Walk
import ModuleAssets.Text.Utf8
/-!
# File trees — what is on the disk

Questions and changes as a program puts them to the file system, on a tree
held in memory. A change gives the new tree. Files can always be read and
written, whatever their permission bits say.
-/

namespace ModuleAssets

/-- A file system, from its root. -/
structure FileTree where
  root : Node
deriving Inhabited

namespace FileTree

/-- Nothing but the root. -/
def empty : FileTree :=
  ⟨.directory []⟩

/-! ## Questions -/

/-- The node a path leads to. -/
def node (t : FileTree) (follow : Bool) (path : String) : Except FileError Node :=
  match Arrival.ofPath t.root follow path with
  | .error e => .error e
  | .ok (.missing ..) => .error .noEntry
  | .ok (.found place) =>
    match t.root.at? place with
    | some n => .ok n
    | none => .error .noEntry

/-- The node of a path, links followed. -/
def target (t : FileTree) (path : String) : Except FileError Node :=
  t.node true path

/-- The node of a path, which may be a link. -/
def entry (t : FileTree) (path : String) : Except FileError Node :=
  t.node false path

/-- The path leads to a file. -/
def isFile (t : FileTree) (path : String) : Bool :=
  match t.target path with
  | .ok n => n.isFile
  | .error _ => false

/-- The path leads to a directory. -/
def isDirectory (t : FileTree) (path : String) : Bool :=
  match t.target path with
  | .ok n => n.isDirectory
  | .error _ => false

/-- The bytes of a file. -/
def read (t : FileTree) (path : String) : Except FileError ByteArray :=
  match t.target path with
  | .ok (.file content _) => .ok content
  | .ok _ => .error .isDirectory
  | .error e => .error e

/-- The text of a file. -/
def readText (t : FileTree) (path : String) : Except FileError String :=
  match t.read path with
  | .ok content =>
    match String.fromUTF8? content with
    | some text => .ok text
    | none => .error .notText
  | .error e => .error e

/-- The names in a directory. -/
def list (t : FileTree) (path : String) : Except FileError (List String) :=
  match t.target path with
  | .ok (.directory entries) => .ok (entries.map (·.1))
  | .ok _ => .error .notDirectory
  | .error e => .error e

/-! ## Changes -/

/-- Puts a node under a name of a directory. -/
def put (t : FileTree) (directory : List String) (name : String) (node : Node) : FileTree :=
  ⟨t.root.modifyEntries (Node.putEntry name node) directory⟩

/-- Puts a node at a place. The root stays. -/
def putAt (t : FileTree) (place : List String) (node : Node) : FileTree :=
  match place.getLast? with
  | some name => t.put place.dropLast name node
  | none => t

/-- Takes away what is at a place. The root stays. -/
def dropAt (t : FileTree) (place : List String) : FileTree :=
  match place.getLast? with
  | some name => ⟨t.root.modifyEntries (Node.dropEntry name) place.dropLast⟩
  | none => t

/-- Writes a file. A file that is there keeps its permission bits. -/
def write (t : FileTree) (path : String) (content : ByteArray) : Except FileError FileTree :=
  match Arrival.ofPath t.root true path with
  | .error e => .error e
  | .ok (.missing directory name) =>
    .ok (t.put directory name (.file content Node.newFileMode))
  | .ok (.found place) =>
    match t.root.at? place with
    | some (.file _ mode) => .ok (t.putAt place (.file content mode))
    | _ => .error .isDirectory

/-- Makes an empty file, unless there is one. -/
def touch (t : FileTree) (path : String) : Except FileError FileTree :=
  match t.read path with
  | .ok _ => .ok t
  | .error _ => t.write path ByteArray.empty

/-- Sets the permission bits of a file. Those of directories are not kept. -/
def setMode (t : FileTree) (path : String) (mode : Nat) : Except FileError FileTree :=
  match Arrival.ofPath t.root true path with
  | .error e => .error e
  | .ok (.missing ..) => .error .noEntry
  | .ok (.found place) =>
    match t.root.at? place with
    | some (.file content _) => .ok (t.putAt place (.file content (mode % 0o10000)))
    | _ => .ok t

/-- Puts a new node where a path leads, if nothing is there. -/
def create (t : FileTree) (path : String) (node : Node) : Except FileError FileTree :=
  match Arrival.ofPath t.root false path with
  | .error e => .error e
  | .ok (.found _) => .error .exists_
  | .ok (.missing directory name) => .ok (t.put directory name node)

/-- Makes a symbolic link. -/
def link (t : FileTree) (path target : String) : Except FileError FileTree :=
  if target.toList.contains (Char.ofNat 0) then .error .invalidName
  else if target = "" then .error .noEntry
  else t.create path (.link target)

/-- Takes away a file or a link. -/
def remove (t : FileTree) (path : String) : Except FileError FileTree :=
  match Arrival.ofPath t.root false path with
  | .error e => .error e
  | .ok (.missing ..) => .error .noEntry
  | .ok (.found place) =>
    match t.root.at? place with
    | some (.directory _) => .error .isDirectory
    | _ => .ok (t.dropAt place)

/-- The path of some names, given from last to first. -/
def pathOfReversed (names : List String) : String :=
  "/" ++ String.ofList (Text.joinWithChar '/' (names.reverse.map String.toList))

/-- Makes a directory unless there is one, given the names that lead to it
from last to first. If it cannot be made because the directory around it is
missing, that one is made before. -/
def createDirectories (t : FileTree) : List String → Except FileError FileTree
  | [] => .ok t
  | name :: parents =>
    let path := pathOfReversed (name :: parents)
    let make (t : FileTree) : Except FileError FileTree :=
      match t.create path (.directory []) with
      | .error e => if t.isDirectory path then .ok t else .error e
      | .ok t => .ok t
    match t.create path (.directory []) with
    | .error .noEntry =>
      match createDirectories t parents with
      | .ok t => make t
      | .error e => .error e
    | _ => make t

/-- Makes the directory of an absolute path and all those around it, as far
as they are missing. -/
def createDirectory (t : FileTree) (path : String) : Except FileError FileTree :=
  if path.toList.contains (Char.ofNat 0) then .error .invalidName
  else
    let names := ((Text.splitAtChar '/' path.toList).filter fun s => s ≠ [] ∧ s ≠ ['.']).map String.ofList
    t.createDirectories names.reverse

/-- Gives a file another path, in place of what is there. -/
def rename (t : FileTree) (path newPath : String) : Except FileError FileTree :=
  match Arrival.ofPath t.root false path, Arrival.ofPath t.root false newPath with
  | .ok (.found place), .ok arrival =>
    match t.root.at? place with
    | some n =>
      match arrival with
      | .missing directory name => .ok ((t.dropAt place).put directory name n)
      | .found newPlace =>
        if ((t.root.at? newPlace).map Node.isDirectory).getD false then .error .isDirectory
        else .ok ((t.dropAt place).putAt newPlace n)
    | none => .error .noEntry
  | .ok (.missing ..), _ => .error .noEntry
  | .error e, _ => .error e
  | _, .error e => .error e

end FileTree

end ModuleAssets
