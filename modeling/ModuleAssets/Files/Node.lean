import ModuleAssets.Sorted
/-!
# Nodes — files, links and directories

A node of a file tree is a file with its bytes and permission bits, a
symbolic link with the text of its target, or a directory. A directory lists
its entries in the order of their names, each name once.

A place in the tree is the list of the names that lead to it.
-/

namespace ModuleAssets

/-- Something a file tree holds. -/
inductive Node where
  | file (content : ByteArray) (mode : Nat)
  | link (target : String)
  | directory (entries : List (String × Node))
deriving Inhabited

namespace Node

/-- The permission bits of a new file. -/
def newFileMode : Nat := 0o644

/-- The mode of a node, which tells its type besides its permission bits.
Those of directories and links are not kept. -/
def fullMode : Node → Nat
  | file _ mode => 0o100000 + mode
  | link _ => 0o120777
  | directory _ => 0o040755

/-- The node is a file. -/
def isFile : Node → Bool
  | file .. => true
  | _ => false

/-- The node is a directory. -/
def isDirectory : Node → Bool
  | directory _ => true
  | _ => false

/-- The entry of a name. -/
def child? (entries : List (String × Node)) (name : String) : Option Node :=
  (entries.find? (·.1 == name)).map (·.2)

/-- Puts an entry in its place among others. -/
def putEntry (name : String) (node : Node) : List (String × Node) → List (String × Node)
  | [] => [(name, node)]
  | (k, n) :: rest =>
    if k = name then (name, node) :: rest
    else if textLe name k then (name, node) :: (k, n) :: rest
    else (k, n) :: putEntry name node rest

/-- The entries without the one of a name. -/
def dropEntry (name : String) (entries : List (String × Node)) : List (String × Node) :=
  entries.filter (·.1 != name)

/-- The node at a place below. -/
def at? : List String → Node → Option Node
  | [], node => some node
  | name :: rest, directory entries => (child? entries name).bind (at? rest)
  | _ :: _, _ => none

/-- Changes the entries of the directory at a place below. -/
def modifyEntries (change : List (String × Node) → List (String × Node)) :
    List String → Node → Node
  | [], directory entries => directory (change entries)
  | name :: rest, directory entries =>
    match child? entries name with
    | some node => directory (putEntry name (modifyEntries change rest node) entries)
    | none => directory entries
  | _, node => node

mutual

/-- The places of all files and links below, depth first. Entries whose name
is not admitted are left out with all that is below them. -/
def leaves (keeps : String → Bool) : Node → List (List String)
  | directory entries => leavesIn keeps entries
  | _ => [[]]

/-- `leaves` for the entries of a directory. -/
def leavesIn (keeps : String → Bool) : List (String × Node) → List (List String)
  | [] => []
  | (name, node) :: rest =>
    (if keeps name then (leaves keeps node).map (name :: ·) else []) ++ leavesIn keeps rest

end

end Node

end ModuleAssets
