import ModuleAssets.Files.Location
import ModuleAssets.Files.Tree
/-!
# Changes — what makes one file tree into another

A program that works on a file tree in memory brings the result back to the
disk by the changes between the two trees.
-/

namespace ModuleAssets

/-- One change on the disk. -/
inductive FileChange where
  | makeDirectory (path : String)
  | writeFile (path : String) (content : ByteArray)
  | setMode (path : String) (mode : Nat)
  | makeLink (path target : String)
  | remove (path : String)

namespace Node

/-- The changes that make a file. -/
def fileChanges (path : String) (content : ByteArray) (mode : Nat) : Option Node → List FileChange
  | some (file oldContent oldMode) =>
    (if content.data = oldContent.data then [] else [.writeFile path content]) ++
      (if mode = oldMode then [] else [.setMode path mode])
  | some _ => [.remove path, .writeFile path content, .setMode path mode]
  | none => [.writeFile path content, .setMode path mode]

/-- The changes that make a link. -/
def linkChanges (path target : String) : Option Node → List FileChange
  | some (link oldTarget) =>
    if target = oldTarget then [] else [.remove path, .makeLink path target]
  | some _ => [.remove path, .makeLink path target]
  | none => [.makeLink path target]

/-- The changes that make a directory, without its entries. -/
def directoryChanges (path : String) (entries : List (String × Node)) :
    Option Node → List FileChange
  | some (directory oldEntries) =>
    (oldEntries.filter fun e => (child? entries e.1).isNone).map fun e =>
      .remove (Location.below path e.1)
  | some _ => [.remove path, .makeDirectory path]
  | none => [.makeDirectory path]

/-- What was under a name before. -/
def oldChild? (old : Option Node) (name : String) : Option Node :=
  match old with
  | some (directory entries) => child? entries name
  | _ => none

mutual

/-- The changes at a path that make what was there before into a node. -/
def changes (path : String) (old : Option Node) : Node → List FileChange
  | file content mode => fileChanges path content mode old
  | link target => linkChanges path target old
  | directory entries => directoryChanges path entries old ++ entryChanges path old entries

/-- The changes of the entries of a directory. -/
def entryChanges (path : String) (old : Option Node) : List (String × Node) → List FileChange
  | [] => []
  | (name, node) :: rest =>
    changes (Location.below path name) (oldChild? old name) node ++ entryChanges path old rest

end

end Node

/-- The changes that make one file tree into another. -/
def FileTree.changesFrom (old new : FileTree) : List FileChange :=
  Node.changes "/" (some old.root) new.root

end ModuleAssets
