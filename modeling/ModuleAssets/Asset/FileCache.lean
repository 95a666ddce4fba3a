import ModuleAssets.Asset.Registry
import ModuleAssets.Digest.Blake3
import ModuleAssets.Files.Location
import ModuleAssets.Files.Tree
/-!
# File caches — a cache that is a directory

Each text has a file of its own, named by the hash of its key. A text is
first written to a file beside that one, which then takes its place, so that
a reader finds the old text or the new one. Who writes holds a lock.
-/

namespace ModuleAssets

namespace Cache

/-- The file of a key, without its extension. -/
def stem (directory key : String) : String :=
  Location.below directory (Blake3.hexHash key.toUTF8.toList)

/-- The text of a key, if its file is there. -/
def readFile (directory : String) (files : FileTree) (key : String) :
    Except CacheError (Option String) :=
  match files.readText (stem directory key ++ ".json") with
  | .ok text => .ok (some text)
  | .error .noEntry => .ok none
  | .error e => .error (.storage e.message)

/-- Writes the text of a key. The directory and the lock are made first, and
what is made stays when a later step fails. -/
def writeFile (directory : String) (files : FileTree) (key text : String) : Stored FileTree :=
  let file := stem directory key ++ ".json"
  let draft := file ++ ".tmp"
  let failed (files : FileTree) (e : FileError) : Stored FileTree :=
    ⟨files, some (.storage e.message)⟩
  match files.createDirectory directory with
  | .error e => failed files e
  | .ok files =>
    match files.touch (Location.below directory ".lock") with
    | .error e => failed files e
    | .ok files =>
      match files.write draft text.toUTF8 with
      | .error e => failed files e
      | .ok files =>
        match files.rename draft file with
        | .error e => failed files e
        | .ok files => ⟨files, none⟩

/-- The cache in a directory. -/
def inDirectory (directory : String) : Cache FileTree where
  get := readFile directory
  store := writeFile directory

end Cache

end ModuleAssets
