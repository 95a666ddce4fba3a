import ModuleAssets.Files.Location
import ModuleAssets.Files.Tree
/-!
# Deliveries — files and links in the output directory

Every delivery makes the directory around its path first. What a delivery
has changed before it fails stays changed.
-/

namespace ModuleAssets

/-- Something cannot be written. -/
structure WriteError where
  path : String
  cause : FileError
deriving DecidableEq, Inhabited

/-- The error in words. -/
def WriteError.message (e : WriteError) : String :=
  "failed to write " ++ e.path ++ ": " ++ e.cause.message

/-- The files after some deliveries, and the failure that stopped them. -/
structure Delivered where
  files : FileTree
  failure : Option WriteError

namespace Delivered

/-- Goes on unless something has failed. -/
def andThen (done : Delivered) (next : FileTree → Delivered) : Delivered :=
  match done.failure with
  | none => next done.files
  | some _ => done

/-- What a single change of `files` at `path` leaves. -/
def ofChange (files : FileTree) (path : String) (changed : Except FileError FileTree) :
    Delivered :=
  match changed with
  | .ok files => ⟨files, none⟩
  | .error e => ⟨files, some ⟨path, e⟩⟩

end Delivered

namespace FileTree

/-- Makes the directory around a path. -/
def makeParent (path : String) (files : FileTree) : Delivered :=
  match Location.parent? path with
  | some parent => .ofChange files parent (files.createDirectory parent)
  | none => ⟨files, none⟩

/-- Delivers a file. -/
def deliverFile (path : String) (content : ByteArray) (files : FileTree) : Delivered :=
  (files.makeParent path).andThen fun files => .ofChange files path (files.write path content)

/-- Delivers a file with its mode, if that is known. -/
def deliverAsset (path : String) (content : ByteArray) (mode : Option Nat) (files : FileTree) :
    Delivered :=
  (files.deliverFile path content).andThen fun files =>
    match mode with
    | some mode => .ofChange files path (files.setMode path mode)
    | none => ⟨files, none⟩

/-- Takes away what is at a path, if something is there. -/
def clear (path : String) (files : FileTree) : Delivered :=
  match files.entry path with
  | .ok _ => .ofChange files path (files.remove path)
  | .error _ => ⟨files, none⟩

/-- Delivers a link in place of what is there. -/
def deliverLink (path target : String) (files : FileTree) : Delivered :=
  ((files.makeParent path).andThen (clear path)).andThen fun files =>
    .ofChange files path (files.link path target)

end FileTree

end ModuleAssets
