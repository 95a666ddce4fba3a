import ModuleAssets.Asset.Plan
import ModuleAssets.Files.Tree
/-!
# Transfers — copying what a module needs

The tasks of a module are done in order, up to the first that fails. The
content of a file goes to the host of the build, which may refuse it; a link is
only recorded. What was done before a failure stays done.
-/

namespace ModuleAssets

/-- Why a transfer fails. -/
inductive TransferError where
  /-- An asset cannot be read. -/
  | unreadable (path cause : String)
  /-- The host refuses an asset. -/
  | refused (name reason : String)
deriving DecidableEq, Inhabited

namespace TransferError

/-- The error in words. -/
def message : TransferError → String
  | unreadable path cause => "failed to read asset " ++ path ++ ": " ++ cause
  | refused name reason => "failed to emit asset " ++ name ++ ": " ++ reason

end TransferError

/-- Where assets go. A host may keep in mind what it was offered before, and decide by that
and by the content. -/
structure Host where
  /-- Why the host does not take an asset, if it does not, given all that it was offered
  before, the name and the content. -/
  refuses : List (String × ByteArray) → String → ByteArray → Option String

/-- A host that takes everything. -/
def Host.open_ : Host :=
  ⟨fun _ _ _ => none⟩

/-- The names of a build, and what its host has seen and holds. -/
structure Output where
  registry : Registry
  /-- All that the host was offered, whether it took it or not, in this order. -/
  offered : List (String × ByteArray)
  /-- The content under each name, in the order in which the names came. -/
  emitted : List (String × ByteArray)
deriving Inhabited

/-- Some names, and a host that was not offered anything yet. -/
def Output.ofRegistry (registry : Registry) : Output :=
  ⟨registry, [], []⟩

/-- What some transfers leave, and the failure that stopped them. -/
structure Transferred where
  output : Output
  failure : Option TransferError
deriving Inhabited

/-- Goes on unless something has failed. -/
def Transferred.andThen (done : Transferred) (next : Output → Transferred) : Transferred :=
  match done.failure with
  | none => next done.output
  | some _ => done

/-- The host is offered the content of an asset, and takes or refuses it. -/
def Output.emit (host : Host) (o : Output) (name : String) (content : ByteArray) : Transferred :=
  let offered := o.offered ++ [(name, content)]
  match host.refuses o.offered name content with
  | some reason => ⟨{ o with offered }, some (.refused name reason)⟩
  | none => ⟨{ o with offered, emitted := Json.setMember o.emitted name content }, none⟩

/-! ## Links -/

/-- The way from one directory to a path, both given by their names. There is
none if it would have to go back over a `..`. -/
def wayFrom? : List String → List String → Option (List String)
  | [], target => some target
  | _ :: rest, [] => some (".." :: rest.map fun _ => "..")
  | base :: rest, name :: names =>
    if base = name then wayFrom? rest names
    else if base = ".." then none
    else some (".." :: (rest.map fun _ => "..") ++ name :: names)

/-- The names that a path is made of. -/
def segments (path : String) : List String :=
  ((Text.splitAtChar '/' path.toList).filter fun s => s ≠ [] ∧ s ≠ ['.']).map String.ofList

/-- The target of a link as seen from its directory, given the path of the
link and the text of its target. -/
def linkTarget (source text : String) : String :=
  let directory := Path.dirname source
  let target := (Path.resolve [directory, text]).getD (directory ++ "/" ++ text)
  match wayFrom? (segments directory) (segments target) with
  | some way => String.ofList (Text.joinWithChar '/' (way.map String.toList))
  | none => target

/-! ## Directories -/

/-- An entry of a directory that is listed. -/
def isListed (name : String) : Bool :=
  !Text.startsWith name "." && name != "node_modules"

/-- Why a directory cannot be listed. -/
def listingError (path : String) (e : FileError) : String :=
  "IO error for operation on " ++ path ++ ": " ++ e.message

/-- A path and a place below it. -/
def pathBelow (root : String) (place : List String) : String :=
  let rest := String.ofList (Text.joinWithChar '/' (place.map String.toList))
  if Text.endsWith root "/" then root ++ rest else root ++ "/" ++ rest

/-- The names of a place as one, with slashes for backslashes. -/
def relativeName (place : List String) : String :=
  String.ofList ((Text.joinWithChar '/' (place.map String.toList)).map fun c => if c = '\\' then '/' else c)

/-- The files and links below a path, each with its name relative to that
path. A path to something else than a directory lists itself, and a path to a
link lists the link and then what is behind it. -/
def listBelow (files : FileTree) (root : String) : Except String (List (String × String)) :=
  let below (n : Node) : List (String × String) :=
    (n.leaves isListed).map fun place => (pathBelow root place, relativeName place)
  match files.entry root with
  | .error e => .error (listingError root e)
  | .ok (.link _) =>
    match files.target root with
    | .error e => .error (listingError root e)
    | .ok (.directory entries) => .ok ((root, "") :: below (.directory entries))
    | .ok _ => .ok [(root, "")]
  | .ok (.directory entries) => .ok (below (.directory entries))
  | .ok _ => .ok [(root, "")]

/-- A file of a directory that is an asset and no code. -/
def isDirectoryAsset (name : String) : Bool :=
  !Text.endsWith name ".js"

/-- A shared library, of any version. -/
def isSharedLibrary (name : String) : Bool :=
  Text.endsWith name ".so" || Text.containsChars ".so.".toList name.toList

/-- The files below a path that are wanted. -/
def assetsBelow (files : FileTree) (wanted : String → Bool) (root : String) :
    Except TransferError (List (String × String)) :=
  match listBelow files root with
  | .ok found => .ok (found.filter fun f => wanted f.2)
  | .error cause => .error (.unreadable root cause)

/-! ## Tasks -/

/-- Copies one file, or records that it is a link. -/
def transfer (files : FileTree) (host : Host) (source key : String) (o : Output) :
    Transferred :=
  match files.entry source with
  | .error e => ⟨o, some (.unreadable source e.message)⟩
  | .ok (.link text) =>
    ⟨{ o with registry := o.registry.recordSymlink key (linkTarget source text) }, none⟩
  | .ok (.file content mode) =>
    let mode := Node.fullMode (.file content mode)
    Output.emit host { o with registry := o.registry.recordPermissions key mode } key content
  | .ok (.directory _) => ⟨o, some (.unreadable source FileError.isDirectory.message)⟩

/-- Copies files, each to its key, up to the first failure. -/
def transferAll (files : FileTree) (host : Host) :
    List (String × String) → Output → Transferred
  | [], o => ⟨o, none⟩
  | (source, key) :: rest, o =>
    (transfer files host source key o).andThen (transferAll files host rest)

/-- Copies shared libraries, which get their names only now. -/
def transferLibraries (files : FileTree) (host : Host) (assetBase : String) :
    List (String × String) → Output → Transferred
  | [], o => ⟨o, none⟩
  | (source, preferred) :: rest, o =>
    let (registry, name) := o.registry.register source preferred
    (transfer files host source (assetBase ++ name) { o with registry }).andThen
      (transferLibraries files host assetBase rest)

/-- Copies the shared libraries of a package. -/
def transferSharedLibraries (files : FileTree) (host : Host) (assetBase packageBase : String)
    (o : Output) : Transferred :=
  match assetsBelow files isSharedLibrary packageBase with
  | .error e => ⟨o, some e⟩
  | .ok found => transferLibraries files host assetBase found o

/-- Does one task. -/
def runTask (files : FileTree) (host : Host) (assetBase : String) (task : AssetTask) (o : Output) :
    Transferred :=
  match task with
  | .file source name => transfer files host source (assetBase ++ name) o
  | .directory source name =>
    match assetsBelow files isDirectoryAsset source with
    | .error e => ⟨o, some e⟩
    | .ok found =>
      transferAll files host
        (found.map fun (path, below) => (path, assetBase ++ name ++ "/" ++ below)) o
  | .sharedLibraries packageBase => transferSharedLibraries files host assetBase packageBase o

/-- Does tasks in order, up to the first failure. -/
def runTasks (files : FileTree) (host : Host) (assetBase : String) :
    List AssetTask → Output → Transferred
  | [], o => ⟨o, none⟩
  | task :: rest, o =>
    (runTask files host assetBase task o).andThen (runTasks files host assetBase rest)

end ModuleAssets
