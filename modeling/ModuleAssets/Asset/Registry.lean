import ModuleAssets.Json.Decode
import ModuleAssets.Json.Outline
import ModuleAssets.Json.Printer
import ModuleAssets.Path
/-!
# Registry — the names of assets, and how they are written

A build gives each asset one name, which no other asset has. Besides, it
remembers of every name it writes either the mode of the file or the target
of the link, and hands these on to the next build.
-/

namespace ModuleAssets

/-- Why a cache gives no answer. -/
inductive CacheError where
  /-- The cache cannot be read or written. -/
  | storage (cause : String)
  /-- What is stored is not the state of a registry. -/
  | corrupt
deriving DecidableEq, Inhabited

namespace CacheError

/-- The error in words. -/
def message : CacheError → String
  | storage cause => "cache I/O error: " ++ cause
  | corrupt => "corrupt cache entry"

end CacheError

/-- What a cache holds after a text was stored, and why that failed, if it
did. A failure may leave something behind. -/
structure Stored (σ : Type) where
  kept : σ
  failure : Option CacheError

/-- Something that keeps texts by keys from build to build. -/
structure Cache (σ : Type) where
  get : σ → String → Except CacheError (Option String)
  store : σ → String → String → Stored σ

/-- A cache held in memory. -/
def Cache.memory : Cache (List (String × String)) where
  get entries key := .ok ((entries.find? (·.1 == key)).map (·.2))
  store entries key text := ⟨Json.setMember entries key text, none⟩

/-- The names of a build and what is known of them. -/
structure Registry where
  /-- The paths of assets, each with the name it was given. -/
  given : List (String × String)
  /-- The names in the order in which they were given, each with the path of
  its asset. Names that the build had before have none. -/
  names : List (String × Option String)
  /-- The modes of files. -/
  permissions : List (String × Nat)
  /-- The targets of links. -/
  symlinks : List (String × String)
deriving DecidableEq, Inhabited

namespace Registry

/-- Nothing is registered, but some names are taken. -/
def ofExisting (names : List String) : Registry where
  given := []
  names := names.foldl (fun taken name => Json.setMember taken name none) []
  permissions := []
  symlinks := []

/-! ## Names -/

/-- The name of an asset. -/
def nameOf? (r : Registry) (path : String) : Option String :=
  (r.given.find? (·.1 == path)).map (·.2)

/-- Whose the name is, if it is taken: the path of an asset, or none for a
name that the build had before. -/
def owner? (r : Registry) (name : String) : Option (Option String) :=
  (r.names.find? (·.1 == name)).map (·.2)

/-- An asset may have the name: nobody has it, or the asset itself. -/
def isOpenTo (r : Registry) (path name : String) : Bool :=
  match r.owner? name with
  | some owner => owner == some path
  | none => true

/-- A name with a number before its extension. -/
def numbered (preferred : String) (number : Nat) : String :=
  let extension := Path.extname preferred
  let stem := preferred.toList.take (preferred.length - extension.length)
  String.ofList (stem ++ Nat.toDigits 10 number) ++ extension

/-- The first numbered name that the asset may have, with numbers from
`number` on. Of `tries` names and one more, the last is not looked at. -/
def firstOpen (r : Registry) (path preferred : String) : Nat → Nat → String
  | 0, number => numbered preferred number
  | tries + 1, number =>
    if r.isOpenTo path (numbered preferred number) then numbered preferred number
    else r.firstOpen path preferred tries (number + 1)

/-- The preferred name, or the first numbered one if an asset may not have
that. -/
def openName (r : Registry) (path preferred : String) : String :=
  if r.isOpenTo path preferred then preferred
  else r.firstOpen path preferred r.names.length 1

/-- Enters the name of an asset. -/
def assign (r : Registry) (path name : String) : Registry :=
  { r with
    names := Json.setMember r.names name (some path)
    given := Json.setMember r.given path name }

/-- Gives an asset a name, unless it has one. -/
def register (r : Registry) (path preferred : String) : Registry × String :=
  match r.nameOf? path with
  | some name => (r, name)
  | none =>
    let name := r.openName path preferred
    (r.assign path name, name)

/-- The paths of all assets with their names, in the order of registration. -/
def assets (r : Registry) : List (String × String) :=
  r.names.filterMap fun (name, path) => path.map fun path => (path, name)

/-! ## Files and links -/

/-- The name is that of a file with a mode. -/
def recordPermissions (r : Registry) (name : String) (mode : Nat) : Registry :=
  { r with
    symlinks := r.symlinks.filter (·.1 != name)
    permissions := Json.setMember r.permissions name mode }

/-- The name is that of a link. -/
def recordSymlink (r : Registry) (name target : String) : Registry :=
  { r with
    permissions := r.permissions.filter (·.1 != name)
    symlinks := Json.setMember r.symlinks name target }

/-- The mode of a file. -/
def permissions? (r : Registry) (name : String) : Option Nat :=
  (r.permissions.find? (·.1 == name)).map (·.2)

/-- The target of a link. -/
def symlink? (r : Registry) (name : String) : Option String :=
  (r.symlinks.find? (·.1 == name)).map (·.2)

/-! ## From build to build -/

/-- The key of what a build with this entry hands on. -/
def cacheKey (entryId : String) : String :=
  "/RelocateLoader/AssetState/" ++ entryId

/-- The settings of the stored state. -/
def stateKeys : List String :=
  ["assetPermissions", "assetSymlinks"]

/-- The state that a build hands on. -/
def state (r : Registry) : Json :=
  .object
    [("assetPermissions", .object (r.permissions.map fun (name, mode) => (name, .integer mode))),
      ("assetSymlinks", .object (r.symlinks.map fun (name, target) => (name, .string target)))]

/-- The members of an object by their keys, each of one type. -/
def table? {α : Type} (value? : Json → Option α) : Json → Option (List (String × α))
  | .object members =>
    (members.mapM fun m => (value? m.2).map fun v => (m.1, v)).map Json.mergeMembers
  | _ => none

/-- The table that is kept under a key, an empty one if there is none. -/
def tableAt? {α : Type} (value? : Json → Option α) (members : List (String × List Char))
    (key : String) : Option (List (String × α)) :=
  match Json.member? members key with
  | some written => (Json.valueOf? written).bind (table? value?)
  | none => some []

/-- Takes over the tables among some settings. -/
def withTables? (r : Registry) (members : List (String × List Char)) : Option Registry :=
  if Json.keysOnce stateKeys members then do
    let permissions ← tableAt? (Json.word? 32) members "assetPermissions"
    let symlinks ← tableAt? Json.string? members "assetSymlinks"
    some { r with permissions, symlinks }
  else none

/-- Takes over a stored state, an object or a list of its tables. What else
the object holds does not matter. -/
def withState? (r : Registry) : Json.Outline → Option Registry
  | .members members => r.withTables? members
  | .items items => if items.length ≤ 2 then r.withTables? (stateKeys.zip items) else none

/-- Takes over what an earlier build with the same entry handed on, if there
is such a build. -/
def restore {σ : Type} (cache : Cache σ) (stored : σ) (entryId : String) (r : Registry) :
    Except CacheError (Option Registry) :=
  match cache.get stored (cacheKey entryId) with
  | .error e => .error e
  | .ok none => .ok none
  | .ok (some text) =>
    match (Json.outline? text).bind r.withState? with
    | some r => .ok (some r)
    | none => .error .corrupt

/-- Hands on the files and links to the next build. -/
def persist {σ : Type} (cache : Cache σ) (stored : σ) (entryId : String) (r : Registry) :
    Stored σ :=
  cache.store stored (cacheKey entryId) r.state.compact

end Registry

end ModuleAssets
