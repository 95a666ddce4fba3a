import ModuleAssets.Json.Decode
import ModuleAssets.Package.Metadata
import ModuleAssets.Value.Catalogue
/-!
# Addons — where native binaries are found

Three libraries load native binaries by searching for them when the program
runs. Each search is done here in advance, as far as the files decide it.
-/

namespace ModuleAssets.Addon

/-- The end of an addon's name. -/
def ending : String := ".node"

/-! ## By name -/

/-- A binary, and whether it is loaded at once. -/
structure Found where
  path : String
  isLoaded : Bool
deriving DecidableEq, Inhabited

/-- Directories in which a binary of any version may lie, the likely first. -/
def buildDirectories : List (List String) :=
  [["build"], ["build", "Debug"], ["build", "Release"], ["out", "Debug"], ["Debug"],
    ["out", "Release"], ["Release"], ["build", "default"]]

/-- Directories that come after those of compiled versions. -/
def installDirectories (nodeAbi : String) : List (List String) :=
  [["addon-build", "release", "install-root"], ["addon-build", "debug", "install-root"],
    ["addon-build", "default", "install-root"],
    ["lib", "binding", nodeAbi ++ "-" ++ Platform.name ++ "-" ++ Platform.arch]]

/-- The binary compiled for the only version that has one. The version of the
run is not known. -/
def compiled? (files : FileTree) (root name : String) : Option String :=
  let directory := Path.join [root, "compiled"]
  match files.list directory with
  | .error _ => none
  | .ok versions =>
    let paths := versions.map fun v => Path.join [directory, v, Platform.name, Platform.arch, name]
    match paths.filter files.isFile with
    | [path] => some path
    | _ => none

/-- The binary of a name below a directory. -/
def find? (files : FileTree) (root nodeAbi name : String) : Option String :=
  let candidate (segments : List String) : String := Path.join (root :: segments ++ [name])
  let first := (buildDirectories.map candidate).find? files.isFile
  let last := ((installDirectories nodeAbi).map candidate).find? files.isFile
  (first.or (compiled? files root name)).or last

/-- The name asked for, and whether its path is wanted instead of itself. -/
def request? : Value → Option (String × Bool)
  | .text name => some (name, false)
  | .object members =>
    let request : Value := .object members
    ((request.member? "bindings").bind Value.text?).map fun name =>
      (name, (request.member? "path").any Value.truthy)
  | _ => none

/-- The binary that a request by name finds. -/
def byName? (files : FileTree) (root nodeAbi : String) (request : Value) : Option Found :=
  (request? request).bind fun (name, wantsPath) =>
    let name := if Path.extname name = ending then name else name ++ ending
    (find? files root nodeAbi name).map fun path => ⟨path, !wantsPath⟩

/-! ## By a package's description -/

/-- The parts of a version. -/
structure Version where
  full : String
  major : String
  minor : String
  patch : String
  prerelease : String
  build : String

/-- Splits a text at the first occurrence of a character, which belongs to
neither part. -/
def splitOnce (mark : Char) (cs : List Char) : List Char × List Char :=
  (cs.takeWhile (· != mark), (cs.dropWhile (· != mark)).drop 1)

namespace Version

/-- Takes a version apart. Numbers that are missing are zero. -/
def ofText (text : String) : Version :=
  let (rest, build) := splitOnce '+' text.toList
  let (core, prerelease) := splitOnce '-' rest
  let numbers := Text.splitAtChar '.' core
  let number (i : Nat) : String := (numbers[i]?.map String.ofList).getD "0"
  ⟨text, number 0, number 1, number 2, String.ofList prerelease, String.ofList build⟩

end Version

/-- Fills in a template, where names stand between braces. Every name takes
one unit of `fuel`. -/
def expand? (lookup? : String → Option String) : Nat → List Char → Option (List Char)
  | 0, cs => some cs
  | fuel + 1, cs =>
    match cs.dropWhile (· != '\x7b') with
    | [] => some cs
    | _ :: afterOpen =>
      match afterOpen.dropWhile (· != '\x7d') with
      | [] => none
      | _ :: rest =>
        (lookup? (String.ofList (afterOpen.takeWhile (· != '\x7d')))).bind fun value =>
          (expand? lookup? fuel rest).map fun rest =>
            cs.takeWhile (· != '\x7b') ++ value.toList ++ rest

/-- The text that a template makes. -/
def expandTemplate? (lookup? : String → Option String) (template : String) : Option String :=
  (expand? lookup? (template.length + 1) template.toList).map String.ofList

/-- What a template may ask for. Names that depend on the run have no
value. -/
def placeholder? (moduleName : String) (version : Version) (nodeAbi : String) :
    String → Option String
  | "module_name" => some moduleName
  | "version" => some version.full
  | "major" => some version.major
  | "minor" => some version.minor
  | "patch" => some version.patch
  | "prerelease" => some version.prerelease
  | "build" => some version.build
  | "node_abi" => some nodeAbi
  | "platform" => some Platform.name
  | "arch" => some Platform.arch
  | "configuration" => some "Release"
  | "toolset" => some ""
  | _ => none

/-- The path of the binary that a package's description tells. -/
def byDescription? (files : FileTree) (nodeAbi path : String) : Option String :=
  if Path.isAbsolute path then do
    let directory := Path.dirname path
    let description ← Package.description? files directory
    let binary ← (Json.member? description "binary").bind Json.objectMembers?
    let version := ((Json.member? description "version").bind Json.string?).getD "0.0.0"
    let name ← (Json.member? binary "module_name").bind Json.string?
    let lookup? := placeholder? name (Version.ofText version) nodeAbi
    let moduleName ← expandTemplate? lookup? name
    let template ← (Json.member? binary "module_path").bind Json.string?
    let modulePath ← expandTemplate? lookup? template
    let moduleDirectory ← Path.resolve [directory, modulePath]
    some (Path.join [moduleDirectory, moduleName ++ ending])
  else none

/-! ## The only one -/

/-- The one addon of a package, released rather than for finding faults. -/
def single? (files : FileTree) (directory : String) : Option String :=
  (["Release", "Debug"].map fun configuration =>
    Path.join [directory, "build", configuration, "nbind.node"]).find? files.isFile

end ModuleAssets.Addon
