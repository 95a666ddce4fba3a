import ModuleAssets.Command.Arguments
import ModuleAssets.Files.Location
import ModuleAssets.Files.Tree
import ModuleAssets.Json.Reader
import ModuleAssets.Options
/-!
# Configurations — settings from a file, and arguments above them

The file holds one object. Besides the options of the build it may name the
output directory and the entry of the program. Arguments override it, except
that names of assets are added to those of the file.
-/

namespace ModuleAssets

/-- The settings of a run. -/
structure Configuration where
  options : Options
  outDir : Option String
  entry : Option String
deriving DecidableEq, Inhabited

/-- Why there are no settings. -/
inductive ConfigurationError where
  | unreadable (path : String) (cause : FileError)
  /-- The file is no object of settings. -/
  | malformed (path : String)
deriving DecidableEq, Inhabited

namespace ConfigurationError

/-- The error in words. -/
def message : ConfigurationError → String
  | unreadable path cause => "failed to read " ++ path ++ ": " ++ cause.message
  | malformed path => "failed to parse " ++ path

end ConfigurationError

namespace Configuration

/-- The settings of a run that has no file of them. -/
def default : Configuration :=
  ⟨.default, none, none⟩

/-- The file that is looked for if no other is named. -/
def fileName : String := "relocate.config.json"

/-- A setting that may be missing or null. -/
def text? (members : List (String × Json)) (key : String) : Option (Option String) :=
  ((Json.member? members key).getD .null).nullable? Json.string?

/-- The settings of an object. None may be there twice. -/
def ofMembers? (members : List (String × Json)) : Option Configuration :=
  if Json.keysOnce ["outDir", "entry"] members then do
    let outDir ← text? members "outDir"
    let entry ← text? members "entry"
    let options ← Options.ofMembers? members
    some ⟨options, outDir, entry⟩
  else none

/-- The settings that a text gives. -/
def ofText? (text : String) : Option Configuration :=
  ((Json.read? text).bind Json.objectMembers?).bind ofMembers?

/-- Reads the file at `location`, which is called `path`. -/
def read (files : FileTree) (path location : String) : Except ConfigurationError Configuration :=
  match files.readText location with
  | .error e => .error (.unreadable path e)
  | .ok text =>
    match ofText? text with
    | some c => .ok c
    | none => .error (.malformed path)

/-- Reads the file that is named, or else the one of the working directory,
if it is there. -/
def load (files : FileTree) (workspace : String) (named : Option String) :
    Except ConfigurationError Configuration :=
  match named with
  | some "" => .error (.unreadable "" .noEntry)
  | some path => read files path (Location.below workspace path)
  | none =>
    let path := Location.below workspace fileName
    match files.target path with
    | .ok _ => read files path path
    | .error _ => .ok default

/-- Adds names that are not there. -/
def addNames (names added : List String) : List String :=
  added.foldl (fun names name => if name ∈ names then names else names ++ [name]) names

/-- The settings with the arguments above them. -/
def withArguments (c : Configuration) (a : Arguments) : Configuration where
  options :=
    { c.options with
      outputAssetBase := a.assetBase <|> c.options.outputAssetBase
      production := a.production <|> c.options.production
      wrapperCompatibility := c.options.wrapperCompatibility || a.wrapperCompat
      debugLog := c.options.debugLog || a.debugLog
      existingAssetNames := addNames c.options.existingAssetNames a.existingAssetNames }
  outDir := a.outDir <|> c.outDir
  entry := a.entry <|> c.entry

end Configuration

end ModuleAssets
