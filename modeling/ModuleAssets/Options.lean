import ModuleAssets.Json.Decode
import ModuleAssets.Text.Slice
/-!
# Options — how a build wants its assets

Every option has a default, so that an object of settings may name any part
of them. Settings of other names are left alone.
-/

namespace ModuleAssets

/-- The options of a build. -/
structure Options where
  /-- Names of assets that the build has already given. -/
  existingAssetNames : List String
  /-- The directory of all assets. -/
  outputAssetBase : Option String
  /-- Tell of each asset. -/
  debugLog : Bool
  /-- The program runs in production, or it does not, if that is known. -/
  production : Option Bool
  /-- Look through the wrapper of a module that fits several loaders. -/
  wrapperCompatibility : Bool
  /-- How many directories the written module lies below the output. -/
  outputDepth : Nat
  /-- The binary interface that native addons are built for. -/
  nodeAbi : String
deriving DecidableEq

namespace Options

/-- The options of a build that sets none. -/
def default : Options where
  existingAssetNames := []
  outputAssetBase := none
  debugLog := false
  production := none
  wrapperCompatibility := false
  outputDepth := 0
  nodeAbi := "node-v108"

instance : Inhabited Options := ⟨default⟩

/-- The names of the settings, in the order of the options. -/
def keys : List String :=
  ["existingAssetNames", "outputAssetBase", "debugLog", "production", "wrapperCompatibility",
    "outputDepth", "nodeAbi"]

/-- Sets one option. -/
def set? (options : Options) (key : String) (value : Json) : Option Options :=
  match key with
  | "existingAssetNames" =>
    (value.list? Json.string?).map fun v => { options with existingAssetNames := v }
  | "outputAssetBase" =>
    (value.nullable? Json.string?).map fun v => { options with outputAssetBase := v }
  | "debugLog" => value.bool?.map fun v => { options with debugLog := v }
  | "production" => (value.nullable? Json.bool?).map fun v => { options with production := v }
  | "wrapperCompatibility" => value.bool?.map fun v => { options with wrapperCompatibility := v }
  | "outputDepth" => (value.word? 64).map fun v => { options with outputDepth := v }
  | "nodeAbi" => value.string?.map fun v => { options with nodeAbi := v }
  | _ => some options

/-- The options that some settings leave. None may be set twice. -/
def ofMembers? (members : List (String × Json)) : Option Options :=
  if Json.keysOnce keys members then members.foldlM (fun o m => o.set? m.1 m.2) default else none

/-- The options of an object of settings, or of a list that sets the first
ones in their order. -/
def ofJson? : Json → Option Options
  | .object members => ofMembers? members
  | .array items => if items.length ≤ keys.length then ofMembers? (keys.zip items) else none
  | _ => none

/-- The directory of all assets with a slash at its end, or nothing. -/
def assetBase (options : Options) : String :=
  match options.outputAssetBase with
  | none => ""
  | some base =>
    if base = "" ∨ Text.endsWith base "/" ∨ Text.endsWith base "\\" then base else base ++ "/"

/-- The way from the directory of the written module to the assets. -/
def relativeAssetPrefix (options : Options) : String :=
  String.join (List.replicate options.outputDepth "../") ++ options.assetBase

/-- What the program's environment says about the kind of run. -/
def nodeEnv (options : Options) : Option String :=
  options.production.map fun production => if production then "production" else "dev"

/-- The text without any number of repeated beginnings. Every beginning takes
one unit of `fuel`. -/
def dropRepeated (beginning : List Char) : Nat → List Char → List Char
  | 0, cs => cs
  | fuel + 1, cs =>
    match Text.dropPrefix? cs beginning with
    | some rest => dropRepeated beginning fuel rest
    | none => cs

/-- The number of the binary interface. -/
def moduleAbiVersion (options : Options) : String :=
  let cs := options.nodeAbi.toList
  String.ofList (dropRepeated "node-v".toList cs.length cs)

end Options

end ModuleAssets
