/-!
# Arguments — the words of a command line

Words are read from left to right, and the first one that does not fit ends
the reading. A word that starts with `--` names a parameter, which needs a
value, or a switch, which takes none. The value of a parameter stands behind
an equals sign or in the next word, which must not look like an option
itself. All other words, and all words behind `--`, name modules.
-/

namespace ModuleAssets

/-- How a run is reported. -/
inductive ReportFormat where
  | human
  | json
deriving DecidableEq, Inhabited

/-- An option with a value. -/
inductive Parameter where
  | outDir
  | config
  | entry
  | assetBase
  | production
  | existingAssetName
  | cacheDir
  | output
deriving DecidableEq

/-- An option without a value. -/
inductive Switch where
  | wrapperCompat
  | debugLog
deriving DecidableEq

/-- What the words of a command line say. -/
structure Arguments where
  /-- The modules to process. -/
  files : List String
  /-- The directory for modules and assets. -/
  outDir : Option String
  /-- The file of settings. -/
  config : Option String
  /-- The module that the program starts with. -/
  entry : Option String
  assetBase : Option String
  production : Option Bool
  wrapperCompat : Bool
  debugLog : Bool
  existingAssetNames : List String
  /-- The directory of what one build hands on to the next. -/
  cacheDir : Option String
  format : Option ReportFormat
deriving DecidableEq, Inhabited

/-- Why there is nothing to run. -/
inductive ArgumentError where
  /-- The user asks for help. -/
  | help
  /-- The user asks for the version. -/
  | version
  | unknown (word : String)
  | missingValue (word : String)
  | invalidValue (word value : String)
  /-- A switch has a value. -/
  | unexpectedValue (word : String)
  | repeated (word : String)
  /-- No module is named. -/
  | noFiles
deriving DecidableEq, Inhabited

namespace ArgumentError

/-- The error in words. -/
def message : ArgumentError → String
  | help => "help is asked for"
  | version => "the version is asked for"
  | unknown word => "unexpected argument '" ++ word ++ "'"
  | missingValue word => "a value is required for '" ++ word ++ "'"
  | invalidValue word value => "invalid value '" ++ value ++ "' for '" ++ word ++ "'"
  | unexpectedValue word => "no value is expected for '" ++ word ++ "'"
  | repeated word => "the argument '" ++ word ++ "' cannot be used multiple times"
  | noFiles => "no modules are given"

end ArgumentError

namespace Parameter

/-- The name of a parameter. -/
def name : Parameter → String
  | outDir => "out-dir"
  | config => "config"
  | entry => "entry"
  | assetBase => "asset-base"
  | production => "production"
  | existingAssetName => "existing-asset-name"
  | cacheDir => "cache-dir"
  | output => "output"

/-- All parameters. -/
def all : List Parameter :=
  [outDir, config, entry, assetBase, production, existingAssetName, cacheDir, output]

end Parameter

namespace Switch

/-- The name of a switch. -/
def name : Switch → String
  | wrapperCompat => "wrapper-compat"
  | debugLog => "debug-log"

/-- All switches. -/
def all : List Switch :=
  [wrapperCompat, debugLog]

end Switch

/-! ## Words -/

/-- What a name behind `--` stands for. -/
inductive LongName where
  | parameter (p : Parameter)
  | switch (s : Switch)
  /-- An option that ends the reading with what it asks for. -/
  | request (r : ArgumentError)
deriving DecidableEq

namespace LongName

/-- What the name stands for. -/
def ofName? (name : String) : Option LongName :=
  match Parameter.all.find? (·.name == name), Switch.all.find? (·.name == name) with
  | some p, _ => some (.parameter p)
  | _, some s => some (.switch s)
  | none, none =>
    if name = "help" then some (.request .help)
    else if name = "version" then some (.request .version)
    else none

end LongName

/-- What a word is by its look. -/
inductive ArgumentWord where
  /-- The name of a module, or a value. -/
  | plain
  /-- The mark behind which all words are names of modules. -/
  | mark
  /-- An option with a long name, and its value if an equals sign follows. -/
  | long (name : String) (value : Option String)
  /-- A cluster of options that have a letter each. -/
  | short (first : Char)
deriving DecidableEq

namespace ArgumentWord

/-- Looks at a word. -/
def ofText (word : String) : ArgumentWord :=
  match word.toList with
  | ['-', '-'] => mark
  | '-' :: '-' :: body =>
    let name := String.ofList (body.takeWhile (· != '='))
    match body.dropWhile (· != '=') with
    | _ :: value => long name (some (String.ofList value))
    | [] => long name none
  | '-' :: first :: _ => short first
  | _ => plain

end ArgumentWord

/-! ## Reading -/

namespace Arguments

/-- Nothing is said yet. -/
def empty : Arguments where
  files := []
  outDir := none
  config := none
  entry := none
  assetBase := none
  production := none
  wrapperCompat := false
  debugLog := false
  existingAssetNames := []
  cacheDir := none
  format := none

/-- A value that may be given only once. -/
def once {α : Type} (word : String) (old : Option α) (value : α) :
    Except ArgumentError (Option α) :=
  if old.isSome then .error (.repeated word) else .ok (some value)

/-- A value that must be one of some words, given only once. -/
def onceOf {α : Type} (word value : String) (old : Option α) (values : List (String × α)) :
    Except ArgumentError (Option α) :=
  match values.find? (·.1 == value) with
  | some v => once word old v.2
  | none => .error (.invalidValue word value)

/-- Sets a parameter. -/
def setParameter (a : Arguments) (word : String) (p : Parameter) (value : String) :
    Except ArgumentError Arguments :=
  match p with
  | .outDir => (once word a.outDir value).map fun v => { a with outDir := v }
  | .config => (once word a.config value).map fun v => { a with config := v }
  | .entry => (once word a.entry value).map fun v => { a with entry := v }
  | .assetBase => (once word a.assetBase value).map fun v => { a with assetBase := v }
  | .production =>
    (onceOf word value a.production [("true", true), ("false", false)]).map fun v =>
      { a with production := v }
  | .existingAssetName => .ok { a with existingAssetNames := a.existingAssetNames ++ [value] }
  | .cacheDir => (once word a.cacheDir value).map fun v => { a with cacheDir := v }
  | .output =>
    (onceOf word value a.format [("human", .human), ("json", .json)]).map fun v =>
      { a with format := v }

/-- Turns a switch on. -/
def setSwitch (a : Arguments) (word : String) (s : Switch) : Except ArgumentError Arguments :=
  match s with
  | .wrapperCompat =>
    if a.wrapperCompat then .error (.repeated word) else .ok { a with wrapperCompat := true }
  | .debugLog => if a.debugLog then .error (.repeated word) else .ok { a with debugLog := true }

/-- What an option of one letter asks for. -/
def request (word : String) (letter : Char) : ArgumentError :=
  if letter = 'h' then .help else if letter = 'V' then .version else .unknown word

/-- Reads words after those that `a` tells of. -/
def readFrom (a : Arguments) : List String → Except ArgumentError Arguments
  | [] => .ok a
  | word :: rest =>
    match ArgumentWord.ofText word with
    | .plain => readFrom { a with files := a.files ++ [word] } rest
    | .mark => .ok { a with files := a.files ++ rest }
    | .short first => .error (request word first)
    | .long name value =>
      match LongName.ofName? name, value with
      | none, _ => .error (.unknown word)
      | some (.request r), none => .error r
      | some (.request _), some _ => .error (.unexpectedValue word)
      | some (.switch s), none => (a.setSwitch word s).bind fun a => readFrom a rest
      | some (.switch _), some _ => .error (.unexpectedValue word)
      | some (.parameter p), some value =>
        (a.setParameter word p value).bind fun a => readFrom a rest
      | some (.parameter p), none =>
        match rest with
        | [] => .error (.missingValue word)
        | value :: rest =>
          if ArgumentWord.ofText value = .plain then
            (a.setParameter word p value).bind fun a => readFrom a rest
          else .error (.missingValue word)

/-- Reads the words of a command line. -/
def ofWords (words : List String) : Except ArgumentError Arguments :=
  match readFrom empty words with
  | .error e => .error e
  | .ok a => if a.files = [] then .error .noFiles else .ok a

/-- The directory of what one build hands on to the next. -/
def cacheDirectory (a : Arguments) : String :=
  a.cacheDir.getD ".relocate-cache"

/-- How the run is reported. -/
def reportFormat (a : Arguments) : ReportFormat :=
  a.format.getD .human

end Arguments

end ModuleAssets
