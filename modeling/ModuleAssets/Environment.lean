import ModuleAssets.Syntax.Scope
import ModuleAssets.Value.Basic
/-!
# Environments — what names are known to hold

A module is read from its start to its end, and the environment tells what
each name is known to hold at the place that has been reached. A name may
have several layers: the topmost is the one that definitions write to, those
below were covered when a scope that declares the name was entered. A value
is seen only if the topmost layer is not covered itself.
-/

namespace ModuleAssets

/-- What a name is known to hold, and how many scopes cover it. -/
structure Layer where
  depth : Nat
  /-- Missing if something unknown was assigned. -/
  value : Option Value
deriving Inhabited

namespace Layer

/-- One more scope declares the name. -/
def cover : List Layer → List Layer
  | [] => []
  | top :: below => { top with depth := top.depth + 1 } :: below

/-- A scope that declares the name ends. What was defined inside is gone. -/
def uncover : List Layer → List Layer
  | [] => []
  | top :: below =>
    if 0 < top.depth then { top with depth := top.depth - 1 } :: below
    else
      match below with
      | [] => []
      | next :: rest => { next with depth := next.depth - 1 } :: rest

/-- The name now holds the value. A covered layer stays below. -/
def write (value : Option Value) : List Layer → List Layer
  | [] => [⟨0, value⟩]
  | top :: below => if 0 < top.depth then ⟨0, value⟩ :: top :: below else ⟨0, value⟩ :: below

end Layer

/-- The layers of all names, those of a name without entry being none. -/
structure Environment where
  entries : List (String × List Layer)
deriving Inhabited

namespace Environment

/-- The name of the loader of modules. -/
def loaderName : String := "require"

/-- Nothing is known. -/
def empty : Environment :=
  ⟨[]⟩

/-- The layers of a name, the topmost first. -/
def layers (env : Environment) (name : String) : List Layer :=
  ((env.entries.find? (·.1 == name)).map (·.2)).getD []

/-- Changes the layers of a name among others. -/
def modifyEntries (change : List Layer → List Layer) (name : String) :
    List (String × List Layer) → List (String × List Layer)
  | [] =>
    match change [] with
    | [] => []
    | layers => [(name, layers)]
  | (k, ls) :: rest =>
    if k = name then (k, change ls) :: rest else (k, ls) :: modifyEntries change name rest

/-- Changes the layers of a name. -/
def modify (env : Environment) (name : String) (change : List Layer → List Layer) : Environment :=
  ⟨modifyEntries change name env.entries⟩

/-- How many scopes cover the name, if anything is known of it. -/
def depth? (env : Environment) (name : String) : Option Nat :=
  (env.layers name).head?.map Layer.depth

/-- What the name is known to hold where it is read. -/
def lookup? (env : Environment) (name : String) : Option Value :=
  match env.layers name with
  | top :: _ => if top.depth = 0 then top.value else none
  | [] => none

/-- The name is that of the loader, which is there and not covered. -/
def loaderVisible (env : Environment) : Bool :=
  env.depth? loaderName == some 0

/-- Writes to a name. The loader is never written to. -/
def write (env : Environment) (name : String) (value : Option Value) : Environment :=
  if name = loaderName then env else env.modify name (Layer.write value)

/-- The name now holds a known value. -/
def define (env : Environment) (name : String) (value : Value) : Environment :=
  env.write name (some value)

/-- The name now holds something unknown. -/
def invalidate (env : Environment) (name : String) : Environment :=
  if (env.layers name).isEmpty then env else env.write name none

/-- The module has a loader. -/
def installLoader (env : Environment) : Environment :=
  env.modify loaderName fun _ => [⟨0, some (.builtin .require)⟩]

/-- A scope begins. -/
def enter (env : Environment) (scope : Syntax.Scope) : Environment :=
  scope.names.foldl (fun env name => env.modify name Layer.cover) env

/-- A scope ends. -/
def leave (env : Environment) (scope : Syntax.Scope) : Environment :=
  scope.names.foldl (fun env name => env.modify name Layer.uncover) env

/-- What is known at the start of a module: its own place, the kind of run if
that is settled, and the loader if it has one. -/
def ofModule (id directory : String) (nodeEnv : Option String) (hasLoader : Bool) : Environment :=
  let settings : List (String × Value) :=
    match nodeEnv with
    | some kind => [("NODE_ENV", .text kind)]
    | none => []
  let env :=
    (((empty.define "__dirname" (.text directory)).define "__filename" (.text id)).define
      "undefined" .undefined).define "process" (.object [("env", .object settings)])
  if hasLoader then env.installLoader else env

end Environment

end ModuleAssets
