import ModuleAssets.Asset.Registry
import ModuleAssets.Options
/-!
# Plans — which assets a module needs

While a module is read, its assets get their names, and what has to be
copied is written down. Nothing is copied yet. The module refers to an asset
by an expression that starts from its own directory.
-/

namespace ModuleAssets

/-- Something to be copied. -/
inductive AssetTask where
  /-- One file, under a name. -/
  | file (source name : String)
  /-- All files of a directory, below a name. -/
  | directory (source name : String)
  /-- The shared libraries of a package, which keep their places in it. -/
  | sharedLibraries (packageBase : String)
deriving DecidableEq, Inhabited

/-- How a module names its assets. -/
structure Naming where
  options : Options
  /-- The package of the module. -/
  packageBase : Option String

/-- The names given so far, and what the module needs. -/
structure Plan where
  registry : Registry
  tasks : List AssetTask
deriving Inhabited

namespace Naming

/-- How a character is written between single quotes. -/
def escapeChar (c : Char) : List Char :=
  if c = '\\' then ['\\', '\\']
  else if c = '\'' then ['\\', '\'']
  else if c = '\n' then ['\\', 'n']
  else if c = '\r' then ['\\', 'r']
  else [c]

/-- A text as it is written between single quotes. -/
def escape (text : String) : String :=
  String.ofList (text.toList.flatMap escapeChar)

/-- The expression for the place of an asset. -/
def reference (n : Naming) (name : String) : String :=
  "__dirname + '/" ++ escape n.options.relativeAssetPrefix ++ escape name ++ "'"

/-- The path without the directory it starts with, and without slashes after
that. There is none if nothing is left. -/
def below? (path directory : String) : Option String :=
  (Text.dropPrefix? path.toList directory.toList).bind fun rest =>
    let rest := rest.dropWhile (· == '/')
    if rest = [] then none else some (String.ofList rest)

/-- The name that a file should have. A native addon keeps its place in the
package. -/
def preferred (n : Naming) (path : String) : String :=
  let placed :=
    if Text.endsWith path ".node" then n.packageBase.bind (below? path) else none
  placed.getD (Path.basename path none)

end Naming

namespace Plan

/-- Nothing is needed so far. -/
def ofRegistry (registry : Registry) : Plan :=
  ⟨registry, []⟩

/-- One more task, unless it is there. -/
def addTask (p : Plan) (task : AssetTask) : Plan :=
  if task ∈ p.tasks then p else { p with tasks := p.tasks ++ [task] }

/-- The shared libraries of a package are needed. -/
def addSharedLibraries (p : Plan) (packageBase : String) : Plan :=
  p.addTask (.sharedLibraries packageBase)

/-- A file is needed. The answer has the expression for it. A native addon
needs the shared libraries of its package too. -/
def addFile (p : Plan) (n : Naming) (path : String) : Plan × String :=
  let p :=
    match n.packageBase with
    | some base => if Text.endsWith path ".node" then p.addSharedLibraries base else p
    | none => p
  let (registry, name) := p.registry.register path (n.preferred path)
  (addTask { p with registry } (.file path name), n.reference name)

/-- A directory is needed. The answer has the expression for it. -/
def addDirectory (p : Plan) (n : Naming) (path : String) : Plan × String :=
  let (registry, name) := p.registry.register path (Path.basename path none)
  (addTask { p with registry } (.directory path name), n.reference name)

end Plan

end ModuleAssets
