import ModuleAssets.Package.Metadata
/-!
# Resolution — from a specifier to a module's file

A specifier that is a path is looked for as a file and then as a directory.
Any other one names a package, which is looked for in the `node_modules` of
each directory upwards. A directory stands for the module its description
calls `main`, or else for its index.
-/

namespace ModuleAssets.Resolution

/-- Endings that a specifier may leave out. -/
def extensions : List String := [".js", ".json", ".node"]

/-- Modules that are no files. -/
def coreModules : List String :=
  ["assert", "buffer", "child_process", "cluster", "crypto", "dgram", "dns", "events", "fs", "http",
    "http2", "https", "module", "net", "os", "path", "perf_hooks", "process", "querystring",
    "readline", "stream", "string_decoder", "timers", "tls", "tty", "url", "util", "v8", "vm",
    "worker_threads", "zlib"]

/-- The specifier names a module that is no file, or a part of one. -/
def isCoreModule (specifier : String) : Bool :=
  Text.startsWith specifier "node:" ||
    coreModules.contains (String.ofList (specifier.toList.takeWhile (· != '/')))

/-- The specifier is a path. -/
def isPath (specifier : String) : Bool :=
  specifier = "." || specifier = ".." || Text.startsWith specifier "./"
    || Text.startsWith specifier "../" || Path.isAbsolute specifier

/-- The file of a path that may lack its ending. -/
def file? (files : FileTree) (path : String) : Option String :=
  (path :: extensions.map (path ++ ·)).find? files.isFile

/-- The index of a directory. -/
def index? (files : FileTree) (directory : String) : Option String :=
  (extensions.map fun ending => Path.join [directory, "index" ++ ending]).find? files.isFile

/-- What the description in a directory calls the main module. -/
def main? (files : FileTree) (directory : String) : Option String :=
  match files.readText (Path.join [directory, Package.descriptionName]) with
  | .error _ => none
  | .ok text => (((Json.read? text).map Json.merged).bind (·.get? "main")).bind Json.string?

/-- The module that a directory stands for. -/
def directory? (files : FileTree) (directory : String) : Option String :=
  let main :=
    (main? files directory).bind fun main =>
      let target := Path.join [directory, main]
      (file? files target).or (index? files target)
  main.or (index? files directory)

/-- The module of a path, a file or a directory. -/
def path? (files : FileTree) (path : String) : Option String :=
  (file? files path).or (directory? files path)

/-- The module that a specifier leads to from a directory. -/
def module? (files : FileTree) (specifier directory : String) : Option String :=
  if specifier = "" then none
  else if isPath specifier then (Path.resolve [directory, specifier]).bind (path? files)
  else if isCoreModule specifier then none
  else
    (Path.ancestors (Path.normalize directory)).findSome? fun directory =>
      if Path.basename directory none = "node_modules" then none
      else path? files (Path.join [directory, "node_modules", specifier])

end ModuleAssets.Resolution
