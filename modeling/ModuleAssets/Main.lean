import ModuleAssets.Command.Run
import ModuleAssets.Files.Change
/-!
# The command line

Reads the files that a run may look at into memory, runs, and brings what has
changed back to the disk. Those files are the working directory and the
directories of modules named outside it, each with the package descriptions
and installed packages around it.

Links are read as links to what they lead to in the end, and a new link is
written as a copy of what it leads to.
-/

open System (FilePath)

namespace ModuleAssets

/-- Shown on request. -/
def helpText : String :=
  "Relocates the runtime assets of JavaScript modules into an output directory

Usage: module-assets [OPTIONS] <FILES>...

Options:
      --out-dir <DIR>               Directory for processed modules and assets [default: dist]
      --config <FILE>               File of settings [default: relocate.config.json if present]
      --entry <FILE>                Entry module of the build [default: the first file]
      --asset-base <DIR>            Directory of all assets below the output directory
      --production <true|false>     Fix process.env.NODE_ENV to \"production\" or \"dev\"
      --wrapper-compat              Unwrap factory wrappers before analysis
      --debug-log                   Tell of each asset
      --existing-asset-name <NAME>  Asset name that is already taken (repeatable)
      --cache-dir <DIR>             Directory of the state between builds [default: .relocate-cache]
      --output <human|json>         Format of the report [default: human]
  -h, --help                        Print help
  -V, --version                     Print version
"

/-- Shown on request. -/
def versionText : String :=
  "module-assets 0.1.0\n"

/-! ## Reading the disk -/

/-- The node at a path and all that is below it. What cannot be read is left
out. -/
partial def loadNode (path : FilePath) : IO (Option Node) := do
  try
    match (← path.symlinkMetadata).type with
    | .dir =>
      let mut entries := []
      for entry in ← path.readDir do
        if let some node ← loadNode (path / entry.fileName) then
          entries := Node.putEntry entry.fileName node entries
      return some (.directory entries)
    | .symlink => return some (.link (← IO.FS.realPath path).toString)
    | .file => return some (.file (← IO.FS.readBinFile path) Node.newFileMode)
    | .other => return none
  catch _ => return none

/-- Adds what is at a path to the files. -/
def addPath (files : FileTree) (path : String) : IO FileTree := do
  match ← loadNode path with
  | none => return files
  | some node =>
    let files := (files.createDirectory (Path.dirname path)).toOption.getD files
    match Arrival.ofPath files.root false path with
    | .ok (.missing directory name) => return files.put directory name node
    | .ok (.found place) => return files.putAt place node
    | .error _ => return files

/-- Adds a directory, and the packages around it. -/
def addTerritory (files : FileTree) (directory : String) : IO FileTree := do
  let around := (Path.ancestors directory).drop 1
  let packages := around.flatMap fun d =>
    [Location.below d "package.json", Location.below d "node_modules"]
  (packages ++ [directory]).foldlM addPath files

/-- The directories of all modules and settings that the arguments name. -/
def Arguments.directories (a : Arguments) (workspace : String) : List String :=
  let named := a.files ++ a.config.toList ++ a.entry.toList
  let around := named.filterMap fun path => (Path.resolve [workspace, path]).map Path.dirname
  let own := (a.outDir.toList ++ [a.cacheDirectory]).filterMap fun path =>
    Path.resolve [workspace, path]
  workspace :: (around ++ own).filter fun d => !Path.isWithin d workspace

/-! ## Writing back -/

/-- Whose rights the three lowest permission bits are. -/
def accessOf (bits : Nat) : IO.AccessRight :=
  { read := bits.testBit 2, write := bits.testBit 1, execution := bits.testBit 0 }

/-- Makes one change. -/
def makeChange (files : FileTree) : FileChange → IO Unit
  | .makeDirectory path => IO.FS.createDirAll path
  | .writeFile path content => IO.FS.writeBinFile path content
  | .setMode path mode =>
    IO.setAccessRights path
      { user := accessOf (mode / 64), group := accessOf (mode / 8), other := accessOf mode }
  | .makeLink path _ =>
    match files.read path with
    | .ok content => IO.FS.writeBinFile path content
    | .error _ => return
  | .remove path => IO.FS.removeFile path

/-! ## Running -/

/-- Runs what the arguments say. The answer is the status to end with. -/
def runArguments (a : Arguments) : IO UInt32 := do
  let workspace := (← IO.currentDir).toString
  let files ← (a.directories workspace).foldlM addTerritory FileTree.empty
  let done := a.run files workspace
  (files.changesFrom done.files).forM (makeChange done.files)
  match done.result with
  | .error e =>
    (← IO.getStderr).putStr ("Error: " ++ e.message ++ "\n")
    return 1
  | .ok report =>
    IO.print (report.render a.reportFormat)
    return UInt32.ofNat report.exitCode

end ModuleAssets

open ModuleAssets in
/-- Processes the modules that the arguments name. -/
def main (words : List String) : IO UInt32 := do
  match Arguments.ofWords words with
  | .error .help => IO.print helpText; return 0
  | .error .version => IO.print versionText; return 0
  | .error e =>
    (← IO.getStderr).putStr ("error: " ++ e.message ++ "\n")
    return 2
  | .ok a => runArguments a
