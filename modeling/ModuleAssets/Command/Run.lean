import ModuleAssets.Asset.FileCache
import ModuleAssets.Command.Configuration
import ModuleAssets.Command.Report
/-!
# Runs — from arguments and files to written files and a report

A run takes over what an earlier run with the same entry has handed on,
processes all modules, writes the assets they need beside them, and hands on
its own state. A module that fails does not stop the run; an output that
cannot be written does. A cache that cannot be used is ignored.
-/

namespace ModuleAssets

/-- Why a run gives no report. -/
inductive RunError where
  | configuration (cause : ConfigurationError)
  /-- Two modules would be written under one name. -/
  | collision (name : String)
  | notWritten (cause : WriteError)
deriving DecidableEq, Inhabited

namespace RunError

/-- The error in words. -/
def message : RunError → String
  | configuration cause => cause.message
  | collision name =>
    "output name collision: " ++ name ++ " is produced by more than one module"
  | notWritten cause => cause.message

end RunError

/-- The files after a run, and its report. -/
structure Finished where
  files : FileTree
  result : Except RunError Report

/-- What a run works with, once its configuration is known. -/
structure RunPlan where
  setting : JobSetting
  jobs : List Job
  /-- The absolute path of the directory of the cache. -/
  cacheDir : String

namespace RunPlan

/-- The first name that is there twice. -/
def firstRepeated? : List String → List String → Option String
  | _, [] => none
  | seen, name :: rest => if name ∈ seen then some name else firstRepeated? (name :: seen) rest

/-- The plan of some arguments, given in the directory `workspace`. -/
def ofArguments (workspace : String) (a : Arguments) (c : Configuration) :
    Except RunError RunPlan :=
  let paths := a.files.map (Location.below workspace)
  match firstRepeated? [] (paths.map Job.outputName) with
  | some name => .error (.collision name)
  | none =>
    let entry := (c.entry.map (Location.below workspace)) <|> paths.head?
    .ok
      { setting :=
          { build := { Build.ofOptions c.options with entryId := entry }
            outDir := Location.below workspace (c.outDir.getD "dist") }
        jobs := (a.files.zip paths).map fun (name, path) => ⟨name, path, .waiting⟩
        cacheDir := Location.below workspace a.cacheDirectory }

/-- The cache of a run. -/
def cache (p : RunPlan) : Cache FileTree :=
  .inDirectory p.cacheDir

/-- What the jobs start with. -/
def start (p : RunPlan) (files : FileTree) : Progress :=
  let output := p.setting.build.start
  let registry :=
    match p.setting.build.restore p.cache files output.registry with
    | .ok (some registry) => registry
    | _ => output.registry
  ⟨p.jobs, files, { output with registry }⟩

/-- The report of a job. A job that is not finished has none. -/
def moduleReport? (job : Job) : Option ModuleReport :=
  match job.stage with
  | .finished result => some ⟨job.name, result⟩
  | _ => none

/-! ## Assets -/

/-- The path of an asset. -/
def assetPath (p : RunPlan) (name : String) : String :=
  Location.below p.setting.outDir name

/-- Writes the files that the host has got. -/
def writeFiles (p : RunPlan) (registry : Registry) (emitted : List (String × ByteArray))
    (files : FileTree) : Delivered :=
  emitted.foldl
    (fun done (name, content) =>
      done.andThen (·.deliverAsset (p.assetPath name) content (registry.permissions? name)))
    ⟨files, none⟩

/-- Writes all links that are known. -/
def writeLinks (p : RunPlan) (symlinks : List (String × String)) (files : FileTree) :
    Delivered :=
  symlinks.foldl
    (fun done (name, target) => done.andThen (·.deliverLink (p.assetPath name) target))
    ⟨files, none⟩

/-- Tells of all assets that are written. -/
def assetReports (output : Output) : List AssetReport :=
  (output.emitted.map fun (name, content) =>
      .file name content.size (output.registry.permissions? name)) ++
    output.registry.symlinks.map fun (name, target) => .link name target

/-- Writes the assets after all jobs, and hands on the state of the build. -/
def finish (p : RunPlan) (done : Progress) : Finished :=
  let output := done.bench.output
  let written :=
    (p.writeFiles output.registry output.emitted done.bench.files).andThen
      (p.writeLinks output.registry.symlinks)
  match written.failure with
  | some e => ⟨written.files, .error (.notWritten e)⟩
  | none =>
    { files := (p.setting.build.persist p.cache written.files output.registry).kept
      result :=
        .ok
          { outDir := p.setting.outDir
            modules := done.jobs.filterMap moduleReport?
            assets := assetReports output } }

/-- Runs all jobs, their steps in some order, and then writes the assets. -/
def runIn (p : RunPlan) (files : FileTree) (order : List Nat) : Finished :=
  p.finish ((p.start files).run p.setting order)

/-- Runs one job after the other, and then writes the assets. -/
def run (p : RunPlan) (files : FileTree) : Finished :=
  p.runIn files (Progress.inOrder p.jobs.length)

end RunPlan

namespace Arguments

/-- The settings of a run with these arguments. -/
def configuration (a : Arguments) (files : FileTree) (workspace : String) :
    Except ConfigurationError Configuration :=
  (Configuration.load files workspace a.config).map (·.withArguments a)

/-- The plan of a run with these arguments. -/
def plan (a : Arguments) (files : FileTree) (workspace : String) : Except RunError RunPlan :=
  match a.configuration files workspace with
  | .error e => .error (.configuration e)
  | .ok c => RunPlan.ofArguments workspace a c

/-- Runs what the arguments say, in the directory `workspace`. -/
def run (a : Arguments) (files : FileTree) (workspace : String) : Finished :=
  match a.plan files workspace with
  | .error e => ⟨files, .error e⟩
  | .ok plan => plan.run files

end Arguments

end ModuleAssets
