import ModuleAssets.Build
import ModuleAssets.Command.Delivery
import ModuleAssets.Syntax.Failure
import ModuleAssets.Text.LineIndex
/-!
# Jobs — the modules of a run on their way

A job takes a module from its file to the output directory in three steps: it
is read, it is relocated, and it is written. Jobs share the files and the
output of the build, and an order of steps is a list of the numbers of the
jobs. In `inOrder` each job is done before the next one starts, but any other
order makes sense too, since a step needs nothing but its own job to be so
far.
-/

namespace ModuleAssets

/-- Why a job fails. -/
inductive JobError where
  | unreadable (path : String) (cause : FileError)
  /-- The file is no module. -/
  | refused (position : Option LineCol)
  | notCopied (cause : TransferError)
  | notWritten (cause : WriteError)
deriving DecidableEq, Inhabited

namespace JobError

/-- The error in words. -/
def message : JobError → String
  | unreadable path cause => "failed to read " ++ path ++ ": " ++ cause.message
  | refused (some position) => position.display ++ ": " ++ Syntax.failureHeadline
  | refused none => Syntax.failureHeadline
  | notCopied cause => cause.message
  | notWritten cause => cause.message

end JobError

/-- A module that is written. -/
structure Written where
  path : String
  transformed : Bool
deriving DecidableEq, Inhabited

/-- How far a job has come. -/
inductive Stage where
  | waiting
  | read (content : ByteArray)
  | relocated (m : Relocated)
  | finished (result : Except JobError Written)

/-- A module that is processed. -/
structure Job where
  /-- The module as it was named. -/
  name : String
  /-- The absolute path of the module. -/
  path : String
  stage : Stage

/-- What the jobs of a run change. -/
structure Workbench where
  files : FileTree
  output : Output
deriving Inhabited

/-- What the jobs of a run have in common. -/
structure JobSetting where
  build : Build
  /-- The absolute path of the output directory. -/
  outDir : String

namespace Job

/-- The name of a written module. An addon becomes code. -/
def outputName (path : String) : String :=
  let name := (Location.lastName? path).getD path
  if Text.endsWith name Addon.ending then name ++ ".js" else name

/-- Tells where a module cannot be read, or what else is wrong with it. -/
def errorOf (content : ByteArray) : ModuleError → JobError
  | .refused cause => .refused ((LineIndex.ofText (Text.ofBytes content)).lineCol? cause.offset)
  | .notCopied cause => .notCopied cause

/-- The next step of a job. A finished job stays as it is. -/
def step (w : JobSetting) (bench : Workbench) (job : Job) : Job × Workbench :=
  match job.stage with
  | .waiting =>
    match bench.files.read job.path with
    | .error e => ({ job with stage := .finished (.error (.unreadable job.path e)) }, bench)
    | .ok content => ({ job with stage := .read content }, bench)
  | .read content =>
    let done := w.build.relocate bench.files .open_ job.path content bench.output
    let stage :=
      match done.result with
      | .error e => .finished (.error (errorOf content e))
      | .ok m => .relocated m
    ({ job with stage }, { bench with output := done.output })
  | .relocated m =>
    let path := Location.below w.outDir (outputName job.path)
    let done := bench.files.deliverFile path m.code.toUTF8
    let result :=
      match done.failure with
      | some e => .error (.notWritten e)
      | none => .ok ⟨path, m.transformed⟩
    ({ job with stage := .finished result }, { bench with files := done.files })
  | .finished _ => (job, bench)

/-- The number of steps that finish any job. -/
def stepCount : Nat := 3

end Job

/-! ## All jobs of a run -/

/-- The jobs of a run, and what they change. -/
structure Progress where
  jobs : List Job
  bench : Workbench

namespace Progress

/-- One job takes a step. -/
def step (w : JobSetting) (p : Progress) (number : Nat) : Progress :=
  match p.jobs[number]? with
  | none => p
  | some job =>
    let (job, bench) := job.step w p.bench
    ⟨p.jobs.set number job, bench⟩

/-- Jobs take steps in some order. -/
def run (w : JobSetting) (p : Progress) (order : List Nat) : Progress :=
  order.foldl (step w) p

/-- The order in which each of `count` jobs is done before the next one
starts. -/
def inOrder (count : Nat) : List Nat :=
  (List.range count).flatMap fun number => List.replicate Job.stepCount number

end Progress

end ModuleAssets
