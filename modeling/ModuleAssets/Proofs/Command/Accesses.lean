import ModuleAssets.Proofs.Command.Outputs
import ModuleAssets.Proofs.Relocation.Analysis
/-!
# Accesses — jobs that run at the same time

Jobs share the files and the output of the build. A job that runs at the same time as
others finds what they have left whenever it turns to one of these, so what it does is an
`Activity`: accesses, one after the other, and then a result. A step of `Job` is an access
too, but a job that relocates its module may be held up before it has all it needs. A
`Cutting` says which accesses that takes. If a single one does all of it, the run is that of
the jobs (`RunPlan.runCut_whole`).
-/

namespace ModuleAssets

open Syntax

/-! ## Activities -/

/-- What a job still does. What an access changes, and what comes after it, depends on what
it finds. -/
inductive Activity where
  | ended (result : Except JobError Written)
  | access (change : Workbench → Workbench) (next : Workbench → Activity)

namespace Activity

/-- The next access. -/
def step (bench : Workbench) : Activity → Activity × Workbench
  | ended result => (ended result, bench)
  | access change next => (next bench, change bench)

/-- All accesses, with nothing in between. -/
def alone : Activity → Workbench → Except JobError Written × Workbench
  | ended result, bench => (result, bench)
  | access change next, bench => (next bench).alone (change bench)

/-- How far the job of an activity has come, as seen from outside. -/
def stage : Activity → Stage
  | ended result => .finished result
  | access .. => .waiting

/-- Nothing is left to do. -/
def IsEnded (a : Activity) : Prop :=
  ∃ result, a = ended result

end Activity

/-! ## From jobs to activities -/

namespace Job

/-- Why a module cannot be parsed, if it is code and cannot. -/
def refusal? (path : String) (content : ByteArray) : Option SyntaxError :=
  if Text.endsWith path Addon.ending || Text.endsWith path ".json" then none
  else
    match Syntax.parse (Text.ofBytes content) with
    | .error cause => some cause
    | .ok _ => none

/-- Why the module of a job cannot be read or cannot be parsed, if that is so. -/
def failure? (files : FileTree) (path : String) : Option JobError :=
  match files.read path with
  | .error e => some (.unreadable path e)
  | .ok content => (refusal? path content).map fun cause => errorOf content (.refused cause)

/-- What becomes of a module once it is relocated. -/
def deliver (w : JobSetting) (path : String) (m : Relocated) (bench : Workbench) :
    Except JobError Written × Workbench :=
  let place := Location.below w.outDir (outputName path)
  let done := bench.files.deliverFile place m.code.toUTF8
  (done.failure.elim (.ok ⟨place, m.transformed⟩) fun e => .error (.notWritten e),
    { bench with files := done.files })

/-- What becomes of a module once it is read. -/
def process (w : JobSetting) (path : String) (content : ByteArray) (bench : Workbench) :
    Except JobError Written × Workbench :=
  let done := w.build.relocate bench.files .open_ path content bench.output
  match done.result with
  | .error e => (.error (errorOf content e), { bench with output := done.output })
  | .ok m => deliver w path m { bench with output := done.output }

end Job

/-- A way to relocate and to write modules by accesses. With nothing in between it comes to
what a job does in its steps. -/
structure Cutting (w : JobSetting) where
  activity : String → ByteArray → Activity
  faithful : ∀ path content, Job.refusal? path content = none →
    ∀ bench, (activity path content).alone bench = Job.process w path content bench

namespace Cutting

variable {w : JobSetting}

/-- All that a job does. It reads its module, and parses it before it turns to anything that
others share. -/
def course (c : Cutting w) (path : String) : Activity :=
  .access id fun bench =>
    match bench.files.read path with
    | .error e => .ended (.error (.unreadable path e))
    | .ok content =>
      match Job.refusal? path content with
      | some cause => .access id fun _ => .ended (.error (Job.errorOf content (.refused cause)))
      | none => c.activity path content

end Cutting

/-! ## Activities side by side -/

/-- What jobs that run at the same time still do, and what they share. -/
structure Team where
  activities : List Activity
  bench : Workbench

namespace Team

/-- One activity makes its next access. -/
def step (t : Team) (number : Nat) : Team :=
  match t.activities[number]? with
  | none => t
  | some a => ⟨t.activities.set number (a.step t.bench).1, (a.step t.bench).2⟩

/-- Activities make accesses in some order. -/
def run (t : Team) (order : List Nat) : Team :=
  order.foldl step t

/-- All have ended. -/
def IsDone (t : Team) : Prop :=
  ∀ a ∈ t.activities, a.IsEnded

/-- The jobs of a team. -/
def progress (t : Team) (jobs : List Job) : Progress :=
  ⟨List.zipWith (fun job a => { job with stage := a.stage }) jobs t.activities, t.bench⟩

end Team

namespace RunPlan

/-- The jobs of a run before their first accesses. -/
def team (p : RunPlan) (c : Cutting p.setting) (files : FileTree) : Team :=
  ⟨p.jobs.map fun job => c.course job.path, (p.start files).bench⟩

/-- Runs all jobs at the same time, their accesses in some order, and then writes the assets. -/
def runCut (p : RunPlan) (c : Cutting p.setting) (files : FileTree) (order : List Nat) :
    Finished :=
  p.finish (((p.team c files).run order).progress p.jobs)

end RunPlan

/-! ## Modules that are refused -/

namespace Build

variable {b : Build} {files : FileTree} {host : Host} {path : String} {content : ByteArray}
  {o : Output}

/-- **A module that cannot be parsed** is refused, and nothing is done for it. -/
theorem relocate_of_refusal {cause : SyntaxError} (h : Job.refusal? path content = some cause) :
    b.relocate files host path content o = ⟨o, .error (.refused cause)⟩ := by
  unfold Job.refusal? at h
  split at h
  · cases h
  · rename_i hkind
    obtain ⟨haddon, hdata⟩ := not_or.1 (mt Bool.or_eq_true_iff.2 hkind)
    split at h
    · rename_i cause' hparse
      obtain rfl := Option.some.inj h
      rw [relocate, if_neg haddon]
      dsimp only
      rw [if_neg hdata]
      unfold relocateCode
      rw [analyze_eq_error hparse]
    · cases h

end Build

/-! ## A single access -/

namespace Activity

/-- Writes a module in one access. -/
def deliverWhole (w : JobSetting) (path : String) (m : Relocated) : Activity :=
  .access (fun bench => (Job.deliver w path m bench).2)
    fun bench => .ended (Job.deliver w path m bench).1

/-- Relocates a module in one access, and then writes it. -/
def processWhole (w : JobSetting) (path : String) (content : ByteArray) : Activity :=
  let relocated (bench : Workbench) :=
    w.build.relocate bench.files .open_ path content bench.output
  .access (fun bench => { bench with output := (relocated bench).output })
    fun bench =>
      match (relocated bench).result with
      | .error e => .ended (.error (Job.errorOf content e))
      | .ok m => deliverWhole w path m

end Activity

namespace Cutting

/-- One access relocates a module, and one writes it. -/
def whole (w : JobSetting) : Cutting w where
  activity := Activity.processWhole w
  faithful path content _ bench := by
    rw [Activity.processWhole, Activity.alone, Job.process]
    dsimp only
    cases (w.build.relocate bench.files .open_ path content bench.output).result with
    | error e => rfl
    | ok m =>
      dsimp only
      rw [Activity.deliverWhole, Activity.alone, Activity.alone]

end Cutting

namespace Job

/-- What a job still does if it takes one access a step. -/
def activity (w : JobSetting) (job : Job) : Activity :=
  match job.stage with
  | .waiting => (Cutting.whole w).course job.path
  | .read content => Activity.processWhole w job.path content
  | .relocated m => Activity.deliverWhole w job.path m
  | .finished result => .ended result

variable {w : JobSetting}

/-- A module that is refused is refused in one access either way. -/
theorem processWhole_of_refusal {path : String} {content : ByteArray} {cause : SyntaxError}
    (h : refusal? path content = some cause) :
    Activity.processWhole w path content =
      .access id fun _ => .ended (.error (errorOf content (.refused cause))) := by
  rw [Activity.processWhole]
  dsimp only
  congr 1
  · funext bench
    rw [Build.relocate_of_refusal h]
    rfl
  · funext bench
    rw [Build.relocate_of_refusal h]

/-- **A step of a job** is an access. -/
theorem activity_step (w : JobSetting) (bench : Workbench) (job : Job) :
    ((job.step w bench).1.activity w, (job.step w bench).2) = (job.activity w).step bench := by
  obtain ⟨name, path, stage⟩ := job
  cases stage with
  | waiting =>
    cases hread : bench.files.read path with
    | error e => simp only [step, activity, Cutting.course, Activity.step, hread, id]
    | ok content =>
      cases hrefusal : refusal? path content with
      | some cause =>
        simp only [step, activity, Cutting.course, Activity.step, hread, hrefusal, id,
          processWhole_of_refusal hrefusal]
      | none =>
        simp only [step, activity, Cutting.course, Activity.step, hread, hrefusal, id,
          Cutting.whole]
  | read content =>
    simp only [step, activity, Activity.processWhole, Activity.step]
    cases (w.build.relocate bench.files .open_ path content bench.output).result with
    | error e => rfl
    | ok m => rfl
  | relocated m =>
    simp only [step, activity, Activity.deliverWhole, Activity.step, deliver]
    cases (bench.files.deliverFile (Location.below w.outDir (outputName path))
        m.code.toUTF8).failure with
    | some e => rfl
    | none => rfl
  | finished result => rfl

/-- Whether a job is finished shows in its activity. -/
theorem report_activity (w : JobSetting) (job : Job) :
    RunPlan.moduleReport? { job with stage := (job.activity w).stage } =
      RunPlan.moduleReport? job := by
  obtain ⟨name, path, stage⟩ := job
  cases stage with
  | waiting =>
    rw [activity]
    rfl
  | read content =>
    rw [activity]
    rfl
  | relocated m =>
    rw [activity]
    rfl
  | finished result => rfl

end Job

namespace Progress

variable {w : JobSetting}

/-- What the jobs still do if they take one access a step. -/
def team (w : JobSetting) (p : Progress) : Team :=
  ⟨p.jobs.map (Job.activity w), p.bench⟩

theorem team_step (w : JobSetting) (p : Progress) (number : Nat) :
    (p.step w number).team w = (p.team w).step number := by
  have hactivity : (p.team w).activities[number]? = p.jobs[number]?.map (Job.activity w) :=
    List.getElem?_map
  rw [step, Team.step, hactivity]
  cases p.jobs[number]? with
  | none => rfl
  | some job =>
    have hnext := job.activity_step w p.bench
    dsimp only [Option.map_some, team]
    rw [← hnext, List.map_set]

/-- **Steps of jobs** are accesses, in the same order. -/
theorem team_run (w : JobSetting) (p : Progress) (order : List Nat) :
    (p.run w order).team w = (p.team w).run order := by
  induction order generalizing p with
  | nil => rfl
  | cons number rest ih => exact (ih (p.step w number)).trans (by rw [team_step]; rfl)

end Progress

namespace RunPlan

variable {p : RunPlan} {files : FileTree} {order : List Nat}

/-- What a run ends with depends on the reports of its jobs and on what they share. -/
theorem finish_congr (p : RunPlan) {done done' : Progress} (hbench : done.bench = done'.bench)
    (hjobs : done.jobs.filterMap moduleReport? = done'.jobs.filterMap moduleReport?) :
    p.finish done = p.finish done' := by
  unfold finish
  rw [hbench, hjobs]

/-- Reports of activities are those of their jobs. -/
theorem reports_team (w : JobSetting) {jobs jobs' : List Job}
    (h : jobs'.map (fun job => (job.name, job.path)) = jobs.map fun job => (job.name, job.path)) :
    (List.zipWith (fun job a => { job with stage := Activity.stage a }) jobs
        (jobs'.map (Job.activity w))).filterMap moduleReport? =
      jobs'.filterMap moduleReport? := by
  induction jobs' generalizing jobs with
  | nil => rw [List.map_nil, List.zipWith_nil_right]
  | cons job' rest' ih =>
    cases jobs with
    | nil => cases h
    | cons job rest =>
      obtain ⟨hhead, hrest⟩ := List.cons.inj h
      obtain ⟨hname, hpath⟩ := Prod.mk.inj hhead
      have hreport : moduleReport? { job with stage := (job'.activity w).stage } =
          moduleReport? job' := by
        rw [← Job.report_activity w job']
        unfold moduleReport?
        dsimp only
        rw [hname]
      rw [List.map_cons, List.zipWith_cons_cons, List.filterMap_cons, List.filterMap_cons, hreport,
        ih hrest]

/-- Jobs that wait are as one access for each of their steps. -/
theorem team_whole (hwait : ∀ job ∈ p.jobs, job.stage = .waiting) :
    p.team (.whole p.setting) files = (p.start files).team p.setting := by
  refine congrArg (Team.mk · _) (List.map_congr_left fun job hjob => ?_)
  rw [Job.activity, hwait job hjob]

/-- **A run of jobs** is a run of accesses, with one for all that it takes to relocate a
module. -/
theorem runCut_whole (hwait : ∀ job ∈ p.jobs, job.stage = .waiting) :
    p.runCut (.whole p.setting) files order = p.runIn files order := by
  have hrun := Progress.team_run p.setting (p.start files) order
  rw [runCut, runIn, team_whole hwait, ← hrun]
  exact p.finish_congr rfl (reports_team p.setting (Progress.modules_run _ _ _))

end RunPlan

end ModuleAssets
