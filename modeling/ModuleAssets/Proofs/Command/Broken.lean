import ModuleAssets.Proofs.Command.Resumed
import ModuleAssets.Proofs.Command.SingleAccesses
/-!
# Broken modules — a run without one of its modules

A module that cannot be read or cannot be parsed is given up before its job has changed
anything. So however its accesses fall between those of the others, the others find what
they find in a run that leaves the module out (`Team.run_without`), and the two runs end
with the same files and tell the same of the others (`Arguments.broken_module_aside`). The
program's own run is one of these: there each step of a job is one access
(`Arguments.broken_module_in_run`).
-/

namespace ModuleAssets

/-! ## Activities that fail -/

namespace Activity

/-- Nothing is changed any more, and the result is an error. -/
inductive Fails (e : JobError) : Activity → Prop
  | ended : Fails e (.ended (.error e))
  | access : Fails e (.access id fun _ => .ended (.error e))

variable {e : JobError} {a : Activity}

/-- **An access on the way to an error** changes nothing. -/
theorem Fails.step (h : a.Fails e) (bench : Workbench) :
    (a.step bench).1.Fails e ∧ (a.step bench).2 = bench := by
  cases h with
  | ended => exact ⟨.ended, rfl⟩
  | access => exact ⟨.ended, rfl⟩

theorem Fails.eq_ended (h : a.Fails e) (hended : a.IsEnded) : a = .ended (.error e) := by
  cases h with
  | ended => rfl
  | access =>
    obtain ⟨result, hresult⟩ := hended
    cases hresult

end Activity

/-- **A job reads its module**, and fails if that cannot be read or parsed. -/
theorem Cutting.course_step {w : JobSetting} (c : Cutting w) {bench : Workbench} {path : String}
    {e : JobError} (h : Job.failure? bench.files path = some e) :
    ((c.course path).step bench).1.Fails e ∧ ((c.course path).step bench).2 = bench := by
  refine ⟨?_, rfl⟩
  rw [course, Activity.step]
  unfold Job.failure? at h
  dsimp only
  cases hread : bench.files.read path with
  | error cause =>
    rw [hread] at h
    obtain rfl := Option.some.inj h
    exact .ended
  | ok content =>
    rw [hread] at h
    obtain ⟨cause, hcause, rfl⟩ := Option.map_eq_some_iff.1 h
    dsimp only
    rw [hcause]
    exact .access

/-! ## Teams -/

namespace Team

variable {t : Team} {number : Nat} {order : List Nat} {e : JobError} {a : Activity}

/-- The team without one of its activities. Those behind it move up. -/
def without (t : Team) (number : Nat) : Team :=
  ⟨t.activities.eraseIdx number, t.bench⟩

/-- The number of another activity after those behind `number` have moved up. -/
def movedUp (number other : Nat) : Nat :=
  if other < number then other else other - 1

/-- The accesses of all others, in the same order. -/
def others (number : Nat) (order : List Nat) : List Nat :=
  (order.filter (· ≠ number)).map (movedUp number)

/-- The accesses before the first of an activity. -/
def early (number : Nat) (order : List Nat) : List Nat :=
  order.takeWhile (· ≠ number)

theorem early_eq {before after : List Nat} (h : number ∉ before) :
    early number (before ++ number :: after) = before := by
  have hpass : ∀ other ∈ before, decide (other ≠ number) = true := fun other hother =>
    decide_eq_true fun hsame => h (hsame ▸ hother)
  rw [early, List.takeWhile_append_of_pos hpass, List.takeWhile_cons_of_neg (by simp),
    List.append_nil]

theorem run_append (t : Team) (order more : List Nat) :
    t.run (order ++ more) = (t.run order).run more :=
  List.foldl_append

theorem length_run (t : Team) (order : List Nat) :
    (t.run order).activities.length = t.activities.length := by
  induction order generalizing t with
  | nil => rfl
  | cons number rest ih =>
    refine (ih (t.step number)).trans ?_
    rw [step]
    split
    · rfl
    · exact List.length_set

theorem IsDone.without (h : t.IsDone) (number : Nat) : (t.without number).IsDone :=
  fun a ha => h a (List.mem_of_mem_eraseIdx ha)

theorem others_append (number : Nat) (order more : List Nat) :
    others number (order ++ more) = others number order ++ others number more := by
  rw [others, others, others, List.filter_append, List.map_append]

theorem others_cons_self (number : Nat) (order : List Nat) :
    others number (number :: order) = others number order := by
  rw [others, others, List.filter_cons_of_neg (by simp)]

theorem others_cons {other : Nat} (h : other ≠ number) (order : List Nat) :
    others number (other :: order) = movedUp number other :: others number order := by
  rw [others, others, List.filter_cons_of_pos (by simpa using h), List.map_cons]

/-- **An access of another activity** is the same without this one. -/
theorem step_without {other : Nat} (h : other ≠ number) (t : Team) :
    (t.step other).without number = (t.without number).step (movedUp number other) ∧
      (t.step other).activities[number]? = t.activities[number]? := by
  have hsame : (t.without number).activities[movedUp number other]? = t.activities[other]? := by
    rw [without, List.getElem?_eraseIdx, movedUp]
    split
    · rfl
    · rw [if_neg (by omega), Nat.sub_add_cancel (by omega)]
  have hset (a : Activity) : (t.activities.set other a).eraseIdx number =
      (t.activities.eraseIdx number).set (movedUp number other) a := by
    rw [movedUp]
    split
    · rename_i hlt
      exact List.eraseIdx_set_gt hlt
    · rename_i hge
      exact List.eraseIdx_set_lt (by omega)
  rw [step, step, hsame]
  cases t.activities[other]? with
  | none => exact ⟨rfl, rfl⟩
  | some a => exact ⟨congrArg (Team.mk · _) (hset _), List.getElem?_set_ne h⟩

/-- **Accesses of others** are the same without this activity. -/
theorem run_others (h : number ∉ order) (t : Team) :
    (t.run order).without number = (t.without number).run (others number order) ∧
      (t.run order).activities[number]? = t.activities[number]? := by
  induction order generalizing t with
  | nil => exact ⟨rfl, rfl⟩
  | cons other rest ih =>
    obtain ⟨hother, hrest⟩ := not_or.1 (mt List.mem_cons.2 h)
    obtain ⟨hstep, hkept⟩ := step_without (Ne.symm hother) t
    obtain ⟨hrun, hstays⟩ := ih hrest (t.step other)
    rw [others_cons (Ne.symm hother)]
    refine ⟨?_, hstays.trans hkept⟩
    rw [run, List.foldl_cons, ← run, hrun, hstep]
    rfl

/-- An access of this activity that changes nothing but itself. -/
theorem step_self (ha : t.activities[number]? = some a) (hbench : (a.step t.bench).2 = t.bench) :
    (t.step number).without number = t.without number ∧
      (t.step number).activities[number]? = some (a.step t.bench).1 := by
  obtain ⟨hlength, -⟩ := List.getElem?_eq_some_iff.1 ha
  rw [step, ha]
  dsimp only
  refine ⟨?_, List.getElem?_set_self hlength⟩
  rw [without, without, hbench]
  dsimp only
  rw [List.eraseIdx_set_eq]

/-- **Any accesses** are the same without an activity that fails, and it goes on to fail. -/
theorem run_without_failing (ha : t.activities[number]? = some a) (hfails : a.Fails e)
    (order : List Nat) :
    (t.run order).without number = (t.without number).run (others number order) ∧
      ∃ a', (t.run order).activities[number]? = some a' ∧ a'.Fails e := by
  induction order generalizing t a with
  | nil => exact ⟨rfl, a, ha, hfails⟩
  | cons other rest ih =>
    by_cases hother : other = number
    · subst hother
      obtain ⟨hnext, hbench⟩ := hfails.step t.bench
      obtain ⟨hstep, hactivity⟩ := step_self ha hbench
      obtain ⟨hrun, hlast⟩ := ih hactivity hnext
      rw [others_cons_self, ← hstep]
      exact ⟨hrun, hlast⟩
    · obtain ⟨hstep, hkept⟩ := step_without hother t
      obtain ⟨hrun, hlast⟩ := ih (hkept.trans ha) hfails
      rw [others_cons hother]
      refine ⟨?_, hlast⟩
      rw [run, List.foldl_cons, ← run, hrun, hstep]
      rfl

theorem mem_of_isDone (ha : t.activities[number]? = some a) (hactive : ¬a.IsEnded)
    (hdone : (t.run order).IsDone) : number ∈ order := by
  by_contra hnever
  obtain ⟨-, hkept⟩ := run_others hnever t
  exact hactive (hdone a (List.mem_of_getElem? (hkept.trans ha)))

/-- **A run in which a module is broken**: all others do what they do without it, and its job
ends with the error. -/
theorem run_without {w : JobSetting} (c : Cutting w) {path : String}
    (ha : t.activities[number]? = some (c.course path))
    (hfailure : Job.failure? (t.run (early number order)).bench.files path = some e)
    (hdone : (t.run order).IsDone) :
    (t.run order).without number = (t.without number).run (others number order) ∧
      (t.run order).activities[number]? = some (.ended (.error e)) := by
  have hmem : number ∈ order := mem_of_isDone ha (fun ⟨_, h⟩ => nomatch h) hdone
  obtain ⟨before, after, rfl, hbefore⟩ := List.eq_append_cons_of_mem hmem
  rw [early_eq hbefore] at hfailure
  have hrun : t.run (before ++ number :: after) = ((t.run before).step number).run after :=
    run_append t before (number :: after)
  obtain ⟨hothers, hkept⟩ := run_others hbefore t
  obtain ⟨hfails, hbench⟩ := c.course_step hfailure
  obtain ⟨hstep, hactivity⟩ := step_self (hkept.trans ha) hbench
  obtain ⟨hafter, a, hlast, hlastFails⟩ := run_without_failing hactivity hfails after
  rw [← hrun] at hafter hlast
  refine ⟨?_, ?_⟩
  · rw [hafter, hstep, hothers, ← run_append, others_append, others_cons_self]
  · rw [hlast, hlastFails.eq_ended (hdone a (List.mem_of_getElem? hlast))]

end Team

/-! ## Reports -/

namespace Team

variable {t : Team} {number : Nat} {e : JobError}

instance : DecidablePred Activity.IsEnded
  | .ended result => isTrue ⟨result, rfl⟩
  | .access .. => isFalse fun ⟨_, h⟩ => nomatch h

instance (t : Team) : Decidable t.IsDone :=
  inferInstanceAs (Decidable (∀ a ∈ t.activities, a.IsEnded))

theorem exists_results {activities : List Activity} (h : ∀ a ∈ activities, a.IsEnded) :
    ∃ results : List (Except JobError Written), activities = results.map .ended := by
  induction activities with
  | nil => exact ⟨[], rfl⟩
  | cons a rest ih =>
    obtain ⟨result, rfl⟩ := h a List.mem_cons_self
    obtain ⟨results, rfl⟩ := ih fun b hb => h b (List.mem_cons_of_mem _ hb)
    exact ⟨result :: results, rfl⟩

/-- Activities that have ended are reported one by one. -/
theorem reports_ended (jobs : List Job) (results : List (Except JobError Written)) :
    (List.zipWith (fun job a => { job with stage := Activity.stage a }) jobs
        (results.map Activity.ended)).filterMap RunPlan.moduleReport? =
      List.zipWith (fun job result => ⟨job.name, result⟩) jobs results := by
  induction results generalizing jobs with
  | nil => rw [List.map_nil, List.zipWith_nil_right, List.zipWith_nil_right, List.filterMap_nil]
  | cons result rest ih =>
    cases jobs with
    | nil => rfl
    | cons job jobs =>
      rw [List.map_cons, List.zipWith_cons_cons, List.zipWith_cons_cons, List.filterMap_cons, ih]
      rfl

/-- What is reported of a team. -/
def reports (t : Team) (jobs : List Job) : List ModuleReport :=
  (t.progress jobs).jobs.filterMap RunPlan.moduleReport?

/-- **Reports without an activity** are those of the others. -/
theorem reports_without (hdone : t.IsDone) (jobs : List Job) (number : Nat) :
    (t.without number).reports (jobs.eraseIdx number) = (t.reports jobs).eraseIdx number := by
  obtain ⟨activities, bench⟩ := t
  obtain ⟨results, rfl⟩ := exists_results hdone
  rw [reports, reports, progress, progress, without]
  dsimp only
  rw [List.eraseIdx_map, reports_ended, reports_ended]
  refine List.ext_getElem? fun i => ?_
  simp only [List.getElem?_eraseIdx, List.getElem?_zipWith]
  by_cases hi : i < number
  · simp only [if_pos hi]
  · simp only [if_neg hi]

/-- There is a report of each activity. -/
theorem length_reports (hdone : t.IsDone) {jobs : List Job}
    (hlength : t.activities.length = jobs.length) : (t.reports jobs).length = jobs.length := by
  obtain ⟨activities, bench⟩ := t
  obtain ⟨results, rfl⟩ := exists_results hdone
  rw [reports, progress, reports_ended, List.length_zipWith, ← hlength, List.length_map,
    Nat.min_self]

/-- The report of an activity that failed. -/
theorem getElem?_reports (hdone : t.IsDone) {jobs : List Job} {job : Job}
    (hjob : jobs[number]? = some job) (ha : t.activities[number]? = some (.ended (.error e))) :
    (t.reports jobs)[number]? = some ⟨job.name, .error e⟩ := by
  obtain ⟨activities, bench⟩ := t
  obtain ⟨results, rfl⟩ := exists_results hdone
  obtain ⟨result, hresult, hended⟩ := Option.map_eq_some_iff.1 (List.getElem?_map ▸ ha)
  obtain rfl := Activity.ended.inj hended
  rw [reports, progress, reports_ended, List.getElem?_zipWith, hjob, hresult]

end Team

namespace Report

/-- The report without one of its modules. -/
def without (r : Report) (number : Nat) : Report :=
  { r with modules := r.modules.eraseIdx number }

end Report

namespace RunPlan

variable {p : RunPlan} {files : FileTree} {order : List Nat} {number : Nat} {job : Job}
  {e : JobError}

/-- The plan without one of its modules. -/
def without (p : RunPlan) (number : Nat) : RunPlan :=
  { p with jobs := p.jobs.eraseIdx number }

theorem bench_without (p : RunPlan) (files : FileTree) (number : Nat) :
    ((p.without number).start files).bench = (p.start files).bench := by
  unfold start cache
  dsimp only [without]

theorem team_without (p : RunPlan) (c : Cutting p.setting) (files : FileTree) (number : Nat) :
    (p.without number).team c files = (p.team c files).without number := by
  unfold team Team.without
  rw [bench_without]
  dsimp only [without]
  rw [List.eraseIdx_map]

/-- What a run ends with has no more to do with a module than its report. -/
theorem finish_without (p : RunPlan) {number : Nat} {done rest : Progress}
    (hbench : rest.bench = done.bench)
    (hreports : rest.jobs.filterMap moduleReport? =
      (done.jobs.filterMap moduleReport?).eraseIdx number) :
    ((p.without number).finish rest).files = (p.finish done).files ∧
      ((p.without number).finish rest).result =
        (p.finish done).result.map (·.without number) := by
  have hwritten (o : Output) (files : FileTree) :
      ((p.without number).writeFiles o.registry o.emitted files).andThen
          ((p.without number).writeLinks o.registry.symlinks) =
        (p.writeFiles o.registry o.emitted files).andThen (p.writeLinks o.registry.symlinks) := rfl
  unfold finish
  dsimp only
  rw [hbench, hreports, hwritten]
  generalize (p.writeFiles done.bench.output.registry done.bench.output.emitted
    done.bench.files).andThen (p.writeLinks done.bench.output.registry.symlinks) = written
  cases written.failure with
  | some cause => exact ⟨rfl, rfl⟩
  | none => exact ⟨rfl, rfl⟩

theorem modules_of_finish {p : RunPlan} {done : Progress} {report : Report}
    (h : (p.finish done).result = .ok report) :
    report.modules = done.jobs.filterMap moduleReport? := by
  unfold finish at h
  dsimp only at h
  split at h
  · cases h
  · rw [← Except.ok.inj h]

/-- **A run without a broken module** ends as the run with it does, and this tells of an error. -/
theorem runCut_without (c : Cutting p.setting) (hjob : p.jobs[number]? = some job)
    (hfailure : Job.failure? ((p.team c files).run (Team.early number order)).bench.files
      job.path = some e)
    (hdone : ((p.team c files).run order).IsDone) :
    let others := Team.others number order
    let all := p.runCut c files order
    let rest := (p.without number).runCut c files others
    (((p.without number).team c files).run others).IsDone ∧
      rest.files = all.files ∧ rest.result = all.result.map (·.without number) ∧
      ∀ report, all.result = .ok report →
        report.modules.length = p.jobs.length ∧
          report.modules[number]? = some ⟨job.name, .error e⟩ := by
  intro others all rest
  have ha : (p.team c files).activities[number]? = some (c.course job.path) := by
    rw [team, List.getElem?_map, hjob, Option.map_some]
  obtain ⟨hrun, hended⟩ := Team.run_without c ha hfailure hdone
  have hteam : ((p.without number).team c files).run others =
      ((p.team c files).run order).without number := by
    rw [team_without, hrun]
  obtain ⟨hfiles, hresult⟩ : rest.files = all.files ∧
      rest.result = all.result.map (·.without number) := by
    unfold rest all runCut
    rw [hteam]
    exact p.finish_without rfl (Team.reports_without hdone p.jobs number)
  have hlength : ((p.team c files).run order).activities.length = p.jobs.length :=
    (Team.length_run _ _).trans (List.length_map _)
  refine ⟨hteam ▸ hdone.without number, hfiles, hresult, fun report hreport => ?_⟩
  rw [modules_of_finish hreport]
  exact ⟨Team.length_reports hdone hlength, Team.getElem?_reports hdone hjob hended⟩

theorem firstRepeated?_sublist {seen seen' names names' : List String} (hseen : seen' ⊆ seen)
    (hnames : names'.Sublist names) (h : firstRepeated? seen names = none) :
    firstRepeated? seen' names' = none := by
  induction hnames generalizing seen seen' with
  | slnil => rfl
  | cons name hrest ih =>
    rw [firstRepeated?] at h
    split at h
    · cases h
    · exact ih (List.Subset.trans hseen (List.subset_cons_self _ _)) h
  | cons_cons name hrest ih =>
    rw [firstRepeated?] at h ⊢
    split at h
    · cases h
    · rename_i hnew
      rw [if_neg fun hmem => hnew (hseen hmem)]
      exact ih (List.cons_subset_cons _ hseen) h

end RunPlan

namespace Arguments

variable {a : Arguments} {files : FileTree} {workspace : String} {number : Nat}

/-- The arguments without one of their modules. -/
def without (a : Arguments) (number : Nat) : Arguments :=
  { a with files := a.files.eraseIdx number }

theorem configuration_without (a : Arguments) (files : FileTree) (workspace : String)
    (number : Nat) :
    (a.without number).configuration files workspace = a.configuration files workspace := rfl

/-- **The plan without a module** is that of the arguments without it, if they do not leave it to
the modules which of them the program starts with. -/
theorem plan_without {c : Configuration} {p : RunPlan}
    (hconfiguration : a.configuration files workspace = .ok c) (hentry : c.entry.isSome)
    (hplan : a.plan files workspace = .ok p) :
    (a.without number).plan files workspace = .ok (p.without number) := by
  obtain ⟨entry, hentry⟩ := Option.isSome_iff_exists.1 hentry
  rw [plan, hconfiguration] at hplan
  rw [plan, configuration_without, hconfiguration]
  unfold RunPlan.ofArguments at hplan ⊢
  dsimp only at hplan ⊢
  rw [hentry] at hplan ⊢
  cases hnames : RunPlan.firstRepeated? []
      ((a.files.map (Location.below workspace)).map Job.outputName) with
  | some name =>
    rw [hnames] at hplan
    cases hplan
  | none =>
    have hothers : RunPlan.firstRepeated? []
        (((a.without number).files.map (Location.below workspace)).map Job.outputName) = none :=
      RunPlan.firstRepeated?_sublist (List.Subset.refl _)
        (((List.eraseIdx_sublist ..).map _).map _) hnames
    rw [hnames] at hplan
    rw [hothers]
    obtain rfl := Except.ok.inj hplan
    dsimp only [RunPlan.without, without]
    rw [RunPlan.jobs_of_names, RunPlan.jobs_of_names, List.eraseIdx_map]
    rfl

/-- **The run without a broken module** ends as the run with it does. -/
theorem runCut_aside {p : RunPlan} (hplan : a.plan files workspace = .ok p)
    (cutting : Cutting p.setting) {order : List Nat}
    (hdone : ((p.team cutting files).run order).IsDone) {name : String}
    (hname : a.files[number]? = some name) {e : JobError}
    (hbroken : Job.failure?
      ((p.team cutting files).run (Team.early number order)).bench.files
      (Location.below workspace name) = some e) :
    let others := Team.others number order
    let all := p.runCut cutting files order
    let rest := (p.without number).runCut cutting files others
    (((p.without number).team cutting files).run others).IsDone ∧
      rest.files = all.files ∧ rest.result = all.result.map (·.without number) ∧
      ∀ report, all.result = .ok report →
        report.modules.length = a.files.length ∧
          report.modules[number]? = some ⟨name, .error e⟩ := by
  have hjobs := jobs_plan hplan
  have hjob : p.jobs[number]? = some ⟨name, Location.below workspace name, .waiting⟩ := by
    rw [hjobs, List.getElem?_map, hname, Option.map_some]
  have hlength : p.jobs.length = a.files.length := by rw [hjobs, List.length_map]
  rw [← hlength]
  exact RunPlan.runCut_without cutting hjob hbroken hdone

/-- **A broken module does not disturb the others.** Say that the settings of a run name the
module that the program starts with, and that jobs that run at the same time make their accesses
in some order, in which all of them end. If a module cannot be read or cannot be parsed when its
job comes to it, then without it there is a run with the same settings; and if the others make
their accesses in the same order, that run ends with the same files, whatever they are for, and
in the same way. Its report tells the same of the others and of the assets, and of the broken
module there is one report, of the error. -/
theorem broken_module_aside {c : Configuration} {p : RunPlan}
    (hconfiguration : a.configuration files workspace = .ok c) (hentry : c.entry.isSome)
    (hplan : a.plan files workspace = .ok p) (cutting : Cutting p.setting) {order : List Nat}
    (hdone : ((p.team cutting files).run order).IsDone) {name : String}
    (hname : a.files[number]? = some name) {e : JobError}
    (hbroken : Job.failure?
      ((p.team cutting files).run (Team.early number order)).bench.files
      (Location.below workspace name) = some e) :
    let others := Team.others number order
    let all := p.runCut cutting files order
    let rest := (p.without number).runCut cutting files others
    (a.without number).plan files workspace = .ok (p.without number) ∧
      (((p.without number).team cutting files).run others).IsDone ∧
      rest.files = all.files ∧
      rest.result = all.result.map (·.without number) ∧
      ∀ report, all.result = .ok report →
        report.modules.length = a.files.length ∧
          report.modules[number]? = some ⟨name, .error e⟩ :=
  ⟨plan_without hconfiguration hentry hplan, runCut_aside hplan cutting hdone hname hbroken⟩

/-- **In the program's own run**, where a job takes its steps one by one and each is one access, a
broken module does not disturb the others: if all jobs finish, the run without the module, in
which the others take their steps in the same order, ends with the same files and in the same
way. -/
theorem broken_module_in_run {c : Configuration} {p : RunPlan}
    (hconfiguration : a.configuration files workspace = .ok c) (hentry : c.entry.isSome)
    (hplan : a.plan files workspace = .ok p) {order : List Nat}
    (hdone : ∀ job ∈ ((p.start files).run p.setting order).jobs,
      ∃ result, job.stage = .finished result) {name : String}
    (hname : a.files[number]? = some name) {e : JobError}
    (hbroken : Job.failure?
      ((p.start files).run p.setting (Team.early number order)).bench.files
      (Location.below workspace name) = some e) :
    let all := p.runIn files order
    let rest := (p.without number).runIn files (Team.others number order)
    (a.without number).plan files workspace = .ok (p.without number) ∧
      rest.files = all.files ∧
      rest.result = all.result.map (·.without number) ∧
      ∀ report, all.result = .ok report →
        report.modules.length = a.files.length ∧
          report.modules[number]? = some ⟨name, .error e⟩ := by
  have hwait := waiting_of_plan hplan
  have hothers : ∀ job ∈ (p.without number).jobs, job.stage = .waiting :=
    fun job hjob => hwait job (List.mem_of_mem_eraseIdx hjob)
  -- activities that are cut nowhere take the steps of the jobs
  have hteam (order : List Nat) : (p.team (.whole p.setting) files).run order =
      ((p.start files).run p.setting order).team p.setting := by
    rw [RunPlan.team_whole hwait, Progress.team_run]
  have hended : ((p.team (.whole p.setting) files).run order).IsDone := by
    rw [hteam]
    intro activity hactivity
    obtain ⟨job, hjob, rfl⟩ := List.mem_map.1 hactivity
    obtain ⟨result, hresult⟩ := hdone job hjob
    rw [Job.activity, hresult]
    exact ⟨result, rfl⟩
  have hfailure : Job.failure?
      ((p.team (.whole p.setting) files).run (Team.early number order)).bench.files
      (Location.below workspace name) = some e := by
    rw [hteam]
    exact hbroken
  obtain ⟨-, hfiles, hresult, hreport⟩ :=
    runCut_aside hplan (.whole p.setting) hended hname hfailure
  have hall : p.runCut (.whole p.setting) files order = p.runIn files order :=
    RunPlan.runCut_whole hwait
  have hrest : (p.without number).runCut (.whole p.setting) files (Team.others number order) =
      (p.without number).runIn files (Team.others number order) :=
    RunPlan.runCut_whole hothers
  rw [hall] at hfiles hresult hreport
  refine ⟨plan_without hconfiguration hentry hplan, ?_, ?_, hreport⟩
  · exact (congrArg Finished.files hrest).symm.trans hfiles
  · exact (congrArg Finished.result hrest).symm.trans hresult

/-! ### A module that ends too early -/

/-- An addon that the program starts with, and another module. -/
def twoModules : Arguments :=
  { Arguments.empty with files := ["a.node", "b.js"], entry := some "a.node" }

/-- The other module ends too early. -/
def besideBroken : FileTree :=
  ⟨.directory [("p", .directory
    [("a.node", .file "A".toUTF8 0o644), ("b.js", .file "x(".toUTF8 0o644)])]⟩

/-- The settings of the two modules. -/
def twoSettings : Configuration :=
  Configuration.default.withArguments twoModules

/-- Their plan. -/
def twoPlanned : RunPlan where
  setting := ⟨{ Build.ofOptions twoSettings.options with entryId := some "/p/a.node" }, "/p/dist"⟩
  jobs := [⟨"a.node", "/p/a.node", .waiting⟩, ⟨"b.js", "/p/b.js", .waiting⟩]
  cacheDir := "/p/.relocate-cache"

/-- The second job comes in between: when the addon has its name, and before it is sent. -/
def comingBetween : List Nat :=
  [0, 0, 0, 1, 0, 0, 1, 0, 0, 0, 0]

theorem plan_twoModules :
    twoModules.configuration besideBroken "/p" = .ok twoSettings ∧
      twoModules.plan besideBroken "/p" = .ok twoPlanned := by
  have hconfiguration : twoModules.configuration besideBroken "/p" = .ok twoSettings := by
    decide +kernel
  have hnames : RunPlan.firstRepeated? []
      ((twoModules.files.map (Location.below "/p")).map Job.outputName) = none := by
    decide +kernel
  refine ⟨hconfiguration, ?_⟩
  rw [plan, hconfiguration]
  unfold RunPlan.ofArguments
  dsimp only
  rw [hnames]
  rfl

/-- All jobs end, and the second with an error. -/
theorem comingBetween_ends :
    let t := twoPlanned.team (.fine _) besideBroken
    (t.run comingBetween).IsDone ∧
      Job.failure? (t.run (Team.early 1 comingBetween)).bench.files
        (Location.below "/p" "b.js") = some (.refused (some ⟨0, 2⟩)) ∧
      RunPlan.reported (twoPlanned.runCut (.fine _) besideBroken comingBetween) =
        some ([some "/p/dist/a.node.js", none], [.file "a.node" 1 (some 0o100644)]) := by
  decide +kernel

/-- The addon is written as it is without the other module. -/
theorem broken_module_aside_between :
    let all := twoPlanned.runCut (.fine _) besideBroken comingBetween
    let rest := (twoPlanned.without 1).runCut (.fine _) besideBroken
      (Team.others 1 comingBetween)
    RunPlan.reported all =
        some ([some "/p/dist/a.node.js", none], [.file "a.node" 1 (some 0o100644)]) ∧
      rest.files = all.files ∧ rest.result = all.result.map (·.without 1) := by
  intro all rest
  obtain ⟨hconfiguration, hplan⟩ := plan_twoModules
  obtain ⟨hdone, hbroken, hreported⟩ := comingBetween_ends
  have hname : twoModules.files[1]? = some "b.js" := rfl
  obtain ⟨-, -, hfiles, hresult, -⟩ :=
    broken_module_aside hconfiguration rfl hplan (.fine _) hdone hname hbroken
  exact ⟨hreported, hfiles, hresult⟩

end Arguments

end ModuleAssets
