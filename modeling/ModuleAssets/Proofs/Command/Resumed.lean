import ModuleAssets.Proofs.Asset.Resumed
import ModuleAssets.Proofs.Command.Outputs
/-!
# Resumed runs — what a run takes over from an earlier one

A run that takes over tables goes on as a run with an empty cache does: the same modules are
written, the same files sent (`Progress.Resumes.run`). In the end it writes the links of that
run, and besides all links that it took over and recorded nothing of
(`RunPlan.runIn_resumed`). Such a link belongs to nothing that a module refers to
(`RunPlan.link_left_over`).
-/

namespace ModuleAssets

/-! ## Jobs -/

namespace Job

variable {tables : Registry} {bench bench' : Workbench} {w : JobSetting}

/-- A module that was read is there. -/
def IsHeld (files : FileTree) (job : Job) : Prop :=
  ∀ content, job.stage = .read content →
    ∃ content' mode, files.target job.path = .ok (.file content' mode)

theorem evolves_step (w : JobSetting) (bench : Workbench) (job : Job) :
    FileTree.Evolves bench.files (job.step w bench).2.files := by
  rw [files_step]
  unfold parcel?
  split
  · rw [Option.toList, Parcel.deliverAll, List.foldl_cons, List.foldl_nil, Parcel.deliver_module]
    exact FileTree.evolves_deliverFile _ _ bench.files
  · exact .of_stays (.refl _)

/-- After a step that reads a module it is there. -/
theorem isHeld_step (w : JobSetting) (bench : Workbench) (job : Job) :
    (job.step w bench).1.IsHeld (job.step w bench).2.files := by
  obtain ⟨name, path, stage⟩ := job
  cases stage with
  | waiting =>
    rw [step]
    dsimp only
    cases hread : bench.files.read path with
    | error e =>
      intro _ hstage
      cases hstage
    | ok content =>
      intro _ _
      unfold FileTree.read at hread
      split at hread
      · rename_i content' mode htarget
        exact ⟨content', mode, htarget⟩
      · cases hread
      · cases hread
  | read content =>
    intro _ hstage
    rw [step] at hstage
    dsimp only at hstage
    split at hstage
    · cases hstage
    · cases hstage
  | relocated m =>
    intro _ hstage
    cases hstage
  | finished result =>
    intro _ hstage
    cases hstage

/-- **One step of a job** does the same, whatever was taken over. -/
theorem step_resumes (hrules : w.build.specialCases ⊆ SpecialCase.all)
    (hfiles : bench.files = bench'.files) (h : bench.output.Resumes tables bench'.output)
    {job : Job} (hheld : job.IsHeld bench'.files) :
    (job.step w bench).1 = (job.step w bench').1 ∧
      (job.step w bench).2.files = (job.step w bench').2.files ∧
      (job.step w bench).2.output.Resumes tables (job.step w bench').2.output := by
  obtain ⟨name, path, stage⟩ := job
  obtain ⟨files, output⟩ := bench
  obtain ⟨files', output'⟩ := bench'
  obtain rfl : files = files' := hfiles
  cases stage with
  | waiting =>
    rw [step, step]
    dsimp only
    cases files.read path with
    | error e => exact ⟨rfl, rfl, h⟩
    | ok content => exact ⟨rfl, rfl, h⟩
  | read content =>
    obtain ⟨content', mode, htarget⟩ := hheld content rfl
    have hdone : Committed.Resumes tables
        (w.build.relocate files .open_ path content output)
        (w.build.relocate files .open_ path content output') :=
      Output.Resumes.relocate hrules h .open_ htarget content
    rw [step, step]
    dsimp only
    refine ⟨?_, rfl, hdone.output⟩
    rw [hdone.result]
  | relocated m =>
    rw [step, step]
    dsimp only
    exact ⟨rfl, rfl, h⟩
  | finished result => exact ⟨rfl, rfl, h⟩

end Job

/-! ## All jobs -/

namespace Progress

/-- The jobs are as far and the files the same, and what is put out is what a build that
resumed puts out. -/
structure Resumes (tables : Registry) (p p' : Progress) : Prop where
  jobs : p.jobs = p'.jobs
  files : p.bench.files = p'.bench.files
  output : p.bench.output.Resumes tables p'.bench.output
  held : ∀ job ∈ p'.jobs, job.IsHeld p'.bench.files

namespace Resumes

variable {tables : Registry} {p p' : Progress} {w : JobSetting}

/-- **One step.** -/
theorem step (hrules : w.build.specialCases ⊆ SpecialCase.all) (h : p.Resumes tables p')
    (number : Nat) : (p.step w number).Resumes tables (p'.step w number) := by
  unfold Progress.step
  rw [h.jobs]
  cases hnumber : p'.jobs[number]? with
  | none => exact h
  | some job =>
    obtain ⟨hjob, hfiles, houtput⟩ :=
      Job.step_resumes hrules h.files h.output (h.held job (List.mem_of_getElem? hnumber))
    refine ⟨?_, hfiles, houtput, fun other hother => ?_⟩
    · dsimp only
      rw [hjob]
    · dsimp only at hother ⊢
      obtain hsame | rfl := List.mem_or_eq_of_mem_set hother
      · intro content hstage
        obtain ⟨content', mode, htarget⟩ := h.held other hsame content hstage
        exact (Job.evolves_step w p'.bench job).exists_target htarget
      · exact Job.isHeld_step w p'.bench job

/-- **All steps**, in any order. -/
theorem run (hrules : w.build.specialCases ⊆ SpecialCase.all) (h : p.Resumes tables p')
    (order : List Nat) : (p.run w order).Resumes tables (p'.run w order) := by
  induction order generalizing p p' with
  | nil => exact h
  | cons number rest ih => exact ih (h.step hrules number)

/-- The jobs deliver the same. -/
theorem parcels (hrules : w.build.specialCases ⊆ SpecialCase.all) (h : p.Resumes tables p')
    (order : List Nat) : p.parcels w order = p'.parcels w order := by
  induction order generalizing p p' with
  | nil => rfl
  | cons number rest ih => rw [Progress.parcels, Progress.parcels, ih (h.step hrules number), h.jobs]

end Resumes

end Progress

/-! ## Runs -/

/-- The report of a file, given by its name and its content. -/
def AssetReport.ofFile (asset : String × ByteArray) (mode : Option Nat) : AssetReport :=
  .file asset.1 asset.2.size mode

/-- The report of a link, given by its name and its target. -/
def AssetReport.ofLink (link : String × String) : AssetReport :=
  .link link.1 link.2

namespace RunPlan

variable {p : RunPlan} {files : FileTree} {order : List Nat}

/-- The plan with another directory for its cache. -/
def withCache (p : RunPlan) (cacheDir : String) : RunPlan :=
  { p with cacheDir }

/-- Nothing is stored for the entry of the plan. -/
def CacheIsEmpty (p : RunPlan) (files : FileTree) : Prop :=
  p.cache.get files (Registry.cacheKey (p.setting.build.entryId.getD "")) = .ok none

/-- The tables that a run takes over. -/
def takenOver (p : RunPlan) (files : FileTree) : Registry :=
  (p.start files).bench.output.registry

/-- The links that a run takes over and that no module of it needs: with an empty cache it would
record nothing of them. -/
def linksLeftOver (p : RunPlan) (files : FileTree) (order : List Nat) (cacheDir : String) :
    List (String × String) :=
  (p.takenOver files).leftOver ((p.withCache cacheDir).worked files order).bench.output.registry

/-- What is delivered for a file. -/
def fileParcel (p : RunPlan) (asset : String × ByteArray) (mode : Option Nat) : Parcel :=
  .file (p.assetPath asset.1) asset.2 mode

/-- What is delivered for a link. -/
def linkParcel (p : RunPlan) (link : String × String) : Parcel :=
  .link (p.assetPath link.1) link.2

instance (p : RunPlan) (files : FileTree) : Decidable (p.CacheIsEmpty files) :=
  inferInstanceAs (Decidable (p.cache.get files _ = .ok none))

theorem start_of_cacheIsEmpty (h : p.CacheIsEmpty files) :
    p.start files = ⟨p.jobs, files, p.setting.build.start⟩ := by
  have hrestore : p.setting.build.restore p.cache files p.setting.build.start.registry = .ok none := by
    unfold Build.restore Registry.restore
    rw [h]
  unfold start
  dsimp only
  rw [hrestore]

/-- What is taken over is what the stored text says. -/
theorem start_of_stored {text : String} {tables : Registry}
    (hstored : p.cache.get files (Registry.cacheKey (p.setting.build.entryId.getD "")) =
      .ok (some text))
    (htables : (Json.outline? text).bind p.setting.build.start.registry.withState? = some tables) :
    p.start files = ⟨p.jobs, files, { p.setting.build.start with registry := tables }⟩ := by
  have hrestore : p.setting.build.restore p.cache files p.setting.build.start.registry =
      .ok (some tables) := by
    unfold Build.restore Registry.restore
    rw [hstored]
    dsimp only
    rw [htables]
  unfold start
  dsimp only
  rw [hrestore]

/-- What is taken over are tables, and nothing else. -/
theorem takenOver_spec (p : RunPlan) (files : FileTree) :
    (p.takenOver files).SameNames p.setting.build.start.registry ∧
      ((p.takenOver files).symlinks.map (·.1)).Nodup := by
  unfold takenOver start
  dsimp only
  split
  · rename_i taken hrestore
    exact Registry.of_restore hrestore
  · exact ⟨⟨rfl, rfl⟩, List.nodup_nil⟩

/-- **The start.** -/
theorem resumes_start (hwait : ∀ job ∈ p.jobs, job.stage = .waiting) {cacheDir : String}
    (hempty : (p.withCache cacheDir).CacheIsEmpty files) :
    (p.start files).Resumes (p.takenOver files) ((p.withCache cacheDir).start files) := by
  obtain ⟨hnames, hnodup⟩ := p.takenOver_spec files
  rw [start_of_cacheIsEmpty hempty]
  have hnothing (name : String) : p.setting.build.start.registry.records name = false := rfl
  have hregistry : Registry.Resumes (p.takenOver files) (p.takenOver files)
      p.setting.build.start.registry := by
    refine ⟨hnames, fun name => ?_, hnodup, List.nodup_nil, fun hnone => hnone⟩
    rw [hnothing, if_neg Bool.false_ne_true]
  have hoffered : (p.start files).bench.output.offered = p.setting.build.start.offered := by
    rw [start]
  have hemitted : (p.start files).bench.output.emitted = p.setting.build.start.emitted := by
    rw [start]
  refine ⟨rfl, rfl, ⟨hregistry, hoffered, hemitted, fun _ => nofun⟩, fun job hjob content hstage => ?_⟩
  rw [hwait job hjob] at hstage
  cases hstage

/-- Whether a run gives a report depends on the assets that it delivers. -/
theorem result_finish (p : RunPlan) (done : Progress) :
    (p.finish done).result =
      (Parcel.deliverEach (p.assetParcels done.bench.output) ⟨done.bench.files, none⟩).failure.elim
        (.ok ⟨p.setting.outDir, done.jobs.filterMap moduleReport?, assetReports done.bench.output⟩)
        fun e => .error (.notWritten e) := by
  unfold finish
  dsimp only
  rw [written_eq]
  cases (Parcel.deliverEach (p.assetParcels done.bench.output) ⟨done.bench.files, none⟩).failure with
  | some e => rfl
  | none => rfl

theorem report_eq {report : Report} (h : (p.runIn files order).result = .ok report) :
    report = ⟨p.setting.outDir, (p.worked files order).jobs.filterMap moduleReport?,
      assetReports (p.worked files order).bench.output⟩ := by
  rw [runIn, result_finish, ← worked] at h
  cases hfailure : (Parcel.deliverEach (p.assetParcels (p.worked files order).bench.output)
      ⟨(p.worked files order).bench.files, none⟩).failure with
  | some e =>
    rw [hfailure] at h
    cases h
  | none =>
    rw [hfailure] at h
    exact (Except.ok.inj h).symm

/-- **What a run delivers that takes over tables**, compared with a run in which the cache is
empty: all that this one delivers, and the links that are left over from the tables. It reports
the same modules, and as assets besides those of that run just these links. If it takes over no
link, it delivers the same and ends in the same way. -/
theorem runIn_resumed (hrules : p.setting.build.specialCases ⊆ SpecialCase.all)
    (hwait : ∀ job ∈ p.jobs, job.stage = .waiting) {cacheDir : String}
    (hempty : (p.withCache cacheDir).CacheIsEmpty files) :
    let clean := p.withCache cacheDir
    let links := p.linksLeftOver files order cacheDir
    (p.parcels files order).Perm (clean.parcels files order ++ links.map p.linkParcel) ∧
      (∀ report report', (p.runIn files order).result = .ok report →
        (clean.runIn files order).result = .ok report' →
        report.outDir = report'.outDir ∧ report.modules = report'.modules ∧
          report.assets.Perm (report'.assets ++ links.map .ofLink)) ∧
      ((p.takenOver files).symlinks = [] →
        p.parcels files order = clean.parcels files order ∧
          (p.runIn files order).result = (clean.runIn files order).result) := by
  intro clean links
  have hstart := resumes_start hwait hempty
  have hparcels : (p.start files).parcels p.setting order =
      (clean.start files).parcels clean.setting order := hstart.parcels hrules order
  have hworked : (p.worked files order).Resumes (p.takenOver files) (clean.worked files order) :=
    hstart.run hrules order
  have htables := (p.takenOver_spec files).2
  refine ⟨?_, fun report report' h h' => ?_, fun hnone => ?_⟩
  · rw [parcels, parcels, hparcels, List.append_assoc]
    exact (hworked.output.perm_assets p.fileParcel p.linkParcel htables).append_left _
  · rw [report_eq h, report_eq h', hworked.jobs]
    exact ⟨rfl, rfl, hworked.output.perm_assets AssetReport.ofFile AssetReport.ofLink htables⟩
  · have hassets : p.assetParcels (p.worked files order).bench.output =
        clean.assetParcels (clean.worked files order).bench.output :=
      hworked.output.assets_eq p.fileParcel p.linkParcel hnone
    have hreports : assetReports (p.worked files order).bench.output =
        assetReports (clean.worked files order).bench.output :=
      hworked.output.assets_eq AssetReport.ofFile AssetReport.ofLink hnone
    refine ⟨?_, ?_⟩
    · rw [parcels, parcels, hparcels, hassets]
    · rw [runIn, runIn, ← worked, ← worked, result_finish, result_finish, hassets, hreports,
        hworked.files, hworked.jobs]
      rfl

/-! ## A link that is not referred to any more -/

/-- The plan for one module, with a cache. -/
def cached : RunPlan :=
  single.withCache "/p/cache"

/-- The same plan with a cache that nothing is in. -/
def cleared : RunPlan :=
  cached.withCache "/p/empty"

/-- A module that refers to a link beside it. -/
def besideLink : FileTree :=
  let source := "x(__dirname + '/old.txt')"
  ⟨.directory [("p", .directory
    [("a.txt", .file "A".toUTF8 0o644), ("index.js", .file source.toUTF8 0o644),
      ("old.txt", .link "a.txt")])]⟩

/-- What a build of that module hands on. -/
def handedOn : String :=
  let start : Progress := ⟨cached.jobs, besideLink, cached.setting.build.start⟩
  (start.run cached.setting (Progress.inOrder 1)).bench.output.registry.state.compact

/-- Then the link is gone, and the module refers to nothing. -/
def afterEdit : FileTree :=
  let name := "47d83dc04bf1baef87a8c0d6f6e9769a39b9d817fa8d9d5fe3cc2360a84f0ce1.json"
  ⟨.directory [("p", .directory
    [("a.txt", .file "A".toUTF8 0o644),
      ("cache", .directory [(name, .file handedOn.toUTF8 0o644)]),
      ("index.js", .file "f(1)".toUTF8 0o644)])]⟩

/-- The next run takes the link over, and the cleared cache is empty. -/
theorem afterEdit_stale :
    reported (cached.run afterEdit) =
        some ([some "/p/dist/index.js"], [.link "old.txt" "a.txt"]) ∧
      reported (cleared.run afterEdit) = some ([some "/p/dist/index.js"], []) ∧
      cleared.CacheIsEmpty afterEdit ∧
      cached.linksLeftOver afterEdit (Progress.inOrder 1) "/p/empty" =
        [("old.txt", "a.txt")] := by
  have hhanded : handedOn =
      "\x7b\"assetPermissions\":\x7b\x7d,\"assetSymlinks\":\x7b\"old.txt\":\"a.txt\"\x7d\x7d" := by
    decide +kernel
  have hempty : cleared.CacheIsEmpty afterEdit := by decide +kernel
  have hstored : cached.cache.get afterEdit (Registry.cacheKey "/p/index.js") =
      .ok (some handedOn) := by
    rw [afterEdit, hhanded]
    decide +kernel
  have htables : (Json.outline? handedOn).bind cached.setting.build.start.registry.withState? =
      some ⟨[], [], [], [("old.txt", "a.txt")]⟩ := by
    rw [hhanded]
    decide +kernel
  -- Reading a cache takes a hash, so that both starts are worked out once.
  have hcleared := start_of_cacheIsEmpty hempty
  have hcached := start_of_stored hstored htables
  refine ⟨?_, ?_, hempty, ?_⟩
  · rw [run, runIn, hcached]
    decide +kernel
  · rw [run, runIn, hcleared]
    decide +kernel
  · have htaken : cached.takenOver afterEdit = ⟨[], [], [], [("old.txt", "a.txt")]⟩ := by
      rw [takenOver, hcached]
    rw [linksLeftOver, htaken, ← cleared, worked, hcleared]
    decide +kernel

/-- **A link that was taken over is an asset of a build in which nothing refers to it.** With
an empty cache there is no asset. -/
theorem link_left_over :
    reported (cached.run afterEdit) =
        some ([some "/p/dist/index.js"], [.link "old.txt" "a.txt"]) ∧
      reported (cleared.run afterEdit) = some ([some "/p/dist/index.js"], []) :=
  ⟨afterEdit_stale.1, afterEdit_stale.2.1⟩

/-- The run after the edit delivers what a run with an empty cache does, and that link. -/
theorem runIn_resumed_stale :
    cached.setting.build.specialCases ⊆ SpecialCase.all ∧
      (∀ job ∈ cached.jobs, job.stage = .waiting) ∧ cleared.CacheIsEmpty afterEdit ∧
      (cached.parcels afterEdit (Progress.inOrder 1)).Perm
        (cleared.parcels afterEdit (Progress.inOrder 1) ++
          [cached.linkParcel ("old.txt", "a.txt")]) := by
  obtain ⟨-, -, hempty, hlinks⟩ := afterEdit_stale
  have hrules : cached.setting.build.specialCases ⊆ SpecialCase.all := List.Subset.refl _
  have hwait : ∀ job ∈ cached.jobs, job.stage = .waiting := by
    intro job hjob
    obtain rfl := List.mem_singleton.1 hjob
    rfl
  have hdelivered : (cached.parcels afterEdit (Progress.inOrder 1)).Perm
      (cleared.parcels afterEdit (Progress.inOrder 1) ++
        (cached.linksLeftOver afterEdit (Progress.inOrder 1) "/p/empty").map cached.linkParcel) :=
    (runIn_resumed hrules hwait hempty).1
  rw [hlinks] at hdelivered
  exact ⟨hrules, hwait, hempty, hdelivered⟩

end RunPlan

end ModuleAssets
