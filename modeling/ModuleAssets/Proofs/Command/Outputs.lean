import ModuleAssets.Proofs.Command.Parcels
/-!
# Outputs — what a run delivers, and what becomes of it

A run delivers parcels to the output directory: the modules while its jobs take their
steps, then the assets, then the links (`RunPlan.parcels`). Every output that is reported
was delivered. It is still there in the end, unless a later parcel, or the cache, went to
its place or took away a link (`RunPlan.outputs_stay`). The modules of a plan have different
names, so they do not take each other's places. Nothing keeps assets from that: their names
are not compared with those of modules (`output_replaced`).
-/

namespace ModuleAssets

/-! ## Plans -/

namespace RunPlan

/-- Each module has its job. -/
theorem jobs_of_names (names : List String) (place : String → String) :
    (names.zip (names.map place)).map (fun (name, path) => Job.mk name path .waiting) =
      names.map fun name => ⟨name, place name, .waiting⟩ := by
  induction names with
  | nil => rfl
  | cons name rest ih => rw [List.map_cons, List.zip_cons_cons, List.map_cons, List.map_cons, ih]

/-- Names of which none is repeated differ from each other and from those before. -/
theorem nodup_of_firstRepeated? {seen names : List String} (h : firstRepeated? seen names = none) :
    names.Nodup ∧ ∀ name ∈ names, name ∉ seen := by
  induction names generalizing seen with
  | nil => exact ⟨List.nodup_nil, fun _ => nofun⟩
  | cons name rest ih =>
    rw [firstRepeated?] at h
    split at h
    · cases h
    · rename_i hnew
      obtain ⟨hrest, hseen⟩ := ih h
      refine ⟨List.nodup_cons.2 ⟨fun hmem => hseen name hmem List.mem_cons_self, hrest⟩,
        fun other hother hmem => ?_⟩
      obtain rfl | hother := List.mem_cons.1 hother
      · exact hnew hmem
      · exact hseen other hother (List.mem_cons_of_mem _ hmem)

end RunPlan

namespace Arguments

variable {a : Arguments} {files : FileTree} {workspace : String} {p : RunPlan}

/-- The jobs of a plan are those of the modules, in their order. -/
theorem jobs_plan (hplan : a.plan files workspace = .ok p) :
    p.jobs = a.files.map fun name => ⟨name, Location.below workspace name, .waiting⟩ := by
  rw [plan] at hplan
  split at hplan
  · cases hplan
  · unfold RunPlan.ofArguments at hplan
    dsimp only at hplan
    split at hplan
    · cases hplan
    · rw [← Except.ok.inj hplan]
      exact RunPlan.jobs_of_names a.files (Location.below workspace)

/-- The jobs of a plan wait. -/
theorem waiting_of_plan (hplan : a.plan files workspace = .ok p) :
    ∀ job ∈ p.jobs, job.stage = .waiting := by
  intro job hjob
  rw [jobs_plan hplan] at hjob
  obtain ⟨name, -, rfl⟩ := List.mem_map.1 hjob
  rfl

/-- **The modules of a plan** have different outputs. -/
theorem nodup_outputNames (hplan : a.plan files workspace = .ok p) :
    (p.start files).outputNames.Nodup := by
  have hnames : (p.start files).outputNames =
      (a.files.map (Location.below workspace)).map Job.outputName := by
    have hjobs : (p.start files).jobs = p.jobs := rfl
    rw [Progress.outputNames, hjobs, jobs_plan hplan, List.map_map, List.map_map]
    rfl
  rw [hnames]
  rw [plan] at hplan
  split at hplan
  · cases hplan
  · unfold RunPlan.ofArguments at hplan
    dsimp only at hplan
    split at hplan
    · cases hplan
    · rename_i hrepeated
      exact (RunPlan.nodup_of_firstRepeated? hrepeated).1

end Arguments

/-! ## The cache -/

namespace Cache

/-- The places that a cache in a directory puts a text at: first beside its file, and then
there. -/
def places (directory : String) (files : FileTree) (key text : String) : List (List String) :=
  let file := stem directory key ++ ".json"
  let draft := file ++ ".tmp"
  match files.createDirectory directory with
  | .error _ => []
  | .ok files =>
    match files.touch (Location.below directory ".lock") with
    | .error _ => []
    | .ok files =>
      match files.write draft text.toUTF8 with
      | .error _ => []
      | .ok written =>
        (files.placeOf? true draft).toList ++
          ((written.placeOf? false draft).toList ++ (written.placeOf? false file).toList)

/-- **A text that is stored** concerns these places. -/
theorem stays_writeFile (directory : String) (files : FileTree) (key text : String) :
    FileTree.Stays (places directory files key text) files
      (writeFile directory files key text).kept := by
  unfold places writeFile
  generalize stem directory key ++ ".json" = file
  dsimp only
  generalize file ++ ".tmp" = draft
  cases hdirectory : files.createDirectory directory with
  | error e => exact .refl files
  | ok made =>
    have hmade := FileTree.stays_createDirectory hdirectory
    dsimp only
    cases htouch : made.touch (Location.below directory ".lock") with
    | error e => exact hmade
    | ok locked =>
      have hlocked := hmade.trans (FileTree.stays_touch htouch)
      dsimp only
      cases hwrite : locked.write draft text.toUTF8 with
      | error e => exact hlocked
      | ok written =>
        have hwritten := hlocked.trans (FileTree.stays_write hwrite)
        dsimp only
        cases hrename : written.rename draft file with
        | error e => exact hwritten.mono (List.subset_append_left _ _)
        | ok renamed =>
          refine hwritten.trans (FileTree.stays_rename hrename fun entries hentry => ?_)
          -- what was just written is a file
          obtain ⟨place, mode, -, harrival, hat⟩ := FileTree.write_arrives hwrite
          have htarget := FileTree.target_of_entry hentry (Node.not_isLink_directory entries)
          rw [FileTree.target, FileTree.node, harrival] at htarget
          dsimp only at htarget
          rw [hat] at htarget
          cases htarget

end Cache

/-! ## Runs -/

/-- What a report tells of an asset. -/
def AssetReport.Tells (p : RunPlan) (parcel : Parcel) : AssetReport → Prop
  | .file name bytes mode =>
    ∃ content, parcel = .file (p.assetPath name) content mode ∧ content.size = bytes
  | .link name target => parcel = .link (p.assetPath name) target

namespace RunPlan

variable {p : RunPlan} {files : FileTree} {order : List Nat} {report : Report}

/-- The assets after all jobs: files, and then links. -/
def assetParcels (p : RunPlan) (output : Output) : List Parcel :=
  (output.emitted.map fun (name, content) =>
      .file (p.assetPath name) content (output.registry.permissions? name)) ++
    output.registry.symlinks.map fun (name, target) => .link (p.assetPath name) target

/-- The jobs and what they share after their steps. -/
def worked (p : RunPlan) (files : FileTree) (order : List Nat) : Progress :=
  (p.start files).run p.setting order

/-- All that a run delivers. -/
def parcels (p : RunPlan) (files : FileTree) (order : List Nat) : List Parcel :=
  (p.start files).parcels p.setting order ++ p.assetParcels (p.worked files order).bench.output

/-- The places that the cache uses in the end. -/
def cachePlaces (p : RunPlan) (files : FileTree) (order : List Nat) : List (List String) :=
  Cache.places p.cacheDir (Parcel.deliverAll (p.parcels files order) files)
    (Registry.cacheKey (p.setting.build.entryId.getD ""))
    (p.worked files order).bench.output.registry.state.compact

theorem writeFiles_eq (p : RunPlan) (registry : Registry) (emitted : List (String × ByteArray))
    (files : FileTree) :
    p.writeFiles registry emitted files =
      Parcel.deliverEach (emitted.map fun (name, content) =>
        .file (p.assetPath name) content (registry.permissions? name)) ⟨files, none⟩ := by
  rw [Parcel.deliverEach, List.foldl_map]
  rfl

theorem writeLinks_eq (p : RunPlan) (symlinks : List (String × String)) (files : FileTree) :
    p.writeLinks symlinks files =
      Parcel.deliverEach (symlinks.map fun (name, target) => .link (p.assetPath name) target)
        ⟨files, none⟩ := by
  rw [Parcel.deliverEach, List.foldl_map]
  rfl

/-- Links come after files. -/
theorem written_eq (p : RunPlan) (output : Output) (files : FileTree) :
    (p.writeFiles output.registry output.emitted files).andThen
        (p.writeLinks output.registry.symlinks) =
      Parcel.deliverEach (p.assetParcels output) ⟨files, none⟩ := by
  rw [writeFiles_eq, funext (p.writeLinks_eq output.registry.symlinks),
    Parcel.andThen_deliverEach, assetParcels, Parcel.deliverEach_append]

/-- **What a run with a report leaves**: all that it delivers, and what the cache stores. -/
theorem runIn_ok (h : (p.runIn files order).result = .ok report) :
    let output := (p.worked files order).bench.output
    report.modules = (p.worked files order).jobs.filterMap moduleReport? ∧
      report.assets = assetReports output ∧
      (∀ parcel ∈ p.assetParcels output, Parcel.Delivers (p.parcels files order) files parcel) ∧
      FileTree.Stays (p.cachePlaces files order)
        (Parcel.deliverAll (p.parcels files order) files) (p.runIn files order).files := by
  intro output
  unfold runIn at h ⊢
  change (p.finish (p.worked files order)).result = _ at h
  change _ ∧ _ ∧ _ ∧ FileTree.Stays _ _ (p.finish (p.worked files order)).files
  unfold finish at h ⊢
  dsimp only at h ⊢
  rw [written_eq] at h ⊢
  cases hfailure : (Parcel.deliverEach (p.assetParcels (p.worked files order).bench.output)
      ⟨(p.worked files order).bench.files, none⟩).failure with
  | some e =>
    rw [hfailure] at h
    cases h
  | none =>
    rw [hfailure] at h
    obtain rfl := Except.ok.inj h
    obtain ⟨hfiles, hdelivers⟩ := Parcel.deliverEach_done hfailure
    have hworked : (p.worked files order).bench.files =
        Parcel.deliverAll ((p.start files).parcels p.setting order) files :=
      Progress.files_run p.setting (p.start files) order
    rw [hworked] at hfiles hdelivers
    refine ⟨rfl, rfl, fun parcel hparcel => (hdelivers parcel hparcel).after, ?_⟩
    dsimp only
    rw [hworked, hfiles, ← Parcel.deliverAll_append]
    exact Cache.stays_writeFile p.cacheDir _ _ _

/-- **What comes after some parcels** concerns the places of those behind, and of the cache. -/
theorem stays_behind (h : (p.runIn files order).result = .ok report) {before behind : List Parcel}
    (hsplit : p.parcels files order = before ++ behind) :
    FileTree.Stays
      (Parcel.places behind (Parcel.deliverAll before files) ++ p.cachePlaces files order)
      (Parcel.deliverAll before files) (p.runIn files order).files := by
  obtain ⟨-, -, -, hstays⟩ := runIn_ok h
  have hbehind := Parcel.stays_deliverAll behind (Parcel.deliverAll before files)
  rw [← Parcel.deliverAll_append, ← hsplit] at hbehind
  exact hbehind.trans hstays

/-- **A parcel that is spared** is there in the end. -/
theorem isAt_of_spared (h : (p.runIn files order).result = .ok report) {early late : List Parcel}
    {parcel : Parcel} (hsplit : p.parcels files order = early ++ parcel :: late)
    (hdone : (parcel.deliver (Parcel.deliverAll early files)).failure = none)
    (hspared : parcel.Spared (parcel.deliver (Parcel.deliverAll early files)).files
      (Parcel.places late (parcel.deliver (Parcel.deliverAll early files)).files ++
        p.cachePlaces files order) (p.runIn files order).files) :
    parcel.IsAt (p.runIn files order).files := by
  have hbefore : Parcel.deliverAll (early ++ [parcel]) files =
      (parcel.deliver (Parcel.deliverAll early files)).files := Parcel.deliverAll_append ..
  have hstays := stays_behind h (hsplit.trans (List.append_cons early parcel late))
  rw [hbefore] at hstays
  exact Parcel.isAt_of_stays hdone hstays hspared

/-- **The modules of a plan spare each other**, unless a link stands at the path of one of them
after all jobs. -/
theorem spared_module {a : Arguments} {workspace : String} (hplan : a.plan files workspace = .ok p)
    (hlinks : ∀ job ∈ p.jobs, ∀ text, (p.worked files order).bench.files.entry
      (Location.below p.setting.outDir (Job.outputName job.path)) ≠ .ok (.link text))
    (h : (p.runIn files order).result = .ok report) {early late : List Parcel} {parcel : Parcel}
    (hsplit : (p.start files).parcels p.setting order = early ++ parcel :: late)
    (hdone : (parcel.deliver (Parcel.deliverAll early files)).failure = none)
    (hspared : parcel.Spared (parcel.deliver (Parcel.deliverAll early files)).files
      (Parcel.places (p.assetParcels (p.worked files order).bench.output)
        (p.worked files order).bench.files ++ p.cachePlaces files order)
      (p.runIn files order).files) :
    parcel.Spared (parcel.deliver (Parcel.deliverAll early files)).files
      (Parcel.places (late ++ p.assetParcels (p.worked files order).bench.output)
        (parcel.deliver (Parcel.deliverAll early files)).files ++ p.cachePlaces files order)
      (p.runIn files order).files := by
  obtain ⟨hplaces, hkept⟩ := hspared
  have hworked : (p.worked files order).bench.files =
      Parcel.deliverAll ((p.start files).parcels p.setting order) files :=
    Progress.files_run p.setting (p.start files) order
  have hlast : (p.worked files order).bench.files =
      Parcel.deliverAll late (parcel.deliver (Parcel.deliverAll early files)).files := by
    rw [hworked, hsplit, Parcel.deliverAll_append]
    rfl
  have hnames : ∀ name ∈ (p.start files).outputNames, ∀ text,
      ((p.start files).run p.setting order).bench.files.entry
        (Location.below p.setting.outDir name) ≠ .ok (.link text) := by
    intro name hname
    obtain ⟨job, hjob, rfl⟩ := List.mem_map.1 hname
    exact hlinks job hjob
  rw [Parcel.places_append, ← hlast, List.append_assoc]
  refine ⟨fun place hplace hmem => ?_, fun place hmem text hlink => ?_⟩
  · obtain hmem | hmem := List.mem_append.1 hmem
    · exact Progress.placed_apart (p := p.start files) (Arguments.waiting_of_plan hplan)
        (Arguments.nodup_outputNames hplan) hnames hsplit hdone hplace hmem
    · exact hplaces place hplace hmem
  · by_cases hlater : place ∈ Parcel.places (p.assetParcels (p.worked files order).bench.output)
        (p.worked files order).bench.files ++ p.cachePlaces files order
    · exact hkept place hlater text hlink
    · -- while jobs work all links stay, and what comes then is put elsewhere
      have hevolves := Parcel.evolves_deliverAll (fun q hq => Progress.isModule_of_mem
        (hsplit ▸ List.mem_append_right early (List.mem_cons_of_mem _ hq)))
        (parcel.deliver (Parcel.deliverAll early files)).files
      rw [← hlast] at hevolves
      have hparcels : p.parcels files order = (p.start files).parcels p.setting order ++
          p.assetParcels (p.worked files order).bench.output := rfl
      have hstays := stays_behind h hparcels
      rw [← hworked] at hstays
      exact Node.look_eq_link.1
        (hstays.others hlater (hevolves.keeps.links place text (Node.look_eq_link.2 hlink)))

/-- **Outputs stay.** In a run that gives a report, every module that is reported without an
error was relocated from what was read, and its code was delivered to the path that is told
of; and every asset that is reported was delivered. Whatever was delivered is still at its
path in the end if nothing that came later, and not the cache, was put at its place or took
away a link. Of the modules of a plan for some arguments none is put at the place of another,
unless a link stands at the path of one of them after all jobs; so they are still there if no
asset, and not the cache, comes to their places or takes away a link. -/
theorem outputs_stay (hwait : ∀ job ∈ p.jobs, job.stage = .waiting)
    (h : (p.runIn files order).result = .ok report) :
    let parcels := p.parcels files order
    (∀ m ∈ report.modules, ∀ written, m.result = .ok written →
      ∃ job ∈ p.jobs, job.name = m.name ∧
        written.path = Location.below p.setting.outDir (Job.outputName job.path) ∧
        ∃ relocated, (p.start files).Relocates p.setting order job.path relocated ∧
          Parcel.Delivers parcels files (.file written.path relocated.code.toUTF8 none)) ∧
    (∀ asset ∈ report.assets, ∃ parcel, asset.Tells p parcel ∧
      Parcel.Delivers parcels files parcel) ∧
    (∀ early parcel late, parcels = early ++ parcel :: late →
      let done := parcel.deliver (Parcel.deliverAll early files)
      done.failure = none →
        parcel.Spared done.files (Parcel.places late done.files ++ p.cachePlaces files order)
          (p.runIn files order).files →
        parcel.IsAt (p.runIn files order).files) ∧
    ∀ (a : Arguments) (workspace : String), a.plan files workspace = .ok p →
      let worked := p.worked files order
      (∀ job ∈ p.jobs, ∀ text, worked.bench.files.entry
        (Location.below p.setting.outDir (Job.outputName job.path)) ≠ .ok (.link text)) →
      ∀ early parcel late, (p.start files).parcels p.setting order = early ++ parcel :: late →
        let done := parcel.deliver (Parcel.deliverAll early files)
        done.failure = none →
          parcel.Spared done.files
            (Parcel.places (p.assetParcels worked.bench.output) worked.bench.files ++
              p.cachePlaces files order) (p.runIn files order).files →
          parcel.IsAt (p.runIn files order).files := by
  intro parcels
  obtain ⟨hmodules, hassets, hdelivers, -⟩ := runIn_ok h
  refine ⟨fun m hm written hwritten => ?_, fun asset hasset => ?_, ?_, ?_⟩
  · rw [hmodules, List.mem_filterMap] at hm
    obtain ⟨job, hjob, hreport⟩ := hm
    have htraced : Progress.Traced p.setting (p.start files) order job :=
      Progress.traced_run hwait order job hjob
    have hmodules := Progress.modules_run p.setting (p.start files) order
    have hmodule : (job.name, job.path) ∈ p.jobs.map fun job => (job.name, job.path) :=
      hmodules ▸ List.mem_map.2 ⟨job, hjob, rfl⟩
    obtain ⟨first, hfirst, hsame⟩ := List.mem_map.1 hmodule
    obtain ⟨hname, hpath⟩ := Prod.mk.inj hsame
    obtain ⟨name, path, stage⟩ := job
    dsimp only at hname hpath
    cases stage with
    | waiting => cases hreport
    | read content => cases hreport
    | relocated r => cases hreport
    | finished result =>
      obtain rfl := Option.some.inj hreport
      dsimp only at hwritten
      subst hwritten
      rw [Progress.Traced] at htraced
      dsimp only at htraced
      obtain ⟨hwhere, relocated, hrelocates, hdone⟩ := htraced
      rw [← hpath] at hwhere hrelocates
      exact ⟨first, hfirst, hname, hwhere, relocated, hrelocates, hdone.append _⟩
  · rw [hassets, assetReports, List.mem_append, List.mem_map, List.mem_map] at hasset
    obtain ⟨⟨name, content⟩, hmem, rfl⟩ | ⟨⟨name, target⟩, hmem, rfl⟩ := hasset
    · exact ⟨_, ⟨content, rfl, rfl⟩, hdelivers _ (List.mem_append_left _
        (List.mem_map.2 ⟨(name, content), hmem, rfl⟩))⟩
    · exact ⟨_, rfl, hdelivers _ (List.mem_append_right _
        (List.mem_map.2 ⟨(name, target), hmem, rfl⟩))⟩
  · intro early parcel late hsplit done hdone hspared
    exact isAt_of_spared h hsplit hdone hspared
  · intro a workspace hplan worked hlinks early parcel late hsplit done hdone hspared
    have hparcels : p.parcels files order = early ++ parcel ::
        (late ++ p.assetParcels (p.worked files order).bench.output) := by
      rw [RunPlan.parcels, hsplit, List.append_assoc, List.cons_append]
    exact isAt_of_spared h hparcels hdone (spared_module hplan hlinks h hsplit hdone hspared)

/-! ## An asset in place of a module -/

/-- A module that refers to an asset of its own name. -/
def namesakes (asset : String) : FileTree :=
  let source := "x(__dirname + '/data/" ++ asset ++ "')"
  ⟨.directory [("p", .directory
    [("data", .directory [("b.txt", .file "B".toUTF8 0o644), ("index.js", .file "D".toUTF8 0o644)]),
      ("index.js", .file source.toUTF8 0o644)])]⟩

/-- The plan for one module, without a cache, since a file is in its place. -/
def single : RunPlan where
  setting := ⟨{ Build.ofOptions default with entryId := some "/p/index.js" }, "/p/dist"⟩
  jobs := [⟨"index.js", "/p/index.js", .waiting⟩]
  cacheDir := "/p/index.js"

/-- What is reported: where modules are written, and assets. -/
def reported (finished : Finished) : Option (List (Option String) × List AssetReport) :=
  finished.result.toOption.map fun report =>
    (report.modules.map fun m => m.result.toOption.map Written.path, report.assets)

/-- **The asset takes the place of the module**: the report tells of both, but only the
asset is there. -/
theorem output_replaced :
    reported (single.run (namesakes "index.js")) =
        some ([some "/p/dist/index.js"], [.file "index.js" 1 (some 0o100644)]) ∧
      ((single.run (namesakes "index.js")).files.readText "/p/dist/index.js").toOption =
        some "D" := by
  decide +kernel

/-- What the module is written as when its asset has another name. -/
def moduleParcel : Parcel :=
  .file "/p/dist/index.js" "x(__dirname + '/b.txt')".toUTF8 none

/-- What the asset is written as. -/
def assetParcel : Parcel :=
  .file "/p/dist/b.txt" "B".toUTF8 (some 0o100644)

/-- The two go to two places, and the cache stores nothing. -/
theorem single_apart :
    let files := namesakes "b.txt"
    let order := Progress.inOrder 1
    let after := moduleParcel.deliver files
    single.parcels files order = [moduleParcel, assetParcel] ∧
      (single.runIn files order).result.isOk = true ∧
      single.cachePlaces files order = [] ∧
      after.failure = none ∧
      after.files.placeOf? true "/p/dist/index.js" = some ["p", "dist", "index.js"] ∧
      Parcel.places [assetParcel] after.files = [["p", "dist", "b.txt"]] ∧
      (after.files.root.at? ["p", "dist", "b.txt"]).isNone = true := by
  decide +kernel

/-- An asset of another name goes to another place, and the module stays. -/
theorem outputs_stay_apart : moduleParcel.IsAt (single.run (namesakes "b.txt")).files := by
  obtain ⟨hparcels, hok, hcache, hdone, hplace, hlater, hfree⟩ := single_apart
  have hwait : ∀ job ∈ single.jobs, job.stage = .waiting := by
    intro job hjob
    obtain rfl := List.mem_singleton.1 hjob
    rfl
  cases hresult : (single.runIn (namesakes "b.txt") (Progress.inOrder 1)).result with
  | error e =>
    rw [hresult] at hok
    cases hok
  | ok report =>
    obtain ⟨-, -, hstay, -⟩ := outputs_stay hwait hresult
    have hplaces : Parcel.places [assetParcel] (moduleParcel.deliver (namesakes "b.txt")).files ++
        single.cachePlaces (namesakes "b.txt") (Progress.inOrder 1) = [["p", "dist", "b.txt"]] := by
      rw [hlater, hcache, List.append_nil]
    refine hstay [] moduleParcel [assetParcel] hparcels hdone ?_
    change moduleParcel.Spared (moduleParcel.deliver (namesakes "b.txt")).files _ _
    rw [Parcel.deliverAll, List.foldl_nil, hplaces]
    refine ⟨fun place h => ?_, fun place hmem text hlink => ?_⟩
    · obtain rfl := Option.some.inj (hplace.symm.trans h)
      decide
    · obtain rfl := List.mem_singleton.1 hmem
      rw [hlink] at hfree
      cases hfree

end RunPlan

end ModuleAssets
