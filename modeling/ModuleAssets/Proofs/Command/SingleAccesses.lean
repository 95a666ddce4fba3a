import ModuleAssets.Proofs.Command.Accesses
/-!
# Single accesses — a job that is held up wherever it can be

Here a job turns to the files, the registry and the host anew for each thing it needs: it
lists a directory, gives a library its name, looks at a file, records what it is, sends its
content, makes a directory, writes a module. Others may come in between any two of these.
Only the analysis of a module, in which all its assets get their names, is one access. With
nothing in between it all comes to what a job does (`Activity.alone_process`).
-/

namespace ModuleAssets

namespace Activity

/-- Something is put out, and what comes next is told whether that failed. -/
abbrev Sending : Type :=
  (Option TransferError → Activity) → Activity

/-- Alone, an activity does these transfers. -/
def Does (act : FileTree → Output → Transferred) (a : Sending) : Prop :=
  ∀ next bench,
    (a next).alone bench =
      (next (act bench.files bench.output).failure).alone
        { bench with output := (act bench.files bench.output).output }

/-- The registry is changed. -/
def record (change : Registry → Registry) (next : Activity) : Activity :=
  .access (fun bench =>
      { bench with output := { bench.output with registry := change bench.output.registry } })
    fun _ => next

/-- The host gets the content of an asset. -/
def send (host : Host) (name : String) (content : ByteArray) : Sending := fun next =>
  .access (fun bench => { bench with output := (bench.output.emit host name content).output })
    fun bench => next (bench.output.emit host name content).failure

/-- Goes on unless something has failed. -/
def andThen (a a' : Sending) : Sending := fun next =>
  a fun failure =>
    match failure with
    | some e => next (some e)
    | none => a' next

/-- One file is copied: it is looked at, what it is gets recorded, and its content is sent. -/
def transfer (host : Host) (source key : String) : Sending := fun next =>
  .access id fun bench =>
    match bench.files.entry source with
    | .error e => next (some (.unreadable source e.message))
    | .ok (.link text) => record (·.recordSymlink key (linkTarget source text)) (next none)
    | .ok (.file content mode) =>
      record (·.recordPermissions key (Node.fullMode (.file content mode)))
        (send host key content next)
    | .ok (.directory _) => next (some (.unreadable source FileError.isDirectory.message))

/-- Files are copied, each to its key, up to the first failure. -/
def transferAll (host : Host) : List (String × String) → Sending
  | [] => fun next => next none
  | (source, key) :: rest => andThen (transfer host source key) (transferAll host rest)

/-- A file gets its name. -/
def register (source preferred : String) (next : String → Activity) : Activity :=
  .access (fun bench =>
      { bench with
        output :=
          { bench.output with registry := (bench.output.registry.register source preferred).1 } })
    fun bench => next (bench.output.registry.register source preferred).2

/-- A shared library is copied after it has got its name. -/
def transferLibrary (host : Host) (assetBase source preferred : String) : Sending := fun next =>
  register source preferred fun name => transfer host source (assetBase ++ name) next

/-- Shared libraries are copied, up to the first failure. -/
def transferLibraries (host : Host) (assetBase : String) : List (String × String) → Sending
  | [] => fun next => next none
  | (source, preferred) :: rest =>
    andThen (transferLibrary host assetBase source preferred)
      (transferLibraries host assetBase rest)

/-- What is wanted below a path is listed, and then copied. -/
def listed (wanted : String → Bool) (root : String) (copy : List (String × String) → Sending) :
    Sending := fun next =>
  .access id fun bench =>
    match assetsBelow bench.files wanted root with
    | .error e => next (some e)
    | .ok found => copy found next

/-- One task. -/
def runTask (host : Host) (assetBase : String) : AssetTask → Sending
  | .file source name => transfer host source (assetBase ++ name)
  | .directory source name =>
    listed isDirectoryAsset source fun found =>
      transferAll host (found.map fun (path, below) => (path, assetBase ++ name ++ "/" ++ below))
  | .sharedLibraries packageBase =>
    listed isSharedLibrary packageBase (transferLibraries host assetBase)

/-- Tasks in order, up to the first failure. -/
def runTasks (host : Host) (assetBase : String) : List AssetTask → Sending
  | [] => fun next => next none
  | task :: rest => andThen (runTask host assetBase task) (runTasks host assetBase rest)

theorem does_nothing : Does (fun _ o => ⟨o, none⟩) fun next => next none :=
  fun _ _ => rfl

theorem Does.andThen {act act' : FileTree → Output → Transferred} {a a' : Sending}
    (h : Does act a) (h' : Does act' a') :
    Does (fun files o => (act files o).andThen (act' files)) (andThen a a') := by
  intro next bench
  rw [Activity.andThen, h]
  dsimp only [Transferred.andThen]
  cases hfailure : (act bench.files bench.output).failure with
  | some e =>
    dsimp only
    rw [hfailure]
  | none => exact h' next _

/-- **A file.** -/
theorem does_transfer (host : Host) (source key : String) :
    Does (fun files => ModuleAssets.transfer files host source key) (transfer host source key) := by
  intro next bench
  rw [transfer, alone]
  dsimp only [id, ModuleAssets.transfer]
  cases bench.files.entry source with
  | error e => rfl
  | ok node =>
    cases node with
    | file content mode => rfl
    | directory entries => rfl
    | link text => rfl

theorem does_transferAll (host : Host) (wanted : List (String × String)) :
    Does (fun files => ModuleAssets.transferAll files host wanted) (transferAll host wanted) := by
  induction wanted with
  | nil => exact does_nothing
  | cons asset rest ih => exact (does_transfer host asset.1 asset.2).andThen ih

theorem does_transferLibrary (host : Host) (assetBase source preferred : String) :
    Does
      (fun files o =>
        let (registry, name) := o.registry.register source preferred
        ModuleAssets.transfer files host source (assetBase ++ name) { o with registry })
      (transferLibrary host assetBase source preferred) := by
  intro next bench
  rw [transferLibrary, register, alone]
  exact does_transfer host source _ next _

theorem does_transferLibraries (host : Host) (assetBase : String)
    (wanted : List (String × String)) :
    Does (fun files => ModuleAssets.transferLibraries files host assetBase wanted)
      (transferLibraries host assetBase wanted) := by
  induction wanted with
  | nil => exact does_nothing
  | cons asset rest ih =>
    exact (does_transferLibrary host assetBase asset.1 asset.2).andThen ih

theorem does_listed {wanted : String → Bool} {root : String}
    {act : List (String × String) → FileTree → Output → Transferred}
    {copy : List (String × String) → Sending} (h : ∀ found, Does (act found) (copy found)) :
    Does
      (fun files o =>
        match assetsBelow files wanted root with
        | .error e => ⟨o, some e⟩
        | .ok found => act found files o)
      (listed wanted root copy) := by
  intro next bench
  rw [listed, alone]
  dsimp only [id]
  cases assetsBelow bench.files wanted root with
  | error e => rfl
  | ok found => exact h found next bench

/-- **A task.** -/
theorem does_runTask (host : Host) (assetBase : String) (task : AssetTask) :
    Does (fun files => ModuleAssets.runTask files host assetBase task)
      (runTask host assetBase task) := by
  cases task with
  | file source name => exact does_transfer host source (assetBase ++ name)
  | directory source name => exact does_listed fun found => does_transferAll host _
  | sharedLibraries packageBase =>
    exact does_listed fun found => does_transferLibraries host assetBase found

theorem does_runTasks (host : Host) (assetBase : String) (tasks : List AssetTask) :
    Does (fun files => ModuleAssets.runTasks files host assetBase tasks)
      (runTasks host assetBase tasks) := by
  induction tasks with
  | nil => exact does_nothing
  | cons task rest ih => exact (does_runTask host assetBase task).andThen ih

/-! ## Modules -/

/-- The directory for a module is made, and then the module is written. -/
def deliver (w : JobSetting) (path : String) (m : Relocated) : Activity :=
  let place := Location.below w.outDir (Job.outputName path)
  .access (fun bench => { bench with files := (bench.files.makeParent place).files })
    fun bench =>
      match (bench.files.makeParent place).failure with
      | some e => .ended (.error (.notWritten e))
      | none =>
        let written (files : FileTree) : Delivered :=
          .ofChange files place (files.write place m.code.toUTF8)
        .access (fun bench => { bench with files := (written bench.files).files })
          fun bench =>
            .ended ((written bench.files).failure.elim (.ok ⟨place, m.transformed⟩)
              fun e => .error (.notWritten e))

theorem alone_deliver (w : JobSetting) (path : String) (m : Relocated) (bench : Workbench) :
    (deliver w path m).alone bench = Job.deliver w path m bench := by
  rw [deliver, alone]
  dsimp only [Job.deliver, FileTree.deliverFile, Delivered.andThen]
  cases hparent :
      (bench.files.makeParent (Location.below w.outDir (Job.outputName path))).failure with
  | some e =>
    dsimp only
    rw [alone, hparent, Option.elim_some]
  | none =>
    dsimp only
    rw [alone, alone]

/-- What comes after the transfers for a module. -/
def deliverUnless (w : JobSetting) (path : String) (m : Relocated) :
    Option TransferError → Activity
  | some e => .ended (.error (.notCopied e))
  | none => deliver w path m

/-- A module that is code is analyzed, its tasks are done, and it is written. -/
def processCode (w : JobSetting) (path : String) (content : ByteArray) : Activity :=
  let analyzed (bench : Workbench) :=
    w.build.analyze bench.files bench.output.registry path (Text.ofBytes content)
  .access (fun bench =>
      match analyzed bench with
      | .error _ => bench
      | .ok (registry, _) => { bench with output := { bench.output with registry } })
    fun bench =>
      match analyzed bench with
      | .error e => .ended (.error (Job.errorOf content (.refused e)))
      | .ok (_, a) =>
        runTasks .open_ w.build.options.assetBase a.tasks (deliverUnless w path a.relocated)

/-- An addon gets its name, what it is gets recorded, and its content is sent. -/
def sendAddon (host : Host) (assetBase path preferred : String) (content : ByteArray) :
    Sending := fun next =>
  register path preferred fun name =>
    .access id fun bench =>
      match bench.files.target path with
      | .ok node =>
        record (·.recordPermissions (assetBase ++ name) node.fullMode)
          (send host (assetBase ++ name) content next)
      | .error _ => send host (assetBase ++ name) content next

/-- What becomes of an addon, given what is left after it was sent. -/
def addonModule (w : JobSetting) (path : String) (output : Output) : Relocated :=
  let specifier := "./" ++ w.build.options.relativeAssetPrefix ++
    (output.registry.nameOf? path).getD ""
  ⟨"module.exports = " ++ Loader.dynamicLoad (Json.quote specifier) ++ ";", none, true⟩

/-- The shared libraries of an addon are copied, it is sent, and the module that loads it is
written. -/
def processAddon (w : JobSetting) (path : String) (content : ByteArray) : Activity :=
  let assetBase := w.build.options.assetBase
  let base := (Package.base? path).getD (Path.dirname path)
  let preferred := (Naming.below? path base).getD (Path.basename path none)
  andThen (listed isSharedLibrary base (transferLibraries .open_ assetBase))
    (sendAddon .open_ assetBase path preferred content)
    fun failure =>
      match failure with
      | some e => .ended (.error (.notCopied e))
      | none =>
        .access id fun bench => deliver w path (addonModule w path bench.output)

/-- A module of any kind. -/
def process (w : JobSetting) (path : String) (content : ByteArray) : Activity :=
  if Text.endsWith path Addon.ending then processAddon w path content
  else if Text.endsWith path ".json" then
    deliver w path (.unchanged (Text.ofBytes content))
  else processCode w path content

variable {w : JobSetting} {path : String} {content : ByteArray}

/-- **Code.** -/
theorem alone_processCode (haddon : ¬Text.endsWith path Addon.ending)
    (hdata : ¬Text.endsWith path ".json") (bench : Workbench) :
    (processCode w path content).alone bench = Job.process w path content bench := by
  rw [processCode, alone, Job.process, Build.relocate, if_neg haddon]
  dsimp only
  rw [if_neg hdata]
  unfold Build.relocateCode
  cases w.build.analyze bench.files bench.output.registry path (Text.ofBytes content) with
  | error e => rfl
  | ok analyzed =>
    dsimp only
    rw [does_runTasks, Build.commit]
    dsimp only
    generalize ModuleAssets.runTasks bench.files .open_ w.build.options.assetBase analyzed.2.tasks
      { bench.output with registry := analyzed.1 } = done
    obtain ⟨output, failure⟩ := done
    cases failure with
    | some e => rfl
    | none => exact alone_deliver w path analyzed.2.relocated _

/-- An addon becomes an asset. -/
def addonSent (host : Host) (assetBase path preferred : String) (content : ByteArray)
    (files : FileTree) (o : Output) : Transferred :=
  let (registry, name) := o.registry.register path preferred
  let key := assetBase ++ name
  let registry :=
    match files.target path with
    | .ok node => registry.recordPermissions key node.fullMode
    | .error _ => registry
  Output.emit host { o with registry } key content

theorem does_sendAddon (host : Host) (assetBase path preferred : String) (content : ByteArray) :
    Does (addonSent host assetBase path preferred content)
      (sendAddon host assetBase path preferred content) := by
  intro next bench
  rw [sendAddon, register, alone]
  dsimp only
  rw [alone]
  dsimp only [addonSent, id]
  cases bench.files.target path with
  | error e => rfl
  | ok node => rfl

/-- All that is sent for an addon. -/
def addonTransferred (w : JobSetting) (path : String) (content : ByteArray) (files : FileTree)
    (o : Output) : Transferred :=
  let base := (Package.base? path).getD (Path.dirname path)
  (transferSharedLibraries files .open_ w.build.options.assetBase base o).andThen
    (addonSent .open_ w.build.options.assetBase path
      ((Naming.below? path base).getD (Path.basename path none)) content files)

theorem relocateAddon_eq (w : JobSetting) (path : String) (content : ByteArray) (files : FileTree)
    (o : Output) :
    w.build.relocateAddon files .open_ path content o =
      let done := addonTransferred w path content files o
      ⟨done.output, done.failure.elim (.ok (addonModule w path done.output))
        fun e => .error (.notCopied e)⟩ := by
  unfold Build.relocateAddon
  dsimp only
  generalize hdone : Transferred.andThen _ _ = done
  have hsent : addonTransferred w path content files o = done := hdone
  rw [hsent]
  obtain ⟨output, failure⟩ := done
  cases failure with
  | some e => rfl
  | none => rfl

/-- **Addons.** -/
theorem alone_processAddon (haddon : Text.endsWith path Addon.ending) (bench : Workbench) :
    (processAddon w path content).alone bench = Job.process w path content bench := by
  have hsent : Does (addonTransferred w path content) _ :=
    (does_listed (does_transferLibraries .open_ w.build.options.assetBase)).andThen
      (does_sendAddon .open_ w.build.options.assetBase path _ content)
  have hrelocate : w.build.relocate bench.files .open_ path content bench.output = _ :=
    (if_pos haddon).trans (relocateAddon_eq w path content bench.files bench.output)
  unfold processAddon Job.process
  dsimp only
  rw [hsent, hrelocate]
  dsimp only
  generalize addonTransferred w path content bench.files bench.output = done
  obtain ⟨output, failure⟩ := done
  cases failure with
  | some e => rfl
  | none =>
    dsimp only [Option.elim_none]
    rw [alone]
    dsimp only [id]
    exact alone_deliver w path (addonModule w path output) ⟨bench.files, output⟩

theorem alone_process (w : JobSetting) (path : String) (content : ByteArray) (bench : Workbench) :
    (process w path content).alone bench = Job.process w path content bench := by
  rw [process]
  split
  · rename_i haddon
    exact alone_processAddon haddon bench
  · rename_i haddon
    split
    · rename_i hdata
      rw [alone_deliver, Job.process, Build.relocate, if_neg haddon]
      dsimp only
      rw [if_pos hdata]
    · rename_i hdata
      exact alone_processCode haddon hdata bench

end Activity

/-- **One access for each thing that is needed**: each look at the files, each change of the
registry, each asset that is sent and each file that is written. -/
def Cutting.fine (w : JobSetting) : Cutting w where
  activity := Activity.process w
  faithful path content _ := Activity.alone_process w path content

end ModuleAssets
