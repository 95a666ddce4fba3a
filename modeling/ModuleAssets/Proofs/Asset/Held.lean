import ModuleAssets.Proofs.Asset.Sent
/-!
# What is held — modes, links and content under keys

Under a key there may be the mode of a file, the target of a link, and content. A
transfer that is done settles what is under its key, and leaves all other keys alone
(`held_transfer`). So what is under a key in the end is what the transfers to it, one
after another, made of what was there before (`settles_runTasks`); and where all of
them are from one path, the first decides and the others change nothing
(`settleAll_eq`).
-/

namespace ModuleAssets

/-- What there is under a key: the mode of a file, the target of a link, and content. -/
def Output.held (o : Output) (key : String) : Option Nat × Option String × Option ByteArray :=
  (o.registry.permissions? key, o.registry.symlink? key, Json.member? o.emitted key)

/-- What there is under a key after a path was sent there. -/
def settled (files : FileTree) (path : String)
    (before : Option Nat × Option String × Option ByteArray) :
    Option Nat × Option String × Option ByteArray :=
  match files.entry path with
  | .ok (.file content mode) => (some (Node.fullMode (.file content mode)), none, some content)
  | .ok (.link text) => (none, some (linkTarget path text), before.2.2)
  | _ => before

/-- What there is under a key after all that was sent. -/
def settleAll (files : FileTree) (key : String) (sent : List (String × String))
    (before : Option Nat × Option String × Option ByteArray) :
    Option Nat × Option String × Option ByteArray :=
  sent.foldl (fun before t => if t.2 = key then settled files t.1 before else before) before

section

variable {files : FileTree} {path key : String}
variable {before : Option Nat × Option String × Option ByteArray}

theorem settled_settled (files : FileTree) (path : String)
    (before : Option Nat × Option String × Option ByteArray) :
    settled files path (settled files path before) = settled files path before := by
  unfold settled
  cases files.entry path with
  | error e => rfl
  | ok n => cases n <;> rfl

theorem settleAll_append (first second : List (String × String)) :
    settleAll files key (first ++ second) before =
      settleAll files key second (settleAll files key first before) :=
  List.foldl_append

/-- **Where one path alone is sent to a key**, it does not matter how often. -/
theorem settleAll_eq {sent : List (String × String)} (honly : ∀ t ∈ sent, t.2 = key → t.1 = path) :
    settleAll files key sent before =
      if (path, key) ∈ sent then settled files path before else before := by
  induction sent generalizing before with
  | nil => rfl
  | cons t rest ih =>
    rw [settleAll, List.foldl_cons]
    refine (ih fun t' ht' => honly t' (List.mem_cons_of_mem _ ht')).trans ?_
    by_cases hkey : t.2 = key
    · obtain rfl := honly t List.mem_cons_self hkey
      subst hkey
      rw [if_pos rfl, if_pos List.mem_cons_self, settled_settled, ite_self]
    · have hne : (path, key) ≠ t := fun heq => hkey (heq ▸ rfl)
      rw [if_neg hkey]
      exact if_congr (by rw [List.mem_cons, or_iff_right hne]) rfl rfl

end

/-! ## Modes and links -/

namespace Registry

variable {r : Registry} {name key : String}

/-- What is not under one key was not taken away. -/
theorem find?_filter_ne {α : Type} (entries : List (String × α)) (name key : String) :
    ((entries.filter (·.1 != name)).find? (·.1 == key)).map (·.2) =
      if name = key then none else (entries.find? (·.1 == key)).map (·.2) := by
  rw [List.find?_filter]
  by_cases hkey : name = key
  · rw [if_pos hkey, Option.map_eq_none_iff, List.find?_eq_none]
    intro entry _
    simp [hkey]
  · rw [if_neg hkey]
    refine congrArg _ (congrArg (List.find? · _) (funext fun entry => ?_))
    by_cases hentry : entry.1 = key
    · simp [hentry, Ne.symm hkey]
    · simp [hentry]

theorem symlink?_recordPermissions (r : Registry) (name : String) (mode : Nat) (key : String) :
    (r.recordPermissions name mode).symlink? key =
      if name = key then none else r.symlink? key :=
  find?_filter_ne r.symlinks name key

theorem permissions?_recordPermissions (r : Registry) (name : String) (mode : Nat) (key : String) :
    (r.recordPermissions name mode).permissions? key =
      if name = key then some mode else r.permissions? key :=
  Json.member?_setMember r.permissions name mode key

theorem symlink?_recordSymlink (r : Registry) (name target key : String) :
    (r.recordSymlink name target).symlink? key =
      if name = key then some target else r.symlink? key :=
  Json.member?_setMember r.symlinks name target key

theorem permissions?_recordSymlink (r : Registry) (name target key : String) :
    (r.recordSymlink name target).permissions? key =
      if name = key then none else r.permissions? key :=
  find?_filter_ne r.permissions name key

/-- Names do not concern files. -/
theorem permissions_register (r : Registry) (path preferred : String) :
    (r.register path preferred).1.permissions = r.permissions := by
  rw [register]
  split
  · rfl
  · rfl

end Registry

theorem Output.held_register (o : Output) (path preferred key : String) :
    held { o with registry := (o.registry.register path preferred).1 } key = o.held key := by
  rw [held, Registry.symlink?, Registry.symlinks_register, Registry.permissions?,
    Registry.permissions_register]
  rfl

/-! ## Transfers -/

section

variable {files : FileTree} {host : Host} {assetBase source key : String} {o : Output}

/-- What is transferred is sent. -/
theorem sent_of_done (h : (transfer files host source key o).failure = none) :
    sent files source key = [(source, key)] := by
  unfold transfer at h
  unfold sent
  split at h
  · cases h
  · rename_i heq
    rw [heq]
  · rename_i heq
    rw [heq]
  · cases h

/-- **What is transferred settles what is under its key**, and under no other. -/
theorem held_transfer (h : (transfer files host source key o).failure = none) (other : String) :
    (transfer files host source key o).output.held other =
      if key = other then settled files source (o.held other) else o.held other := by
  unfold transfer at h ⊢
  unfold settled
  cases hentry : files.entry source with
  | error e =>
    rw [hentry] at h
    cases h
  | ok n =>
    rw [hentry] at h
    cases n with
    | directory entries => cases h
    | link text =>
      dsimp only [Output.held]
      rw [Registry.symlink?_recordSymlink, Registry.permissions?_recordSymlink]
      split <;> rfl
    | file content mode =>
      dsimp only [Output.emit] at h ⊢
      cases hrefused : host.refuses o.offered key content with
      | some reason =>
        rw [hrefused] at h
        cases h
      | none =>
        dsimp only [Output.held]
        rw [Registry.symlink?_recordPermissions, Registry.permissions?_recordPermissions,
          Json.member?_setMember]
        split <;> rfl

/-- If it is done, what is under each key is what was sent there made of it. -/
def Settles (files : FileTree) (o : Output) (sent : List (String × String)) (done : Transferred) :
    Prop :=
  done.failure = none → ∀ key, done.output.held key = settleAll files key sent (o.held key)

theorem settles_transfer (files : FileTree) (host : Host) (source key : String) (o : Output) :
    Settles files o (sent files source key) (transfer files host source key o) := by
  intro hdone other
  rw [sent_of_done hdone, held_transfer hdone]
  rfl

/-- **Over a list**: if each thing settles what it sends, all of them do. -/
theorem settles_each {α : Type} {run : α → Output → Transferred}
    {sent : α → Output → List (String × String)} {xs : List α}
    (h : ∀ x ∈ xs, ∀ o, Settles files o (sent x o) (run x o)) (o : Output) :
    Settles files o (sentEach run sent xs o) (runEach run xs o) := by
  induction xs generalizing o with
  | nil => exact fun _ _ => rfl
  | cons x rest ih =>
    have hx := h x List.mem_cons_self o
    have hrest := ih (fun y hy => h y (List.mem_cons_of_mem _ hy)) (run x o).output
    rw [sentEach, runEach, Transferred.andThen]
    cases hfailure : (run x o).failure with
    | some e =>
      intro hdone
      rw [hfailure] at hdone
      cases hdone
    | none =>
      rw [Option.isNone_none, if_pos rfl]
      intro hdone key
      rw [hrest hdone key, hx hfailure key, settleAll_append]

theorem settles_libraries (files : FileTree) (host : Host) (assetBase packageBase : String)
    (o : Output) :
    Settles files o (sentLibraries files host assetBase packageBase o)
      (transferSharedLibraries files host assetBase packageBase o) := by
  unfold sentLibraries transferSharedLibraries
  cases assetsBelow files isSharedLibrary packageBase with
  | error e => exact fun hdone => absurd hdone (Option.some_ne_none e)
  | ok found =>
    dsimp only
    rw [transferLibraries_eq]
    refine settles_each (fun f _ o => ?_) o
    have hsettles := settles_transfer files host f.1
      (assetBase ++ (o.registry.register f.1 f.2).2)
      { o with registry := (o.registry.register f.1 f.2).1 }
    unfold Settles at hsettles ⊢
    simp only [Output.held_register] at hsettles
    exact hsettles

/-- **One task.** -/
theorem settles_runTask (files : FileTree) (host : Host) (assetBase : String) (task : AssetTask)
    (o : Output) :
    Settles files o (sentTask files host assetBase task o)
      (runTask files host assetBase task o) := by
  cases task with
  | file source name => exact settles_transfer files host source _ o
  | directory source name =>
    rw [sentTask, runTask]
    cases assetsBelow files isDirectoryAsset source with
    | error e => exact fun hdone => absurd hdone (Option.some_ne_none e)
    | ok found =>
      dsimp only
      rw [transferAll_eq]
      exact settles_each (fun f _ o => settles_transfer files host f.1 f.2 o) o
  | sharedLibraries packageBase => exact settles_libraries files host assetBase packageBase o

/-- **All tasks.** -/
theorem settles_runTasks (files : FileTree) (host : Host) (assetBase : String)
    (tasks : List AssetTask) (o : Output) :
    Settles files o (sentTasks files host assetBase tasks o)
      (runTasks files host assetBase tasks o) := by
  rw [runTasks_eq, sentTasks]
  exact settles_each (fun task _ o => settles_runTask files host assetBase task o) o

/-- What was sent to a key from one path alone is what is there. -/
theorem settled_runTasks {tasks : List AssetTask} {path : String}
    (hdone : (runTasks files host assetBase tasks o).failure = none)
    (hsent : (path, key) ∈ sentTasks files host assetBase tasks o)
    (honly : ∀ t ∈ sentTasks files host assetBase tasks o, t.2 = key → t.1 = path) :
    (runTasks files host assetBase tasks o).output.held key =
      settled files path (o.held key) := by
  rw [settles_runTasks files host assetBase tasks o hdone, settleAll_eq honly, if_pos hsent]

end

end ModuleAssets
