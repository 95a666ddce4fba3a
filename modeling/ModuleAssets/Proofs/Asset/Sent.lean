import ModuleAssets.Proofs.Asset.Planned
import ModuleAssets.Proofs.Files.Listing
/-!
# Transfers — what is sent where

While tasks are done, files and links go from their sources to keys: to the
host, which may refuse them, or into the registry. `sentTasks` lists what goes
where, in order, up to the first failure. What the host holds in the end, and
all links that are recorded, came by a transfer of the list.
-/

namespace ModuleAssets

/-! ## Lists of things to do -/

/-- Does one thing after another, up to the first failure. -/
def runEach {α : Type} (run : α → Output → Transferred) : List α → Output → Transferred
  | [], o => ⟨o, none⟩
  | x :: rest, o => (run x o).andThen (runEach run rest)

/-- What is sent meanwhile. -/
def sentEach {α : Type} (run : α → Output → Transferred)
    (sent : α → Output → List (String × String)) : List α → Output → List (String × String)
  | [], _ => []
  | x :: rest, o =>
    sent x o ++ if (run x o).failure.isNone then sentEach run sent rest (run x o).output else []

section

variable (files : FileTree) (host : Host) (assetBase : String)

/-- A shared library goes to the name that it gets now. -/
def transferLibrary (library : String × String) (o : Output) : Transferred :=
  let (registry, name) := o.registry.register library.1 library.2
  transfer files host library.1 (assetBase ++ name) { o with registry }

theorem transferAll_eq (found : List (String × String)) (o : Output) :
    transferAll files host found o =
      runEach (fun f o => transfer files host f.1 f.2 o) found o := by
  induction found generalizing o with
  | nil => rfl
  | cons f rest ih =>
    rw [transferAll, runEach, funext ih]

theorem transferLibraries_eq (found : List (String × String)) (o : Output) :
    transferLibraries files host assetBase found o =
      runEach (transferLibrary files host assetBase) found o := by
  induction found generalizing o with
  | nil => rfl
  | cons f rest ih =>
    rw [transferLibraries, runEach, funext ih]
    rfl

theorem runTasks_eq (tasks : List AssetTask) (o : Output) :
    runTasks files host assetBase tasks o = runEach (runTask files host assetBase) tasks o := by
  induction tasks generalizing o with
  | nil => rfl
  | cons task rest ih =>
    rw [runTasks, runEach, funext ih]

/-! ## What is sent -/

/-- A file or link goes from its path to a key, anything else goes nowhere. -/
def sent (source key : String) : List (String × String) :=
  match files.entry source with
  | .ok (.link _) => [(source, key)]
  | .ok (.file ..) => [(source, key)]
  | _ => []

/-- The shared libraries of a package go to the names that they get. -/
def sentLibraries (packageBase : String) (o : Output) : List (String × String) :=
  match assetsBelow files isSharedLibrary packageBase with
  | .error _ => []
  | .ok found =>
    sentEach (transferLibrary files host assetBase)
      (fun f o => sent files f.1 (assetBase ++ (o.registry.register f.1 f.2).2)) found o

/-- What one task sends. -/
def sentTask (task : AssetTask) (o : Output) : List (String × String) :=
  match task with
  | .file source name => sent files source (assetBase ++ name)
  | .directory source name =>
    match assetsBelow files isDirectoryAsset source with
    | .error _ => []
    | .ok found =>
      sentEach (fun f o => transfer files host f.1 f.2 o) (fun f _ => sent files f.1 f.2)
        (found.map fun (path, below) => (path, assetBase ++ name ++ "/" ++ below)) o
  | .sharedLibraries packageBase => sentLibraries files host assetBase packageBase o

/-- What tasks send. -/
def sentTasks (tasks : List AssetTask) (o : Output) : List (String × String) :=
  sentEach (runTask files host assetBase) (sentTask files host assetBase) tasks o

end

/-- What is sent goes to its key. -/
theorem key_of_mem_sent {files : FileTree} {source key : String} {t : String × String}
    (h : t ∈ sent files source key) : t.2 = key := by
  unfold sent at h
  split at h
  · exact List.mem_singleton.1 h ▸ rfl
  · exact List.mem_singleton.1 h ▸ rfl
  · exact absurd h List.not_mem_nil

theorem exists_of_mem_sentEach {α : Type} {run : α → Output → Transferred}
    {sent : α → Output → List (String × String)} {xs : List α} {o : Output} {t : String × String}
    (h : t ∈ sentEach run sent xs o) : ∃ x ∈ xs, ∃ o', t ∈ sent x o' := by
  induction xs generalizing o with
  | nil => exact absurd h List.not_mem_nil
  | cons x rest ih =>
    rw [sentEach] at h
    obtain hx | hrest := List.mem_append.1 h
    · exact ⟨x, List.mem_cons_self, o, hx⟩
    · split at hrest
      · obtain ⟨y, hy, o', hsent⟩ := ih hrest
        exact ⟨y, List.mem_cons_of_mem _ hy, o', hsent⟩
      · exact absurd hrest List.not_mem_nil

/-! ## Where it comes from -/

/-- An asset goes to its own name, or it stands below a directory that is
copied and keeps its place below the directory's name. -/
inductive Origin (assetBase : String) (tasks : List AssetTask) (r : Registry) :
    String × String → Prop
  | named {path name : String} (h : r.nameOf? path = some name) :
    Origin assetBase tasks r (path, assetBase ++ name)
  | inside {directory name rest : String} (h : r.nameOf? directory = some name)
    (htask : .directory directory name ∈ tasks) :
    Origin assetBase tasks r (below directory rest, assetBase ++ name ++ "/" ++ rest)

theorem Origin.mono {assetBase : String} {tasks tasks' : List AssetTask} {r r' : Registry}
    {t : String × String} (h : Origin assetBase tasks r t) (htasks : tasks ⊆ tasks')
    (hr : r.Continues r') : Origin assetBase tasks' r' t := by
  cases h with
  | named h => exact .named (hr.kept h)
  | inside h htask => exact .inside (hr.kept h) (htasks htask)

/-! ## Everything that arrives was sent -/

/-- What comes to the output was sent, and what was sent has an origin. -/
structure Sends (assetBase : String) (tasks : List AssetTask) (o : Output)
    (sent : List (String × String)) (o' : Output) : Prop where
  registry : o.registry.Continues o'.registry
  origin : ∀ t ∈ sent, Origin assetBase tasks o'.registry t
  emitted : ∀ key ∈ o'.emitted.map (·.1), key ∈ o.emitted.map (·.1) ∨ key ∈ sent.map (·.2)
  symlinks : ∀ key ∈ o'.registry.symlinks.map (·.1),
    key ∈ o.registry.symlinks.map (·.1) ∨ key ∈ sent.map (·.2)

theorem mem_keys_setMember {α : Type} {members : List (String × α)} {key k : String} {value : α}
    (h : k ∈ (Json.setMember members key value).map (·.1)) :
    k ∈ members.map (·.1) ∨ k = key := by
  by_cases hkey : key ∈ members.map (·.1)
  · rw [Json.map_fst_setMember_of_mem hkey] at h
    exact .inl h
  · rw [Json.setMember_of_member?_eq_none (Json.member?_eq_none.2 hkey), List.map_append,
      List.mem_append] at h
    exact h.imp id List.mem_singleton.1

namespace Sends

variable {files : FileTree} {host : Host} {assetBase : String} {tasks : List AssetTask}
  {o o' o'' : Output} {first second : List (String × String)}

theorem refl (o : Output) : Sends assetBase tasks o [] o :=
  ⟨.refl _, fun _ => nofun, fun _ => .inl, fun _ => .inl⟩

theorem append (h : Sends assetBase tasks o first o')
    (h' : Sends assetBase tasks o' second o'') :
    Sends assetBase tasks o (first ++ second) o'' := by
  have hkeys {key : String} {keys : List String}
      (hkey : (key ∈ keys ∨ key ∈ first.map (·.2)) ∨ key ∈ second.map (·.2)) :
      key ∈ keys ∨ key ∈ (first ++ second).map (·.2) := by
    rw [List.map_append, List.mem_append]
    exact or_assoc.1 hkey
  refine ⟨h.registry.trans h'.registry, fun t ht => ?_, fun key hkey => ?_, fun key hkey => ?_⟩
  · obtain ht | ht := List.mem_append.1 ht
    · exact (h.origin t ht).mono (List.Subset.refl _) h'.registry
    · exact h'.origin t ht
  · exact hkeys ((h'.emitted key hkey).imp_left (h.emitted key))
  · exact hkeys ((h'.symlinks key hkey).imp_left (h.symlinks key))

theorem mono (h : Sends assetBase tasks o first o') {tasks' : List AssetTask}
    (htasks : tasks ⊆ tasks') : Sends assetBase tasks' o first o' :=
  ⟨h.registry, fun t ht => (h.origin t ht).mono htasks (.refl _), h.emitted, h.symlinks⟩

/-- Giving a name sends nothing. -/
theorem register (o : Output) (path preferred : String) : Sends assetBase tasks o []
    { o with registry := (o.registry.register path preferred).1 } := by
  refine ⟨.register _ path preferred, fun _ => nofun, fun _ => .inl, fun key hkey => .inl ?_⟩
  rwa [Registry.symlinks_register] at hkey

theorem emit (o : Output) {source key : String} (content : ByteArray)
    (h : Origin assetBase tasks o.registry (source, key)) :
    Sends assetBase tasks o [(source, key)] (o.emit host key content).output := by
  unfold Output.emit
  split
  · exact ⟨.refl _, fun t ht => List.mem_singleton.1 ht ▸ h, fun _ => .inl, fun _ => .inl⟩
  · refine ⟨.refl _, fun t ht => List.mem_singleton.1 ht ▸ h, fun k hk => ?_, fun _ => .inl⟩
    exact (mem_keys_setMember hk).imp_right fun heq => List.mem_singleton.2 heq

/-- Noting the mode of a file sends nothing. -/
theorem recordPermissions (o : Output) (key : String) (mode : Nat) : Sends assetBase tasks o []
    { o with registry := o.registry.recordPermissions key mode } := by
  refine ⟨.recordPermissions _ key mode, fun _ => nofun, fun _ => .inl, fun k hk => .inl ?_⟩
  obtain ⟨entry, hentry, rfl⟩ := List.mem_map.1 hk
  exact List.mem_map.2 ⟨entry, (List.mem_filter.1 hentry).1, rfl⟩

theorem transfer (o : Output) {source key : String}
    (h : Origin assetBase tasks o.registry (source, key)) :
    Sends assetBase tasks o (sent files source key)
      (transfer files host source key o).output := by
  unfold ModuleAssets.transfer sent
  cases files.entry source with
  | error e => exact refl o
  | ok node =>
    cases node with
    | file content mode =>
      exact (recordPermissions o key _).append (emit _ content (h.mono (List.Subset.refl _)
        (.recordPermissions _ key _)))
    | link text =>
      refine ⟨.recordSymlink _ key _, fun t ht => ?_, fun _ => .inl, fun k hk => ?_⟩
      · exact List.mem_singleton.1 ht ▸ h.mono (List.Subset.refl _) (.recordSymlink _ key _)
      · exact (mem_keys_setMember hk).imp_right fun heq => List.mem_singleton.2 heq
    | directory entries => exact refl o

/-- **Over a list**: what each thing sends is what all of them send. -/
theorem each {α : Type} {run : α → Output → Transferred}
    {sent : α → Output → List (String × String)} {xs : List α}
    (h : ∀ x ∈ xs, ∀ o', o.registry.Continues o'.registry →
      Sends assetBase tasks o' (sent x o') (run x o').output) :
    Sends assetBase tasks o (sentEach run sent xs o) (runEach run xs o).output := by
  induction xs generalizing o with
  | nil => exact refl o
  | cons x rest ih =>
    have hx := h x List.mem_cons_self o (.refl _)
    rw [sentEach, runEach, Transferred.andThen]
    cases (run x o).failure with
    | some e =>
      rw [Option.isNone_some, if_neg Bool.false_ne_true, List.append_nil]
      exact hx
    | none =>
      rw [Option.isNone_none, if_pos rfl]
      exact hx.append (ih fun y hy o' ho' =>
        h y (List.mem_cons_of_mem _ hy) o' (hx.registry.trans ho'))

end Sends

/-! ## Tasks -/

section

variable {files : FileTree} {tasks : List AssetTask} {o : Output}

theorem sends_libraries (files : FileTree) (host : Host) (assetBase packageBase : String)
    (tasks : List AssetTask) (o : Output) :
    Sends assetBase tasks o (sentLibraries files host assetBase packageBase o)
      (transferSharedLibraries files host assetBase packageBase o).output := by
  unfold sentLibraries transferSharedLibraries
  cases assetsBelow files isSharedLibrary packageBase with
  | error e => exact .refl o
  | ok found =>
    dsimp only
    rw [transferLibraries_eq]
    refine .each fun f hf o' _ => (Sends.register o' f.1 f.2).append (.transfer _ (.named ?_))
    exact Registry.nameOf?_register_self o'.registry f.1 f.2

/-- **One task.** -/
theorem sends_runTask (hfiles : files.root.isPlain = true) (host : Host) (assetBase : String)
    {task : AssetTask} (hnamed : task.IsNamed o.registry) (hmem : task ∈ tasks) :
    Sends assetBase tasks o (sentTask files host assetBase task o)
      (runTask files host assetBase task o).output := by
  cases task with
  | file source name => exact .transfer o (.named hnamed)
  | directory source name =>
    rw [sentTask, runTask]
    cases hfound : assetsBelow files isDirectoryAsset source with
    | error e => exact .refl o
    | ok found =>
      dsimp only
      rw [transferAll_eq]
      refine .each fun f hf o' ho' => .transfer o' ?_
      obtain ⟨⟨path, rest⟩, hmem', rfl⟩ := List.mem_map.1 hf
      obtain rfl : path = below source rest := eq_below_of_mem_assetsBelow hfiles hfound hmem'
      exact .inside (ho'.kept hnamed) hmem
  | sharedLibraries packageBase => exact sends_libraries files host assetBase packageBase tasks o

/-- **All tasks**, if they have the names of their assets. -/
theorem sends_runTasks (hfiles : files.root.isPlain = true) (host : Host) (assetBase : String)
    (hnamed : ∀ task ∈ tasks, task.IsNamed o.registry) :
    Sends assetBase tasks o (sentTasks files host assetBase tasks o)
      (runTasks files host assetBase tasks o).output := by
  rw [runTasks_eq, sentTasks]
  exact .each fun task htask o' ho' => sends_runTask hfiles host assetBase
    ((hnamed task htask).mono ho') htask

end

end ModuleAssets
