import ModuleAssets.Proofs.Asset.Persisted
import ModuleAssets.Proofs.Asset.Recorded
/-!
# Resumed builds — what the tables of an earlier build change

A build may take over the tables that an earlier one handed on. It does then what it would do
without them: it gives the same names, sends the same, fails where that fails, and records the
same. Only of names that it records nothing of it keeps what it took over
(`Output.Resumes`, `Output.Resumes.relocate`).
-/

namespace ModuleAssets

/-! ## Registries -/

namespace Registry

/-- What the tables hold of a name. -/
def entry (r : Registry) (name : String) : Option Nat × Option String :=
  (r.permissions? name, r.symlink? name)

/-- The tables hold something of a name. -/
def records (r : Registry) (name : String) : Bool :=
  (r.entry name).1.isSome || (r.entry name).2.isSome

/-- The first registry gives the names of the second, and of each name it holds what the second
does, or else what was taken over. -/
structure Resumes (tables r r' : Registry) : Prop where
  names : r.SameNames r'
  entry : ∀ name, r.entry name = if r'.records name then r'.entry name else tables.entry name
  nodup : (r.symlinks.map (·.1)).Nodup
  nodup' : (r'.symlinks.map (·.1)).Nodup
  symlinks : tables.symlinks = [] → r.symlinks = r'.symlinks

/-- The links that were taken over, under names of which nothing is recorded. -/
def leftOver (tables r : Registry) : List (String × String) :=
  tables.symlinks.filter fun link => !r.records link.1

variable {tables r r' s s' : Registry} {name : String}

theorem entry_registerAll (r : Registry) (calls : List (String × String)) (key : String) :
    (r.registerAll calls).entry key = r.entry key := by
  rw [Registry.entry, permissions?, symlink?, (tables_registerAll r calls).1,
    (tables_registerAll r calls).2]
  rfl

theorem entry_recordPermissions (r : Registry) (name : String) (mode : Nat) (key : String) :
    (r.recordPermissions name mode).entry key =
      if name = key then (some mode, none) else r.entry key := by
  rw [Registry.entry, permissions?_recordPermissions, symlink?_recordPermissions]
  split
  · rfl
  · rfl

theorem entry_recordSymlink (r : Registry) (name target key : String) :
    (r.recordSymlink name target).entry key =
      if name = key then (none, some target) else r.entry key := by
  rw [Registry.entry, permissions?_recordSymlink, symlink?_recordSymlink]
  split
  · rfl
  · rfl

theorem records_congr {key : String} (h : s.entry key = r.entry key) :
    s.records key = r.records key := by
  rw [records, records, h]

/-- What is recorded of one name hides what was taken over of it. -/
theorem records_of_entry {v : Option Nat × Option String} (hv : v.1.isSome || v.2.isSome)
    (h : ∀ key, s.entry key = if name = key then v else r.entry key) (key : String) :
    s.records key = (decide (name = key) || r.records key) := by
  by_cases hkey : name = key
  · rw [records, h, if_pos hkey, hv, decide_eq_true hkey, Bool.true_or]
  · rw [decide_eq_false hkey, Bool.false_or]
    exact records_congr ((h key).trans (if_neg hkey))

namespace Resumes

/-- Both record the same of one name. -/
theorem entry_of_entry (h : Resumes tables r r') {v : Option Nat × Option String}
    (hv : v.1.isSome || v.2.isSome)
    (hs : ∀ key, s.entry key = if name = key then v else r.entry key)
    (hs' : ∀ key, s'.entry key = if name = key then v else r'.entry key) (key : String) :
    s.entry key = if s'.records key then s'.entry key else tables.entry key := by
  rw [hs, hs', records_of_entry hv hs']
  by_cases hkey : name = key
  · rw [if_pos hkey, if_pos hkey, decide_eq_true hkey, Bool.true_or, if_pos rfl]
  · rw [if_neg hkey, if_neg hkey, decide_eq_false hkey, Bool.false_or]
    exact h.entry key

theorem recordPermissions (h : Resumes tables r r') (name : String) (mode : Nat) :
    Resumes tables (r.recordPermissions name mode) (r'.recordPermissions name mode) where
  names := ⟨h.names.given, h.names.names⟩
  entry := h.entry_of_entry rfl (r.entry_recordPermissions name mode)
    (r'.entry_recordPermissions name mode)
  nodup := nodup_filter_keys h.nodup _
  nodup' := nodup_filter_keys h.nodup' _
  symlinks hnone := congrArg (List.filter _) (h.symlinks hnone)

theorem recordSymlink (h : Resumes tables r r') (name target : String) :
    Resumes tables (r.recordSymlink name target) (r'.recordSymlink name target) where
  names := ⟨h.names.given, h.names.names⟩
  entry := h.entry_of_entry rfl (r.entry_recordSymlink name target)
    (r'.entry_recordSymlink name target)
  nodup := Json.nodup_setMember h.nodup name target
  nodup' := Json.nodup_setMember h.nodup' name target
  symlinks hnone := congrArg (Json.setMember · name target) (h.symlinks hnone)

theorem registerAll (h : Resumes tables r r') (calls : List (String × String)) :
    Resumes tables (r.registerAll calls) (r'.registerAll calls) where
  names := h.names.registerAll calls
  entry key := by
    rw [entry_registerAll, entry_registerAll, records_congr (r'.entry_registerAll calls key)]
    exact h.entry key
  nodup := by
    rw [(tables_registerAll r calls).2]
    exact h.nodup
  nodup' := by
    rw [(tables_registerAll r' calls).2]
    exact h.nodup'
  symlinks hnone := by
    rw [(tables_registerAll r calls).2, (tables_registerAll r' calls).2]
    exact h.symlinks hnone

end Resumes

/-! ### Links -/

/-- **The links after a build that resumed** are those that it recorded and those that are left
over. -/
theorem Resumes.perm_symlinks (h : Resumes tables r r')
    (htables : (tables.symlinks.map (·.1)).Nodup) :
    r.symlinks.Perm (r'.symlinks ++ leftOver tables r') := by
  have hrecorded {link : String × String} (hlink : link ∈ r'.symlinks) :
      r'.records link.1 = true := by
    have hsome : r'.symlink? link.1 = some link.2 := (Json.member?_eq_some h.nodup').2 hlink
    rw [records, Registry.entry, hsome]
    exact Bool.or_true _
  have hapart : List.Disjoint r'.symlinks (leftOver tables r') := by
    intro link hlink hleft
    have hfree := (List.mem_filter.1 hleft).2
    rw [hrecorded hlink] at hfree
    cases hfree
  have hleft : (leftOver tables r').Nodup := htables.of_map.filter _
  rw [List.perm_ext_iff_of_nodup h.nodup.of_map (h.nodup'.of_map.append hleft hapart)]
  rintro ⟨name, target⟩
  have hlink := congrArg Prod.snd (h.entry name)
  rw [List.mem_append, leftOver, List.mem_filter, ← Json.member?_eq_some h.nodup,
    ← Json.member?_eq_some htables]
  change r.symlink? name = some target ↔ _ ∨ tables.symlink? name = some target ∧ _
  cases hname : r'.records name with
  | true =>
    rw [hname, if_pos rfl] at hlink
    have hsame : r.symlink? name = r'.symlink? name := hlink
    rw [hsame, ← Json.member?_eq_some h.nodup']
    exact ⟨.inl, fun hor => hor.resolve_right fun hleft => nomatch hleft.2⟩
  | false =>
    rw [hname, if_neg Bool.false_ne_true] at hlink
    have hsame : r.symlink? name = tables.symlink? name := hlink
    rw [hsame]
    refine ⟨fun hsome => .inr ⟨hsome, rfl⟩, fun hor => (hor.resolve_left fun hmem => ?_).1⟩
    cases hname.symm.trans (hrecorded hmem)

/-! ### What is taken over -/

theorem nodup_table? {α : Type} {value? : Json → Option α} {json : Json}
    {table : List (String × α)} (h : table? value? json = some table) :
    (table.map (·.1)).Nodup := by
  unfold table? at h
  split at h
  · obtain ⟨members, -, rfl⟩ := Option.map_eq_some_iff.1 h
    exact Json.nodup_mergeMembers members
  · cases h

/-- **What is taken over** are tables, in which each link is there once. -/
theorem of_restore {σ : Type} {cache : Cache σ} {stored : σ} {entryId : String}
    (h : r.restore cache stored entryId = .ok (some s)) :
    s.SameNames r ∧ (s.symlinks.map (·.1)).Nodup := by
  have htables (members : List (String × List Char)) (h : r.withTables? members = some s) :
      s.SameNames r ∧ (s.symlinks.map (·.1)).Nodup := by
    unfold withTables? at h
    split at h
    · obtain ⟨permissions, -, h⟩ := Option.bind_eq_some_iff.1 h
      obtain ⟨symlinks, hsymlinks, h⟩ := Option.bind_eq_some_iff.1 h
      obtain rfl := Option.some.inj h
      refine ⟨⟨rfl, rfl⟩, ?_⟩
      unfold tableAt? at hsymlinks
      split at hsymlinks
      · obtain ⟨json, -, htable⟩ := Option.bind_eq_some_iff.1 hsymlinks
        exact nodup_table? htable
      · obtain rfl := Option.some.inj hsymlinks
        exact List.nodup_nil
    · cases h
  unfold restore at h
  split at h
  · cases h
  · cases h
  · split at h
    · rename_i taken htaken
      obtain rfl : taken = s := Option.some.inj (Except.ok.inj h)
      obtain ⟨outline, -, hstate⟩ := Option.bind_eq_some_iff.1 htaken
      unfold withState? at hstate
      split at hstate
      · exact htables _ hstate
      · split at hstate
        · exact htables _ hstate
        · cases hstate
    · cases h

end Registry

/-- What becomes of an addon's module: it loads the addon from its name. -/
theorem Build.result_relocateAddon (b : Build) (files : FileTree) (host : Host) (id : String)
    (content : ByteArray) (o : Output) :
    let done :=
      (b.transferAddonLibraries files host id o).andThen (b.emitAddon files host id content)
    (b.relocateAddon files host id content o).result =
      done.failure.elim
        (.ok ⟨"module.exports = " ++ Loader.dynamicLoad (Json.quote ("./" ++
          b.options.relativeAssetPrefix ++ (done.output.registry.nameOf? id).getD "")) ++ ";",
          none, true⟩)
        fun e => .error (.notCopied e) := by
  intro done
  unfold relocateAddon
  dsimp only
  split
  · rename_i e hfailure
    rw [show done.failure = some e from hfailure]
    rfl
  · rename_i hfailure
    rw [show done.failure = none from hfailure]
    rfl

/-! ## Transfers -/

/-- The first output is that of the second with what was taken over, and the host was offered and
has the same. What it has is recorded. -/
structure Output.Resumes (tables : Registry) (o o' : Output) : Prop where
  registry : Registry.Resumes tables o.registry o'.registry
  offered : o.offered = o'.offered
  emitted : o.emitted = o'.emitted
  recorded : ∀ name, (Json.member? o'.emitted name).isSome → o'.registry.records name

/-- Something made of all assets: of files with their modes, and of links. -/
def Output.assets {β : Type} (o : Output) (file : String × ByteArray → Option Nat → β)
    (link : String × String → β) : List β :=
  (o.emitted.map fun asset => file asset (o.registry.permissions? asset.1)) ++
    o.registry.symlinks.map link

/-- Both fail in the same way, if at all. -/
structure Transferred.Resumes (tables : Registry) (done done' : Transferred) : Prop where
  failure : done.failure = done'.failure
  output : done.output.Resumes tables done'.output

/-- Both have the same result. -/
structure Committed.Resumes (tables : Registry) (done done' : Committed) : Prop where
  result : done.result = done'.result
  output : done.output.Resumes tables done'.output

variable {tables : Registry} {o o' : Output} {files : FileTree} {host : Host}

theorem Transferred.Resumes.andThen {done done' : Transferred} {next : Output → Transferred}
    (h : done.Resumes tables done')
    (hnext : ∀ o o', Output.Resumes tables o o' → (next o).Resumes tables (next o')) :
    (done.andThen next).Resumes tables (done'.andThen next) := by
  rw [Transferred.andThen, Transferred.andThen, h.failure]
  split
  · exact hnext _ _ h.output
  · exact h

namespace Output.Resumes

theorem registerAll (h : o.Resumes tables o') (calls : List (String × String)) :
    Output.Resumes tables { o with registry := o.registry.registerAll calls }
      { o' with registry := o'.registry.registerAll calls } where
  registry := h.registry.registerAll calls
  offered := h.offered
  emitted := h.emitted
  recorded name hname := by
    rw [Registry.records_congr (o'.registry.entry_registerAll calls name)]
    exact h.recorded name hname

theorem register (h : o.Resumes tables o') (path preferred : String) :
    Output.Resumes tables { o with registry := (o.registry.register path preferred).1 }
      { o' with registry := (o'.registry.register path preferred).1 } :=
  h.registerAll [(path, preferred)]

theorem recordSymlink (h : o.Resumes tables o') (name target : String) :
    Output.Resumes tables { o with registry := o.registry.recordSymlink name target }
      { o' with registry := o'.registry.recordSymlink name target } where
  registry := h.registry.recordSymlink name target
  offered := h.offered
  emitted := h.emitted
  recorded other hother := by
    rw [Registry.records_of_entry rfl (o'.registry.entry_recordSymlink name target),
      h.recorded other hother, Bool.or_true]

/-- **A file goes to the host** after its mode was recorded. -/
theorem emit (h : o.Resumes tables o') (host : Host) (name : String) (mode : Nat)
    (content : ByteArray) :
    Transferred.Resumes tables
      (Output.emit host { o with registry := o.registry.recordPermissions name mode } name content)
      (Output.emit host { o' with registry := o'.registry.recordPermissions name mode } name
        content) := by
  have hregistry := h.registry.recordPermissions name mode
  have hrecords := Registry.records_of_entry rfl (o'.registry.entry_recordPermissions name mode)
  unfold Output.emit
  dsimp only
  rw [h.offered]
  cases host.refuses o'.offered name content with
  | some reason =>
    refine ⟨rfl, hregistry, rfl, h.emitted, fun other hother => ?_⟩
    rw [hrecords, h.recorded other hother, Bool.or_true]
  | none =>
    refine ⟨rfl, hregistry, rfl, congrArg (Json.setMember · name content) h.emitted,
      fun other hother => ?_⟩
    dsimp only at hother ⊢
    rw [Json.member?_setMember] at hother
    rw [hrecords]
    by_cases hname : name = other
    · rw [decide_eq_true hname, Bool.true_or]
    · rw [if_neg hname] at hother
      rw [h.recorded other hother, Bool.or_true]

/-- **One transfer.** -/
theorem transfer (h : o.Resumes tables o') (files : FileTree) (host : Host) (source key : String) :
    Transferred.Resumes tables (ModuleAssets.transfer files host source key o)
      (ModuleAssets.transfer files host source key o') := by
  unfold ModuleAssets.transfer
  cases files.entry source with
  | error e => exact ⟨rfl, h⟩
  | ok node =>
    cases node with
    | file content mode => exact h.emit host key _ content
    | link text => exact ⟨rfl, h.recordSymlink key _⟩
    | directory entries => exact ⟨rfl, h⟩

/-- **Over a list.** -/
theorem each {α : Type} {run : α → Output → Transferred}
    (hrun : ∀ x o o', Output.Resumes tables o o' → (run x o).Resumes tables (run x o'))
    (xs : List α) (h : o.Resumes tables o') :
    (runEach run xs o).Resumes tables (runEach run xs o') := by
  induction xs generalizing o o' with
  | nil => exact ⟨rfl, h⟩
  | cons x rest ih => exact (hrun x o o' h).andThen fun _ _ => ih

theorem transferLibrary (h : o.Resumes tables o') (files : FileTree) (host : Host)
    (assetBase : String) (library : String × String) :
    Transferred.Resumes tables (ModuleAssets.transferLibrary files host assetBase library o)
      (ModuleAssets.transferLibrary files host assetBase library o') := by
  have hname := (h.registry.names.register library.1 library.2).1
  unfold ModuleAssets.transferLibrary
  dsimp only
  rw [hname]
  exact (h.register library.1 library.2).transfer files host library.1 _

theorem libraries (h : o.Resumes tables o') (files : FileTree) (host : Host)
    (assetBase packageBase : String) :
    Transferred.Resumes tables (transferSharedLibraries files host assetBase packageBase o)
      (transferSharedLibraries files host assetBase packageBase o') := by
  unfold transferSharedLibraries
  cases assetsBelow files isSharedLibrary packageBase with
  | error e => exact ⟨rfl, h⟩
  | ok found =>
    dsimp only
    rw [transferLibraries_eq, transferLibraries_eq]
    exact each (fun library _ _ ho => ho.transferLibrary files host assetBase library) found h

/-- **One task.** -/
theorem runTask (h : o.Resumes tables o') (files : FileTree) (host : Host) (assetBase : String)
    (task : AssetTask) :
    Transferred.Resumes tables (ModuleAssets.runTask files host assetBase task o)
      (ModuleAssets.runTask files host assetBase task o') := by
  cases task with
  | file source name => exact h.transfer files host source _
  | directory source name =>
    rw [ModuleAssets.runTask, ModuleAssets.runTask]
    cases assetsBelow files isDirectoryAsset source with
    | error e => exact ⟨rfl, h⟩
    | ok found =>
      dsimp only
      rw [transferAll_eq, transferAll_eq]
      exact each (fun f _ _ ho => ho.transfer files host f.1 f.2) _ h
  | sharedLibraries packageBase => exact h.libraries files host assetBase packageBase

/-- **All tasks.** -/
theorem runTasks (h : o.Resumes tables o') (files : FileTree) (host : Host) (assetBase : String)
    (tasks : List AssetTask) :
    Transferred.Resumes tables (ModuleAssets.runTasks files host assetBase tasks o)
      (ModuleAssets.runTasks files host assetBase tasks o') := by
  rw [runTasks_eq, runTasks_eq]
  exact each (fun task _ _ ho => ho.runTask files host assetBase task) tasks h

/-! ## Assets -/

/-- What the host has has the same mode. -/
theorem permissions? (h : o.Resumes tables o') {asset : String × ByteArray}
    (hasset : asset ∈ o'.emitted) :
    o.registry.permissions? asset.1 = o'.registry.permissions? asset.1 := by
  have hmember : (Json.member? o'.emitted asset.1).isSome := by
    rw [Option.isSome_iff_ne_none, Ne, Json.member?_eq_none]
    exact fun hnone => hnone (List.mem_map.2 ⟨asset, hasset, rfl⟩)
  have hentry := h.registry.entry asset.1
  rw [h.recorded _ hmember, if_pos rfl] at hentry
  exact congrArg Prod.fst hentry

section

variable {β : Type} (file : String × ByteArray → Option Nat → β) (link : String × String → β)

theorem map_emitted (h : o.Resumes tables o') :
    (o.emitted.map fun asset => file asset (o.registry.permissions? asset.1)) =
      o'.emitted.map fun asset => file asset (o'.registry.permissions? asset.1) := by
  rw [h.emitted]
  exact List.map_congr_left fun asset hasset => congrArg (file asset) (h.permissions? hasset)

/-- **Only links may be left over.** -/
theorem perm_assets (h : o.Resumes tables o') (htables : (tables.symlinks.map (·.1)).Nodup) :
    (o.assets file link).Perm
      (o'.assets file link ++ (tables.leftOver o'.registry).map link) := by
  have hlinks := (h.registry.perm_symlinks htables).map link
  rw [List.map_append] at hlinks
  rw [Output.assets, Output.assets, h.map_emitted file, List.append_assoc]
  exact hlinks.append_left _

theorem assets_eq (h : o.Resumes tables o') (hnone : tables.symlinks = []) :
    o.assets file link = o'.assets file link := by
  rw [Output.assets, Output.assets, h.map_emitted file, h.registry.symlinks hnone]

end

/-! ## Modules -/

variable {b : Build} {id : String}

theorem commit (h : o.Resumes tables o') (b : Build) (files : FileTree) (host : Host)
    (a : Analysis) :
    Committed.Resumes tables (b.commit files host a o) (b.commit files host a o') := by
  obtain ⟨hfailure, houtput⟩ := h.runTasks files host b.options.assetBase a.tasks
  unfold Build.commit
  dsimp only
  rw [hfailure]
  split
  · exact ⟨rfl, houtput⟩
  · exact ⟨rfl, houtput⟩

/-- **Code** is analyzed by the names and committed. -/
theorem relocateCode (hb : b.specialCases ⊆ SpecialCase.all) (h : o.Resumes tables o')
    (files : FileTree) (host : Host) (id source : String) :
    Committed.Resumes tables (b.relocateCode files host id source o)
      (b.relocateCode files host id source o') := by
  unfold Build.relocateCode
  obtain ⟨e, he, he'⟩ | ⟨calls, a, ha, ha'⟩ :=
    Build.analyze_of_sameNames hb h.registry.names files id source
  · rw [he, he']
    exact ⟨rfl, h⟩
  · rw [ha, ha']
    exact (h.registerAll calls).commit b files host a

/-- An addon that is there has a mode. -/
theorem emitAddon (h : o.Resumes tables o') (b : Build) (host : Host) {node : Node}
    (hid : files.target id = .ok node) (content : ByteArray) :
    Transferred.Resumes tables (b.emitAddon files host id content o)
      (b.emitAddon files host id content o') := by
  have hname := (h.registry.names.register id (Build.preferredAddon id)).1
  unfold Build.emitAddon
  dsimp only
  rw [hid, hname]
  exact (h.register id (Build.preferredAddon id)).emit host _ _ content

/-- **An addon** is loaded from its name. -/
theorem relocateAddon (h : o.Resumes tables o') (b : Build) (host : Host) {node : Node}
    (hid : files.target id = .ok node) (content : ByteArray) :
    Committed.Resumes tables (b.relocateAddon files host id content o)
      (b.relocateAddon files host id content o') := by
  have hdone : Transferred.Resumes tables
      ((b.transferAddonLibraries files host id o).andThen (b.emitAddon files host id content))
      ((b.transferAddonLibraries files host id o').andThen (b.emitAddon files host id content)) :=
    Transferred.Resumes.andThen (h.libraries files host b.options.assetBase _)
      fun _ _ ho => ho.emitAddon b host hid content
  refine ⟨?_, ?_⟩
  · rw [Build.result_relocateAddon, Build.result_relocateAddon, hdone.failure,
      hdone.output.registry.names.nameOf?]
  · rw [Build.output_relocateAddon, Build.output_relocateAddon]
    exact hdone.output

/-- **A module of any kind** becomes the same, whatever was taken over. -/
theorem relocate (hb : b.specialCases ⊆ SpecialCase.all) (h : o.Resumes tables o') (host : Host)
    {node : Node} (hid : files.target id = .ok node) (content : ByteArray) :
    Committed.Resumes tables (b.relocate files host id content o)
      (b.relocate files host id content o') := by
  unfold Build.relocate
  split
  · exact h.relocateAddon b host hid content
  · dsimp only
    split
    · exact ⟨rfl, h⟩
    · exact h.relocateCode hb files host id _

end Output.Resumes

end ModuleAssets
