import ModuleAssets.Proofs.Asset.Held
import ModuleAssets.Proofs.Asset.Keys
/-!
# Order — the commits of two modules

The tasks of a module hold the names of its assets, except that shared libraries get
theirs only when they are copied. So a second commit meets the names that the first
has just given. It gives the same names as it would alone if no name would be given to
two paths (`Joins.register`), and then it does all that it would do alone
(`inStep_runTasks`), unless the host minds what it was offered before.

With a host that does not, or that does everything, the order of two commits is no matter
of names exactly if the commits alone agree on them; and if besides no key gets two
sources, it is no matter at all (`Build.commits_commute`). Two packages that have a library at the same place do not
agree, and there the first commit takes the name (`Build.libraries_by_order`).
-/

namespace ModuleAssets

/-! ## Names -/

namespace Registry

/-- No path has two names and no name two paths in the two registries together. -/
structure Agrees (r r' : Registry) : Prop where
  name_eq : ∀ {path name name'}, r.nameOf? path = some name → r'.nameOf? path = some name' →
    name = name'
  path_eq : ∀ {path path' name}, r.nameOf? path = some name → r'.nameOf? path' = some name →
    path = path'

/-- The names of the third registry are those of the two others. -/
def Joins (r r' s : Registry) : Prop :=
  ∀ path name, s.nameOf? path = some name ↔ r.nameOf? path = some name ∨ r'.nameOf? path = some name

variable {r r' r'' s : Registry} {seeds paths paths' : List String} {path preferred : String}

theorem Agrees.symm (h : r.Agrees r') : r'.Agrees r :=
  ⟨fun h₁ h₂ => (h.name_eq h₂ h₁).symm, fun h₁ h₂ => (h.path_eq h₂ h₁).symm⟩

/-- What agrees in the end agreed before. -/
theorem Agrees.of_continues (h : r.Agrees r'') (hr : r'.Continues r'') : r.Agrees r' :=
  ⟨fun h₁ h₂ => h.name_eq h₁ (hr.kept h₂), fun h₁ h₂ => h.path_eq h₁ (hr.kept h₂)⟩

/-- An asset that may have fewer names, but still the one that it had, has that. -/
theorem openName_congr
    (hopen : ∀ name, s.isOpenTo path name = true → r.isOpenTo path name = true)
    (hname : s.isOpenTo path (r.openName path preferred) = true) :
    s.openName path preferred = r.openName path preferred := by
  obtain ⟨-, ⟨-, hpreferred⟩ | ⟨htaken, k, hpos, -, hk, hleast⟩⟩ := openName_spec r path preferred
  · rw [hpreferred] at hname ⊢
    rw [openName, if_pos hname]
  · rw [hk] at hname ⊢
    obtain ⟨hs, ⟨hfree, -⟩ | ⟨-, m, hm, -, hsm, hleast'⟩⟩ := openName_spec s path preferred
    · exact absurd (hopen _ hfree) htaken
    · rw [hsm] at hs ⊢
      obtain hlt | rfl | hlt := Nat.lt_trichotomy m k
      · exact absurd (hopen _ hs) (hleast m hm hlt)
      · rfl
      · exact absurd hname (hleast' k hpos hlt)

theorem nameOf?_register_iff {other name : String} :
    (r.register path preferred).1.nameOf? other = some name ↔
      r.nameOf? other = some name ∨ path = other ∧ (r.register path preferred).2 = name := by
  cases hpath : r.nameOf? path with
  | some given =>
    rw [register_of_eq_some hpath, or_iff_left_of_imp]
    rintro ⟨rfl, rfl⟩
    exact hpath
  | none =>
    rw [register_of_eq_none hpath, nameOf?_assign]
    by_cases hother : path = other
    · subst hother
      simp [hpath]
    · simp [hother]

/-- **A name that is not given twice is found again** when another registry's names are
taken, too. -/
theorem Joins.register (h : Joins r r' s) (hr' : Consistent seeds paths r')
    (hs : Consistent seeds paths' s) (hagrees : r.Agrees (r'.register path preferred).1) :
    (s.register path preferred).2 = (r'.register path preferred).2 ∧
      Joins r (r'.register path preferred).1 (s.register path preferred).1 := by
  have hself := nameOf?_register_self r' path preferred
  suffices hname : (s.register path preferred).2 = (r'.register path preferred).2 by
    refine ⟨hname, fun other name => ?_⟩
    rw [nameOf?_register_iff, nameOf?_register_iff, hname, h, or_assoc]
  cases hpath : s.nameOf? path with
  | some name =>
    rw [register_of_eq_some hpath]
    obtain hr | hr' := (h path name).1 hpath
    · exact hagrees.name_eq hr hself
    · rw [register_of_eq_some hr']
  | none =>
    have hnone : r'.nameOf? path = none := by
      refine Option.eq_none_iff_forall_ne_some.2 fun name hname => ?_
      rw [(h path name).2 (.inr hname)] at hpath
      cases hpath
    -- what is open in the joined registry is so in the second one
    have hopen (name : String) : s.isOpenTo path name = true ↔
        name ∉ seeds ∧ ∀ other, r.nameOf? other ≠ some name ∧ r'.nameOf? other ≠ some name := by
      rw [hs.isOpenTo hpath, ← hs.isFree_iff, IsFree]
      refine and_congr_right fun _ => forall_congr' fun other => ?_
      rw [Ne, h, not_or]
    have hopen' (name : String) : r'.isOpenTo path name = true ↔
        name ∉ seeds ∧ ∀ other, r'.nameOf? other ≠ some name := by
      rw [hr'.isOpenTo hnone, ← hr'.isFree_iff, IsFree]
    rw [register_of_eq_none hnone] at hself hagrees ⊢
    rw [register_of_eq_none hpath]
    refine openName_congr (fun name hname => ?_) ?_
    · obtain ⟨hseed, hfree⟩ := (hopen name).1 hname
      exact (hopen' name).2 ⟨hseed, fun other => (hfree other).2⟩
    · obtain ⟨hseed, hfree⟩ := (hopen' _).1 (openName_spec r' path preferred).1
      refine (hopen _).2 ⟨hseed, fun other => ⟨fun hother => ?_, hfree other⟩⟩
      obtain rfl : other = path := hagrees.path_eq hother hself
      rw [(h other _).2 (.inl hother)] at hpath
      cases hpath

end Registry

/-! ## Doing the same with more names -/

/-- The second output has the names of the first, and those of a registry besides. -/
structure Joined (seeds : List String) (r : Registry) (o s : Output) : Prop where
  names : Registry.Joins r o.registry s.registry
  first : ∃ paths, Registry.Consistent seeds paths o.registry
  second : ∃ paths, Registry.Consistent seeds paths s.registry

/-- The host decides by the name and the content alone. -/
def Host.IsSteady (host : Host) : Prop :=
  ∀ before before' name content, host.refuses before name content =
    host.refuses before' name content

/-- If one fails, then by the files, or by a host that does not mind what it was offered
before. -/
def Alike (host : Host) (done done' : Transferred) : Prop :=
  host.IsSteady ∨ done.failure = none ∧ done'.failure = none

/-- With more names the thing sends the same, and fails if it fails without, as long as
these names agree with those that it gives. -/
def InStep (host : Host) (seeds : List String) (r : Registry) (run : Output → Transferred)
    (sent : Output → List (String × String)) : Prop :=
  ∀ o s : Output, Joined seeds r o s → r.Agrees (run o).output.registry →
    Alike host (run o) (run s) →
    (run s).failure = (run o).failure ∧ sent s = sent o ∧
      Joined seeds r (run o).output (run s).output

section

variable {seeds : List String} {r : Registry} {files : FileTree} {host : Host}
variable {assetBase source key : String} {o s : Output}

/-- Where no names are given, names stay joined. -/
theorem Joined.of_eq (h : Joined seeds r o s) {o' s' : Output}
    (ho : o'.registry.given = o.registry.given ∧ o'.registry.names = o.registry.names)
    (hs : s'.registry.given = s.registry.given ∧ s'.registry.names = s.registry.names) :
    Joined seeds r o' s' := by
  refine ⟨fun path name => ?_, ?_, ?_⟩
  · have hsecond : s'.registry.nameOf? path = s.registry.nameOf? path := by
      rw [Registry.nameOf?, hs.1, Registry.nameOf?]
    have hfirst : o'.registry.nameOf? path = o.registry.nameOf? path := by
      rw [Registry.nameOf?, ho.1, Registry.nameOf?]
    rw [hsecond, hfirst]
    exact h.names path name
  · obtain ⟨paths, hr⟩ := h.first
    exact (Registry.Continues.of_eq ho.1 ho.2).consistent hr
  · obtain ⟨paths, hr⟩ := h.second
    exact (Registry.Continues.of_eq hs.1 hs.2).consistent hr

/-- A transfer gives no names. -/
theorem names_transfer (files : FileTree) (host : Host) (source key : String) (o : Output) :
    (transfer files host source key o).output.registry.given = o.registry.given ∧
      (transfer files host source key o).output.registry.names = o.registry.names := by
  unfold transfer Output.emit
  split
  · exact ⟨rfl, rfl⟩
  · exact ⟨rfl, rfl⟩
  · dsimp only
    split <;> exact ⟨rfl, rfl⟩
  · exact ⟨rfl, rfl⟩

/-- Whether a transfer fails is a matter of the files and the host. -/
theorem failure_transfer
    (h : Alike host (transfer files host source key o) (transfer files host source key s)) :
    (transfer files host source key s).failure = (transfer files host source key o).failure := by
  obtain hsteady | ⟨hdone, hdone'⟩ := h
  · unfold transfer Output.emit
    split
    · rfl
    · rfl
    · dsimp only
      rw [hsteady s.offered o.offered]
      split <;> rfl
    · rfl
  · rw [hdone, hdone']

theorem continues_transfer (files : FileTree) (host : Host) (source key : String) (o : Output) :
    o.registry.Continues (transfer files host source key o).output.registry :=
  .of_eq (names_transfer files host source key o).1 (names_transfer files host source key o).2

theorem inStep_transfer (files : FileTree) (host : Host) (source key : String) :
    InStep host seeds r (transfer files host source key) fun _ => sent files source key :=
  fun o s h _ halike => ⟨failure_transfer halike, rfl,
    h.of_eq (names_transfer files host source key o) (names_transfer files host source key s)⟩

/-- A library that has its name is transferred like any other file. -/
theorem transferLibrary_eq (files : FileTree) (host : Host) (assetBase : String)
    (f : String × String) (o : Output) :
    transferLibrary files host assetBase f o =
      transfer files host f.1 (assetBase ++ (o.registry.register f.1 f.2).2)
        { o with registry := (o.registry.register f.1 f.2).1 } :=
  rfl

theorem continues_transferLibrary (files : FileTree) (host : Host) (assetBase : String)
    (f : String × String) (o : Output) :
    o.registry.Continues (transferLibrary files host assetBase f o).output.registry := by
  rw [transferLibrary_eq]
  exact (Registry.Continues.register o.registry f.1 f.2).trans (continues_transfer files host _ _
    { o with registry := (o.registry.register f.1 f.2).1 })

theorem inStep_transferLibrary (files : FileTree) (host : Host) (assetBase : String)
    (f : String × String) :
    InStep host seeds r (transferLibrary files host assetBase f)
      fun o => sent files f.1 (assetBase ++ (o.registry.register f.1 f.2).2) := by
  intro o s h hagrees halike
  obtain ⟨paths, ho⟩ := h.first
  obtain ⟨paths', hs⟩ := h.second
  rw [transferLibrary_eq] at hagrees
  rw [transferLibrary_eq, transferLibrary_eq] at halike ⊢
  obtain ⟨hname, hjoins⟩ := h.names.register ho hs (hagrees.of_continues
    (continues_transfer files host _ _ { o with registry := (o.registry.register f.1 f.2).1 }))
  have hjoined : Joined seeds r { o with registry := (o.registry.register f.1 f.2).1 }
      { s with registry := (s.registry.register f.1 f.2).1 } :=
    ⟨hjoins, ⟨_, ho.register f.1 f.2⟩, ⟨_, hs.register f.1 f.2⟩⟩
  dsimp only
  rw [hname] at halike ⊢
  exact inStep_transfer files host f.1 _ _ _ hjoined hagrees halike

theorem continues_each {α : Type} {run : α → Output → Transferred}
    (hcontinues : ∀ x (o : Output), o.registry.Continues (run x o).output.registry) (xs : List α)
    (o : Output) : o.registry.Continues (runEach run xs o).output.registry := by
  induction xs generalizing o with
  | nil => exact .refl _
  | cons x rest ih =>
    rw [runEach, Transferred.andThen]
    split
    · exact (hcontinues x o).trans (ih _)
    · exact hcontinues x o

theorem continues_transferAll (files : FileTree) (host : Host) (found : List (String × String))
    (o : Output) : o.registry.Continues (transferAll files host found o).output.registry := by
  have hrun (f : String × String) (o : Output) :
      o.registry.Continues (transfer files host f.1 f.2 o).output.registry :=
    continues_transfer files host f.1 f.2 o
  rw [transferAll_eq]
  exact continues_each hrun found o

theorem continues_transferLibraries (files : FileTree) (host : Host) (assetBase : String)
    (found : List (String × String)) (o : Output) :
    o.registry.Continues (transferLibraries files host assetBase found o).output.registry := by
  rw [transferLibraries_eq]
  exact continues_each (continues_transferLibrary files host assetBase) found o

theorem Alike.first {done done' : Transferred} {next : Output → Transferred}
    (h : Alike host (done.andThen next) (done'.andThen next)) : Alike host done done' := by
  have hnone {done : Transferred} (h : (done.andThen next).failure = none) :
      done.failure = none := by
    cases hfailure : done.failure with
    | none => rfl
    | some e =>
      rw [Transferred.andThen, hfailure] at h
      exact hfailure.symm.trans h
  exact h.imp id fun hdone => ⟨hnone hdone.1, hnone hdone.2⟩

theorem Alike.rest {done done' : Transferred} {next : Output → Transferred}
    (h : Alike host (done.andThen next) (done'.andThen next)) (hdone : done.failure = none)
    (hdone' : done'.failure = none) : Alike host (next done.output) (next done'.output) := by
  rwa [Transferred.andThen, Transferred.andThen, hdone, hdone'] at h

/-- **Over a list**: what is done in step one by one is done in step. -/
theorem inStep_each {α : Type} {run : α → Output → Transferred}
    {sent : α → Output → List (String × String)} {xs : List α}
    (hcontinues : ∀ x (o : Output), o.registry.Continues (run x o).output.registry)
    (h : ∀ x ∈ xs, InStep host seeds r (run x) (sent x)) :
    InStep host seeds r (runEach run xs) (sentEach run sent xs) := by
  induction xs with
  | nil => exact fun o s hjoined _ _ => ⟨rfl, rfl, hjoined⟩
  | cons x rest ih =>
    have hrest := ih fun y hy => h y (List.mem_cons_of_mem _ hy)
    intro o s hjoined hagrees halike
    have hfirst : r.Agrees (run x o).output.registry := by
      refine hagrees.of_continues ?_
      rw [runEach, Transferred.andThen]
      split
      · exact continues_each hcontinues rest _
      · exact .refl _
    rw [runEach, runEach] at halike
    obtain ⟨hfailure, hsent, hafter⟩ := h x List.mem_cons_self o s hjoined hfirst halike.first
    rw [runEach, Transferred.andThen] at hagrees
    rw [runEach, runEach, sentEach, sentEach, Transferred.andThen, Transferred.andThen, hfailure,
      hsent]
    cases hdone : (run x o).failure with
    | some e => exact ⟨hfailure.trans rfl, rfl, hafter⟩
    | none =>
      rw [hdone] at hagrees
      obtain ⟨hfailure', hsent', hafter'⟩ := hrest _ _ hafter hagrees
        (halike.rest hdone (hfailure.trans hdone))
      exact ⟨hfailure', congrArg (sent x o ++ ·) hsent', hafter'⟩

theorem continues_runTask (files : FileTree) (host : Host) (assetBase : String) (task : AssetTask)
    (o : Output) : o.registry.Continues (runTask files host assetBase task o).output.registry := by
  cases task with
  | file source name => exact continues_transfer files host _ _ o
  | directory source name =>
    rw [runTask]
    split
    · exact .refl _
    · exact continues_transferAll files host _ o
  | sharedLibraries packageBase =>
    rw [runTask, transferSharedLibraries]
    split
    · exact .refl _
    · exact continues_transferLibraries files host assetBase _ o

/-- **One task.** -/
theorem inStep_runTask (files : FileTree) (host : Host) (assetBase : String) (task : AssetTask) :
    InStep host seeds r (runTask files host assetBase task) (sentTask files host assetBase task) := by
  cases task with
  | file source name => exact inStep_transfer files host source _
  | directory source name =>
    intro o s h hagrees halike
    rw [runTask] at hagrees
    rw [runTask, runTask] at halike
    rw [runTask, runTask, sentTask, sentTask]
    cases hfound : assetsBelow files isDirectoryAsset source with
    | error e => exact ⟨rfl, rfl, h⟩
    | ok found =>
      rw [hfound] at hagrees halike
      dsimp only at hagrees halike ⊢
      rw [transferAll_eq] at hagrees
      rw [transferAll_eq, transferAll_eq] at halike ⊢
      have hrun (f : String × String) (o : Output) :
          o.registry.Continues (transfer files host f.1 f.2 o).output.registry :=
        continues_transfer files host f.1 f.2 o
      exact inStep_each hrun (fun f _ => inStep_transfer files host f.1 f.2) o s h hagrees halike
  | sharedLibraries packageBase =>
    intro o s h hagrees halike
    rw [runTask, transferSharedLibraries] at hagrees
    rw [runTask, runTask, transferSharedLibraries, transferSharedLibraries] at halike
    rw [runTask, runTask, sentTask, sentTask, transferSharedLibraries, transferSharedLibraries,
      sentLibraries, sentLibraries]
    cases hfound : assetsBelow files isSharedLibrary packageBase with
    | error e => exact ⟨rfl, rfl, h⟩
    | ok found =>
      rw [hfound] at hagrees halike
      dsimp only at hagrees halike ⊢
      rw [transferLibraries_eq] at hagrees
      rw [transferLibraries_eq, transferLibraries_eq] at halike ⊢
      exact inStep_each (continues_transferLibrary files host assetBase)
        (fun f _ => inStep_transferLibrary files host assetBase f) o s h hagrees halike

theorem continues_runTasks (files : FileTree) (host : Host) (assetBase : String)
    (tasks : List AssetTask) (o : Output) :
    o.registry.Continues (runTasks files host assetBase tasks o).output.registry := by
  rw [runTasks_eq]
  exact continues_each (continues_runTask files host assetBase) tasks o

/-- **All tasks.** -/
theorem inStep_runTasks (files : FileTree) (host : Host) (assetBase : String)
    (tasks : List AssetTask) :
    InStep host seeds r (runTasks files host assetBase tasks)
      (sentTasks files host assetBase tasks) := by
  rw [funext (runTasks_eq files host assetBase tasks)]
  exact inStep_each (continues_runTask files host assetBase) fun task _ =>
    inStep_runTask files host assetBase task

/-- From one output, the names of two lists of tasks are those of both together. -/
theorem joined_runTasks {paths : List String} (files : FileTree) (host : Host)
    (assetBase : String) (ho : Registry.Consistent seeds paths o.registry) (tasks : List AssetTask) :
    Joined seeds (runTasks files host assetBase tasks o).output.registry o
      (runTasks files host assetBase tasks o).output := by
  have hcontinues := continues_runTasks files host assetBase tasks o
  exact ⟨fun path name => (or_iff_left_of_imp hcontinues.kept).symm, ⟨paths, ho⟩,
    hcontinues.consistent ho⟩

end

/-! ## Two commits -/

/-- All that goes to one key is from one path. -/
def OneSource (sent : List (String × String)) : Prop :=
  ∀ t ∈ sent, ∀ t' ∈ sent, t.2 = t'.2 → t.1 = t'.1

/-- Where each key has one source, the order of what is sent does not matter. -/
theorem OneSource.settleAll_comm {first second : List (String × String)}
    (h : OneSource (first ++ second)) (files : FileTree) (key : String)
    (before : Option Nat × Option String × Option ByteArray) :
    settleAll files key (first ++ second) before = settleAll files key (second ++ first) before := by
  have hmem (t : String × String) : t ∈ second ++ first ↔ t ∈ first ++ second :=
    List.perm_append_comm.mem_iff
  -- a key that nothing is sent to has any source
  obtain ⟨path, honly⟩ : ∃ path, ∀ t ∈ first ++ second, t.2 = key → t.1 = path := by
    by_cases hkey : ∃ t ∈ first ++ second, t.2 = key
    · obtain ⟨t, ht, rfl⟩ := hkey
      exact ⟨t.1, fun t' ht' => h t' ht' t ht⟩
    · exact ⟨key, fun t ht heq => absurd ⟨t, ht, heq⟩ hkey⟩
  rw [settleAll_eq honly, settleAll_eq fun t ht => honly t ((hmem t).1 ht)]
  exact if_congr (hmem _).symm rfl rfl

namespace Build

variable {b : Build} {files : FileTree} {host : Host} {a : Analysis} {o : Output}

theorem commit_ok_iff : (b.commit files host a o).result = .ok a.relocated ↔
    (runTasks files host b.options.assetBase a.tasks o).failure = none := by
  unfold commit
  dsimp only
  cases (runTasks files host b.options.assetBase a.tasks o).failure with
  | some e => exact ⟨nofun, nofun⟩
  | none => exact ⟨fun _ => rfl, fun _ => rfl⟩

/-- No step of a build takes a name away. -/
theorem continues_step (hb : b.specialCases ⊆ SpecialCase.all) (host : Host) (p : Progress)
    (s : Step) : p.output.registry.Continues (b.step host p s).output.registry := by
  cases s with
  | analyze files id source =>
    rw [step]
    unfold analyzed
    split
    · exact .refl _
    · rename_i ha
      exact (isNamed_analyze hb ha).1
  | commit files number =>
    rw [step]
    unfold committed
    split
    · exact .refl _
    · rw [output_commit]
      exact continues_runTasks files host _ _ _
  | addon files id content =>
    exact (sends_relocateAddon b files host id content [] p.output).registry

theorem continues_run (hb : b.specialCases ⊆ SpecialCase.all) (host : Host) (steps : List Step) :
    b.start.registry.Continues (b.run host steps).output.registry := by
  have hfold (p : Progress) : p.output.registry.Continues
      (steps.foldl (b.step host) p).output.registry := by
    induction steps generalizing p with
    | nil => exact .refl _
    | cons s rest ih => exact (continues_step hb host p s).trans (ih _)
  exact hfold ⟨b.start, [], [], []⟩

/-- If the commits alone agree on names, the second one does what it does alone, and the
names are those of both. -/
theorem commit_after {seeds paths : List String} {x y : Analysis}
    (ho : Registry.Consistent seeds paths o.registry)
    (hagrees : (b.commit files host x o).output.registry.Agrees
      (b.commit files host y o).output.registry)
    (halike : host.IsSteady ∨ (b.commit files host y o).result = .ok y.relocated ∧
      (b.commit files host y (b.commit files host x o).output).result = .ok y.relocated) :
    let after := b.commit files host y (b.commit files host x o).output
    (after.result = .ok y.relocated ↔ (b.commit files host y o).result = .ok y.relocated) ∧
      sentTasks files host b.options.assetBase y.tasks (b.commit files host x o).output =
        sentTasks files host b.options.assetBase y.tasks o ∧
      Joined seeds (b.commit files host x o).output.registry (b.commit files host y o).output
        after.output := by
  intro after
  have hjoined := joined_runTasks files host b.options.assetBase ho x.tasks
  rw [output_commit, output_commit] at hagrees
  rw [commit_ok_iff, commit_ok_iff, output_commit] at halike
  obtain ⟨hfailure, hsent, hafter⟩ :=
    inStep_runTasks files host b.options.assetBase y.tasks o _ hjoined hagrees halike
  refine ⟨?_, ?_, ?_⟩
  · rw [commit_ok_iff, commit_ok_iff, output_commit, hfailure]
  · rw [output_commit, hsent]
  · rwa [output_commit, output_commit, output_commit, output_commit]

/-- What two commits that are done leave under a key. -/
theorem held_commit_commit {x y : Analysis} (hx : (b.commit files host x o).result = .ok x.relocated)
    (hy : (b.commit files host y (b.commit files host x o).output).result = .ok y.relocated)
    (key : String) :
    (b.commit files host y (b.commit files host x o).output).output.held key =
      settleAll files key
        (sentTasks files host b.options.assetBase x.tasks o ++
          sentTasks files host b.options.assetBase y.tasks (b.commit files host x o).output)
        (o.held key) := by
  rw [commit_ok_iff] at hx hy
  rw [output_commit, settles_runTasks _ _ _ _ _ hy, settleAll_append]
  rw [output_commit, settles_runTasks _ _ _ _ _ hx]

/-- **The order of two commits.** After any steps of a build, two analyses are committed
in either order, to a host that is steady or does all of it. Both orders give the same names
exactly if the commits alone agree on them. If they do, and both are done and all that goes
to one key is from one path, then the second commit is done in both orders, and there are
the same modes, links and contents under all keys. -/
theorem commits_commute (hb : b.specialCases ⊆ SpecialCase.all) (host : Host) (steps : List Step)
    (files : FileTree) (x y : Analysis) :
    let o := (b.run host steps).output
    let alone (a : Analysis) := b.commit files host a o
    let both (first second : Analysis) := b.commit files host second (alone first).output
    let sent (a : Analysis) := sentTasks files host b.options.assetBase a.tasks o
    host.IsSteady ∨ ((alone x).result = .ok x.relocated ∧ (both x y).result = .ok y.relocated) ∧
        (alone y).result = .ok y.relocated ∧ (both y x).result = .ok x.relocated →
      ((∀ t, t ∈ (both x y).output.registry.assets ↔ t ∈ (both y x).output.registry.assets) ↔
        (alone x).output.registry.Agrees (alone y).output.registry) ∧
      ((alone x).output.registry.Agrees (alone y).output.registry →
        (alone x).result = .ok x.relocated → (alone y).result = .ok y.relocated →
        OneSource (sent x ++ sent y) →
        (both x y).result = .ok y.relocated ∧ (both y x).result = .ok x.relocated ∧
          ∀ key, (both x y).output.held key = (both y x).output.held key) := by
  intro o alone both sent hhost
  have hx : host.IsSteady ∨ (alone x).result = .ok x.relocated ∧
      (both y x).result = .ok x.relocated :=
    hhost.imp id fun h => ⟨h.1.1, h.2.2⟩
  have hy : host.IsSteady ∨ (alone y).result = .ok y.relocated ∧
      (both x y).result = .ok y.relocated :=
    hhost.imp id fun h => ⟨h.2.1, h.1.2⟩
  obtain ⟨paths, ho⟩ := (continues_run hb host steps).consistent
    (Registry.consistent_ofExisting b.options.existingAssetNames)
  have hcontinues (a : Analysis) (o : Output) :
      o.registry.Continues (b.commit files host a o).output.registry := by
    rw [output_commit]
    exact continues_runTasks files host _ _ _
  have hassets (first second : Analysis) (path name : String) :
      (path, name) ∈ (both first second).output.registry.assets ↔
        (both first second).output.registry.nameOf? path = some name := by
    obtain ⟨paths', hfirst⟩ := (hcontinues first o).consistent ho
    obtain ⟨paths'', hboth⟩ := (hcontinues second _).consistent hfirst
    exact hboth.mem_assets
  refine ⟨⟨fun hsame => ?_, fun hagrees => ?_⟩, fun hagrees hdonex hdoney honly => ?_⟩
  · -- both names are there in the end, and there no name has two paths
    have hlater {path name : String} (hname : (alone y).output.registry.nameOf? path = some name) :
        (both x y).output.registry.nameOf? path = some name :=
      (hassets x y path name).1 ((hsame _).2 ((hassets y x path name).2
        ((hcontinues x _).kept hname)))
    refine ⟨fun h h' => ?_, fun h h' => ?_⟩
    · exact Option.some.inj (((hcontinues y _).kept h).symm.trans (hlater h'))
    · obtain ⟨paths', hfirst⟩ := (hcontinues x o).consistent ho
      obtain ⟨paths'', hboth⟩ := (hcontinues y _).consistent hfirst
      exact hboth.path_eq ((hcontinues y _).kept h) (hlater h')
  · rintro ⟨path, name⟩
    have hnames := (commit_after ho hagrees hy).2.2.names path name
    have hnames' := (commit_after ho hagrees.symm hx).2.2.names path name
    exact (hassets x y path name).trans (hnames.trans
      (or_comm.trans (hnames'.symm.trans (hassets y x path name).symm)))
  · obtain ⟨hdone, hsent, -⟩ := commit_after ho hagrees hy
    obtain ⟨hdone', hsent', -⟩ := commit_after ho hagrees.symm hx
    refine ⟨hdone.2 hdoney, hdone'.2 hdonex, fun key => ?_⟩
    rw [held_commit_commit hdonex (hdone.2 hdoney), held_commit_commit hdoney (hdone'.2 hdonex),
      hsent, hsent']
    exact honly.settleAll_comm files key _

/-! ### Packages with a library each -/

/-- Three packages, each with an addon and a shared library. In two of them the library
is at the same place. -/
def threeLibraries : FileTree :=
  let package (addon library : String) : Node := .directory
    [(addon, .file ByteArray.empty 0o644),
      ("lib", .directory [(library, .file addon.toUTF8 0o644)])]
  ⟨.directory [("p", .directory [("node_modules", .directory
    [("a", package "a.node" "z.so"), ("b", package "b.node" "z.so"),
      ("c", package "c.node" "y.so")])])]⟩

/-- A module of each package loads the addon. -/
def loadAll : List Step :=
  [.analyze threeLibraries "/p/node_modules/a/i.js" "require('./a.node')",
    .analyze threeLibraries "/p/node_modules/b/i.js" "require('./b.node')",
    .analyze threeLibraries "/p/node_modules/c/i.js" "require('./c.node')"]

/-- The analysis of such a module. -/
def loading (base addon : String) : Analysis where
  id := base ++ "/i.js"
  source := "require('./" ++ addon ++ "')"
  patch := ⟨19, [⟨⟨0, 19⟩, "__non_webpack_require__(__dirname + '/" ++ addon ++ "')"⟩], []⟩
  tasks := [.sharedLibraries base, .file (base ++ "/" ++ addon) addon]

/-- What there is after the analyses: the addons have names. -/
def loaded : Output where
  registry :=
    { given := [("/p/node_modules/a/a.node", "a.node"), ("/p/node_modules/b/b.node", "b.node"),
        ("/p/node_modules/c/c.node", "c.node")]
      names := [("a.node", some "/p/node_modules/a/a.node"),
        ("b.node", some "/p/node_modules/b/b.node"), ("c.node", some "/p/node_modules/c/c.node")]
      permissions := []
      symlinks := [] }
  offered := []
  emitted := []

theorem run_loadAll :
    ((ofOptions default).run .open_ loadAll).output = loaded ∧
      ((ofOptions default).run .open_ loadAll).analyses =
        [loading "/p/node_modules/a" "a.node", loading "/p/node_modules/b" "b.node",
          loading "/p/node_modules/c" "c.node"] := by
  generalize hp : (ofOptions default).run .open_ loadAll = p
  have hrun : (p.output.registry, p.output.offered, p.output.emitted, p.analyses) =
      (loaded.registry, [], [], [loading "/p/node_modules/a" "a.node",
        loading "/p/node_modules/b" "b.node", loading "/p/node_modules/c" "c.node"]) := by
    rw [← hp]
    decide +kernel
  obtain ⟨⟨registry, offered, emitted⟩, analyses, tasks, sent⟩ := p
  cases hrun
  exact ⟨rfl, rfl⟩

/-- Of what the two registries were given, the same path has the same name. -/
def givenAgree (r r' : Registry) : Bool :=
  r.given.all fun entry => r'.given.all fun entry' =>
    (entry.1 == entry'.1) == (entry.2 == entry'.2)

/-- What two registries were given decides whether they agree. -/
theorem agrees_of_given {r r' : Registry} (h : givenAgree r r' = true) : r.Agrees r' := by
  have hsame {path path' name name' : String} (hname : r.nameOf? path = some name)
      (hname' : r'.nameOf? path' = some name') : path = path' ↔ name = name' := by
    rw [Registry.nameOf?, Option.map_eq_some_iff] at hname hname'
    obtain ⟨⟨p, n⟩, hentry, rfl⟩ := hname
    obtain ⟨⟨p', n'⟩, hentry', rfl⟩ := hname'
    have hp := List.find?_some hentry
    have hp' := List.find?_some hentry'
    obtain rfl : p = path := eq_of_beq hp
    obtain rfl : p' = path' := eq_of_beq hp'
    have hall := List.all_eq_true.1 (List.all_eq_true.1 h _ (List.mem_of_find?_eq_some hentry)) _
      (List.mem_of_find?_eq_some hentry')
    simpa using hall
  exact ⟨fun hname hname' => (hsame hname hname').1 rfl,
    fun hname hname' => (hsame hname hname').2 rfl⟩

/-- What there is after two commits. -/
def commitTwo (first second : Analysis) : Committed :=
  (ofOptions default).commit threeLibraries .open_ second
    ((ofOptions default).commit threeLibraries .open_ first
      ((ofOptions default).run .open_ loadAll).output).output

theorem output_commitTwo (first second : Analysis) :
    (commitTwo first second).output =
      (runTasks threeLibraries .open_ "" second.tasks
        (runTasks threeLibraries .open_ "" first.tasks loaded).output).output := by
  rw [commitTwo, output_commit, output_commit, run_loadAll.1]
  rfl

theorem commitTwo_ok_iff {first second : Analysis} :
    (commitTwo first second).result = .ok second.relocated ↔
      (runTasks threeLibraries .open_ "" second.tasks
        (runTasks threeLibraries .open_ "" first.tasks loaded).output).failure = none := by
  rw [commitTwo, commit_ok_iff, output_commit, run_loadAll.1]
  rfl

/-- The first and the last package have libraries of different names. -/
theorem commits_commute_apart :
    let x := loading "/p/node_modules/a" "a.node"
    let y := loading "/p/node_modules/c" "c.node"
    (ofOptions default).specialCases ⊆ SpecialCase.all ∧
      (commitTwo x y).result = .ok y.relocated ∧ (commitTwo y x).result = .ok x.relocated ∧
      (∀ t, t ∈ (commitTwo x y).output.registry.assets ↔
        t ∈ (commitTwo y x).output.registry.assets) ∧
      ∀ key, (commitTwo x y).output.held key = (commitTwo y x).output.held key := by
  intro x y
  have hrules : (ofOptions default).specialCases ⊆ SpecialCase.all := List.Subset.refl _
  have hsteady : Host.open_.IsSteady := fun _ _ _ _ => rfl
  obtain ⟨hnames, hheld⟩ := commits_commute hrules .open_ loadAll threeLibraries x y (.inl hsteady)
  rw [run_loadAll.1] at hnames hheld
  beta_reduce at hnames hheld
  -- all at once, so that the tasks are worked out once
  obtain ⟨hx, hy, hgiven, hsent⟩ :
      let done (a : Analysis) :=
        runTasks threeLibraries .open_ (ofOptions default).options.assetBase a.tasks loaded
      (done x).failure = none ∧ (done y).failure = none ∧
        givenAgree (done x).output.registry (done y).output.registry = true ∧
        OneSource
          (sentTasks threeLibraries .open_ (ofOptions default).options.assetBase x.tasks loaded ++
            sentTasks threeLibraries .open_ (ofOptions default).options.assetBase y.tasks loaded) := by
    unfold OneSource
    decide +kernel
  have hagrees : ((ofOptions default).commit threeLibraries .open_ x loaded).output.registry.Agrees
      ((ofOptions default).commit threeLibraries .open_ y loaded).output.registry := by
    rw [output_commit, output_commit]
    dsimp only at hgiven
    exact agrees_of_given hgiven
  obtain ⟨hxy, hyx, hkeys⟩ := hheld hagrees (commit_ok_iff.2 hx) (commit_ok_iff.2 hy) hsent
  rw [commitTwo, commitTwo, run_loadAll.1]
  exact ⟨hrules, hxy, hyx, hnames.2 hagrees, hkeys⟩

/-- **With libraries at the same place in both packages the first commit takes the name.** -/
theorem libraries_by_order :
    let x := loading "/p/node_modules/a" "a.node"
    let y := loading "/p/node_modules/b" "b.node"
    x ∈ ((ofOptions default).run .open_ loadAll).analyses ∧
      y ∈ ((ofOptions default).run .open_ loadAll).analyses ∧
      (commitTwo x y).result = .ok y.relocated ∧ (commitTwo y x).result = .ok x.relocated ∧
      ("/p/node_modules/a/lib/z.so", "lib/z.so") ∈ (commitTwo x y).output.registry.assets ∧
      ("/p/node_modules/a/lib/z.so", "lib/z1.so") ∈ (commitTwo y x).output.registry.assets ∧
      (commitTwo x y).output.held "lib/z.so" = (some 0o100644, none, some "a.node".toUTF8) ∧
      (commitTwo y x).output.held "lib/z.so" = (some 0o100644, none, some "b.node".toUTF8) := by
  intro x y
  rw [run_loadAll.2, commitTwo_ok_iff, commitTwo_ok_iff, output_commitTwo, output_commitTwo]
  refine ⟨List.mem_cons_self, List.mem_cons_of_mem _ List.mem_cons_self, ?_⟩
  decide +kernel

end Build

end ModuleAssets
