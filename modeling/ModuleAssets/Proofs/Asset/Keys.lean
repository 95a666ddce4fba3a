import ModuleAssets.Proofs.Asset.Sent
/-!
# Keys — what goes to one key comes from one place

A build analyzes modules, commits analyses and emits addons, in any order and
with any files. `sent` lists all it transfers. Two transfers to one key are
from one source, if no asset was given a name inside of the name of a directory
that is copied: a directory takes the keys of all that is below it without
asking the registry, so that without the condition this fails.
-/

namespace ModuleAssets

/-! ## Runs of a build -/

namespace Build

/-- What a build is told to do. -/
inductive Step where
  /-- Analyze a module. -/
  | analyze (files : FileTree) (id source : String)
  /-- Commit one of the analyses, counted from the first. -/
  | commit (files : FileTree) (number : Nat)
  /-- Emit an addon. -/
  | addon (files : FileTree) (id : String) (content : ByteArray)

/-- The files there are at a step. -/
def Step.files : Step → FileTree
  | analyze files _ _ => files
  | commit files _ => files
  | addon files _ _ => files

/-- How far a build has come. -/
structure Progress where
  output : Output
  analyses : List Analysis
  /-- The tasks of all commits. -/
  tasks : List AssetTask
  /-- What was transferred, from where to which key. -/
  sent : List (String × String)

/-- The name that an addon should have. -/
def preferredAddon (id : String) : String :=
  (Naming.below? id ((Package.base? id).getD (Path.dirname id))).getD (Path.basename id none)

/-- An addon itself goes to the host. -/
def emitAddon (b : Build) (files : FileTree) (host : Host) (id : String) (content : ByteArray)
    (o : Output) : Transferred :=
  let (registry, name) := o.registry.register id (preferredAddon id)
  let key := b.options.assetBase ++ name
  let registry :=
    match files.target id with
    | .ok node => registry.recordPermissions key node.fullMode
    | .error _ => registry
  Output.emit host { o with registry } key content

/-- The shared libraries of an addon's package. -/
def transferAddonLibraries (b : Build) (files : FileTree) (host : Host) (id : String) (o : Output) :
    Transferred :=
  transferSharedLibraries files host b.options.assetBase
    ((Package.base? id).getD (Path.dirname id)) o

/-- What an addon sends: the shared libraries of its package, and itself. -/
def sentAddon (b : Build) (files : FileTree) (host : Host) (id : String) (o : Output) :
    List (String × String) :=
  let libraries := b.transferAddonLibraries files host id o
  sentLibraries files host b.options.assetBase ((Package.base? id).getD (Path.dirname id)) o ++
    if libraries.failure.isNone then
      [(id, b.options.assetBase ++
        (libraries.output.registry.register id (preferredAddon id)).2)]
    else []

/-- After an analysis, unless the module is refused. -/
def analyzed (b : Build) (p : Progress) (files : FileTree) (id source : String) : Progress :=
  match b.analyze files p.output.registry id source with
  | .error _ => p
  | .ok (registry, a) =>
    { p with output := { p.output with registry }, analyses := p.analyses ++ [a] }

/-- After a commit, if there is an analysis of the number. -/
def committed (b : Build) (host : Host) (p : Progress) (files : FileTree) (number : Nat) :
    Progress :=
  match p.analyses[number]? with
  | none => p
  | some a =>
    { p with
      output := (b.commit files host a p.output).output
      tasks := p.tasks ++ a.tasks
      sent := p.sent ++ sentTasks files host b.options.assetBase a.tasks p.output }

/-- After an addon. -/
def emitted (b : Build) (host : Host) (p : Progress) (files : FileTree) (id : String)
    (content : ByteArray) : Progress :=
  { p with
    output := (b.relocateAddon files host id content p.output).output
    sent := p.sent ++ b.sentAddon files host id p.output }

/-- Does one step. -/
def step (b : Build) (host : Host) (p : Progress) : Step → Progress
  | .analyze files id source => b.analyzed p files id source
  | .commit files number => b.committed host p files number
  | .addon files id content => b.emitted host p files id content

/-- Does one step after another. -/
def run (b : Build) (host : Host) (steps : List Step) : Progress :=
  steps.foldl (b.step host) ⟨b.start, [], [], []⟩

/-! ## One step -/

/-- All that is in the output was sent and has an origin, and the tasks of all
analyses have the names of their assets. -/
structure Progress.Sound (b : Build) (p : Progress) : Prop where
  sends : Sends b.options.assetBase p.tasks b.start p.sent p.output
  named : ∀ a ∈ p.analyses, ∀ task ∈ a.tasks, task.IsNamed p.output.registry

variable {b : Build} {host : Host} {p : Progress}

theorem output_commit (b : Build) (files : FileTree) (host : Host) (a : Analysis) (o : Output) :
    (b.commit files host a o).output =
      (runTasks files host b.options.assetBase a.tasks o).output := by
  unfold commit
  dsimp only
  split <;> rfl

theorem output_relocateAddon (b : Build) (files : FileTree) (host : Host) (id : String)
    (content : ByteArray) (o : Output) :
    (b.relocateAddon files host id content o).output =
      ((b.transferAddonLibraries files host id o).andThen
        (b.emitAddon files host id content)).output := by
  unfold relocateAddon
  dsimp only
  split <;> rfl

theorem sends_emitAddon (b : Build) (files : FileTree) (host : Host) (id : String)
    (content : ByteArray) (tasks : List AssetTask) (o : Output) :
    Sends b.options.assetBase tasks o
      [(id, b.options.assetBase ++ (o.registry.register id (preferredAddon id)).2)]
      (b.emitAddon files host id content o).output := by
  have hname := Registry.nameOf?_register_self o.registry id (preferredAddon id)
  have hnamed : Sends b.options.assetBase tasks o [] _ := .register o id (preferredAddon id)
  unfold emitAddon
  dsimp only
  split
  · exact hnamed.append ((Sends.recordPermissions _ _ _).append (.emit _ content
      (.named (Registry.Continues.kept (.recordPermissions _ _ _) hname))))
  · exact hnamed.append (.emit _ content (.named hname))

theorem sends_relocateAddon (b : Build) (files : FileTree) (host : Host) (id : String)
    (content : ByteArray) (tasks : List AssetTask) (o : Output) :
    Sends b.options.assetBase tasks o (b.sentAddon files host id o)
      (b.relocateAddon files host id content o).output := by
  have hlibraries := sends_libraries files host b.options.assetBase
    ((Package.base? id).getD (Path.dirname id)) tasks o
  rw [output_relocateAddon, sentAddon, transferAddonLibraries, Transferred.andThen]
  cases (transferSharedLibraries files host b.options.assetBase
    ((Package.base? id).getD (Path.dirname id)) o).failure with
  | some e =>
    rw [Option.isNone_some, if_neg Bool.false_ne_true, List.append_nil]
    exact hlibraries
  | none =>
    rw [Option.isNone_none, if_pos rfl]
    exact hlibraries.append (sends_emitAddon b files host id content tasks _)

namespace Progress.Sound

theorem named_of_continues (h : p.Sound b) {r : Registry} (hr : p.output.registry.Continues r) :
    ∀ a ∈ p.analyses, ∀ task ∈ a.tasks, task.IsNamed r :=
  fun a ha task htask => (h.named a ha task htask).mono hr

theorem analyzed (hb : b.specialCases ⊆ SpecialCase.all) (h : p.Sound b) (files : FileTree)
    (id source : String) : (b.analyzed p files id source).Sound b := by
  unfold Build.analyzed
  split
  · exact h
  · rename_i registry a ha
    obtain ⟨hregistry, hlinks, htasks⟩ := isNamed_analyze hb ha
    refine ⟨?_, fun a' ha' => ?_⟩
    · have hsends : Sends b.options.assetBase p.tasks p.output [] { p.output with registry } :=
        ⟨hregistry, fun _ => nofun, fun _ => .inl, fun key hkey => .inl (hlinks ▸ hkey)⟩
      have hall := h.sends.append hsends
      rwa [List.append_nil] at hall
    · obtain ha' | ha' := List.mem_append.1 ha'
      · exact h.named_of_continues hregistry a' ha'
      · exact List.mem_singleton.1 ha' ▸ htasks

theorem committed (h : p.Sound b) (host : Host) {files : FileTree}
    (hfiles : files.root.isPlain = true) (number : Nat) :
    (b.committed host p files number).Sound b := by
  unfold Build.committed
  split
  · exact h
  · rename_i a hnumber
    have hsends := sends_runTasks hfiles host b.options.assetBase
      (h.named a (List.mem_of_getElem? hnumber))
    rw [← output_commit b files host a p.output] at hsends
    exact ⟨(h.sends.mono (List.subset_append_left _ _)).append
      (hsends.mono (List.subset_append_right _ _)), h.named_of_continues hsends.registry⟩

theorem emitted (h : p.Sound b) (host : Host) (files : FileTree) (id : String)
    (content : ByteArray) : (b.emitted host p files id content).Sound b := by
  have hsends := sends_relocateAddon b files host id content p.tasks p.output
  rw [Build.emitted]
  exact ⟨h.sends.append hsends, h.named_of_continues hsends.registry⟩

/-- **One step.** -/
theorem step (hb : b.specialCases ⊆ SpecialCase.all) (h : p.Sound b) (s : Step)
    (hfiles : s.files.root.isPlain = true) : (b.step host p s).Sound b := by
  cases s with
  | analyze files id source => exact h.analyzed hb files id source
  | commit files number => exact h.committed host hfiles number
  | addon files id content => exact h.emitted host files id content

end Progress.Sound

/-- **The whole run.** -/
theorem sound_run (hb : b.specialCases ⊆ SpecialCase.all) (host : Host) (steps : List Step)
    (hfiles : ∀ s ∈ steps, s.files.root.isPlain = true) : (b.run host steps).Sound b := by
  have hfold : ∀ p : Progress, p.Sound b → (steps.foldl (b.step host) p).Sound b := by
    induction steps with
    | nil => exact fun p hp => hp
    | cons s rest ih =>
      intro p hp
      rw [List.foldl_cons]
      exact ih (fun s' hs' => hfiles s' (List.mem_cons_of_mem _ hs')) _
        (hp.step hb s (hfiles s List.mem_cons_self))
  exact hfold _ ⟨.refl _, fun _ => nofun⟩

end Build

/-! ## Keys -/

section

variable {assetBase : String} {tasks : List AssetTask} {r : Registry} {seeds paths : List String}

/-- No asset has a name inside of the name of a directory that is copied. -/
def NamesApart (tasks : List AssetTask) (r : Registry) : Prop :=
  ∀ directory name, .directory directory name ∈ tasks →
    ∀ path other, r.nameOf? path = some other → Text.startsWith other (name ++ "/") = false

theorem not_eq_inside (hapart : NamesApart tasks r) {directory name path other : String}
    (htask : .directory directory name ∈ tasks) (hother : r.nameOf? path = some other)
    (rest : List Char) : other.toList ≠ name.toList ++ '/' :: rest := by
  intro heq
  have hprefix : Text.startsWith other (name ++ "/") = true := by
    rw [Text.startsWith, heq, List.isPrefixOf_iff_prefix, String.toList_append]
    exact ⟨rest, by simp⟩
  rw [hapart directory name htask path other hother] at hprefix
  cases hprefix

/-- Of two directories' names none goes on inside of the other. -/
theorem below_eq_below (hr : Registry.Consistent seeds paths r) (hapart : NamesApart tasks r)
    {directory directory' name name' rest rest' : String} {cs : List Char}
    (htask : .directory directory name ∈ tasks) (h : r.nameOf? directory = some name)
    (h' : r.nameOf? directory' = some name') (hname : name'.toList = name.toList ++ cs)
    (hrest : '/' :: rest.toList = cs ++ '/' :: rest'.toList) :
    below directory rest = below directory' rest' := by
  cases cs with
  | nil =>
    rw [List.append_nil, String.toList_inj] at hname
    rw [List.nil_append, List.cons.injEq, String.toList_inj] at hrest
    rw [hr.path_eq h (hname ▸ h'), hrest.2]
  | cons c cs =>
    rw [List.cons_append, List.cons.injEq] at hrest
    exact absurd (hrest.1 ▸ hname) (not_eq_inside hapart htask h' cs)

/-- **The key tells the source.** -/
theorem Origin.source_eq (hr : Registry.Consistent seeds paths r) (hapart : NamesApart tasks r)
    {t t' : String × String} (h : Origin assetBase tasks r t) (h' : Origin assetBase tasks r t')
    (hkey : t.2 = t'.2) : t.1 = t'.1 := by
  have hinside {name rest : String} :
      (assetBase ++ name ++ "/" ++ rest).toList =
        assetBase.toList ++ (name.toList ++ '/' :: rest.toList) := by
    simp
  have hkey := congrArg String.toList hkey
  cases h with
  | named h =>
    cases h' with
    | named h' =>
      rw [String.toList_inj, String.append_right_inj] at hkey
      exact hr.path_eq h (hkey ▸ h')
    | inside h' htask =>
      rw [hinside, String.toList_append, List.append_cancel_left_eq] at hkey
      exact absurd hkey (not_eq_inside hapart htask h _)
  | inside h htask =>
    cases h' with
    | named h' =>
      rw [hinside, String.toList_append, List.append_cancel_left_eq] at hkey
      exact absurd hkey.symm (not_eq_inside hapart htask h' _)
    | inside h' htask' =>
      rw [hinside, hinside, List.append_cancel_left_eq, List.append_eq_append_iff] at hkey
      obtain ⟨cs, hname, hrest⟩ | ⟨cs, hname, hrest⟩ := hkey
      · exact below_eq_below hr hapart htask h h' hname hrest
      · exact (below_eq_below hr hapart htask' h' h hname hrest).symm

/-- **One source for each key**, over all steps of a build: what the host holds
and what links are recorded was all sent, and if no asset has a name inside of
the name of a directory that is copied, then two transfers to one key are from
one source. -/
theorem Build.source_eq_of_key_eq (b : Build) (hb : b.specialCases ⊆ SpecialCase.all) (host : Host)
    (steps : List Step) (hfiles : ∀ s ∈ steps, s.files.root.isPlain = true) :
    let p := b.run host steps
    (∀ key ∈ p.output.emitted.map (·.1), key ∈ p.sent.map (·.2)) ∧
      (∀ key ∈ p.output.registry.symlinks.map (·.1), key ∈ p.sent.map (·.2)) ∧
      (NamesApart p.tasks p.output.registry →
        ∀ source source' key, (source, key) ∈ p.sent → (source', key) ∈ p.sent →
          source = source') := by
  intro p
  have hsound := sound_run hb host steps hfiles
  obtain ⟨paths, hr⟩ := hsound.sends.registry.consistent
    (Registry.consistent_ofExisting b.options.existingAssetNames)
  refine ⟨fun key hkey => ?_, fun key hkey => ?_, fun hapart source source' key h h' => ?_⟩
  · exact (hsound.sends.emitted key hkey).resolve_left List.not_mem_nil
  · exact (hsound.sends.symlinks key hkey).resolve_left List.not_mem_nil
  · exact Origin.source_eq hr hapart (hsound.sends.origin _ h) (hsound.sends.origin _ h') rfl

end

/-! ## Two packages -/

namespace Build

/-- Two packages, each with an addon of the same name in a directory `lib`. -/
def twoPackages : FileTree :=
  let package : Node := .directory [("lib", .directory [("x.node", .file ByteArray.empty 0o644)])]
  ⟨.directory [("p", .directory [("node_modules", .directory [("a", package), ("b", package)])])]⟩

/-- The first module refers to a directory, the second to its addon; then both
are committed. -/
def directoryAndAddon (directory : String) : List Step :=
  [.analyze twoPackages "/p/node_modules/a/index.js" ("x(__dirname + '" ++ directory ++ "')"),
    .analyze twoPackages "/p/node_modules/b/index.js" "require('./lib/x.node')",
    .commit twoPackages 0, .commit twoPackages 1]

/-- What becomes of it, without any options. -/
def runBoth (directory : String) : Progress :=
  (ofOptions default).run .open_ (directoryAndAddon directory)

/-- Of what the registry was given, no name begins with that of a planned directory. -/
def givenApart (tasks : List AssetTask) (r : Registry) : Bool :=
  tasks.all fun task => r.given.all fun entry =>
    match task with
    | .directory _ name => !Text.startsWith entry.2 (name ++ "/")
    | _ => true

/-- What a registry was given decides whether its names are apart. -/
theorem namesApart_of_given {tasks : List AssetTask} {r : Registry}
    (h : givenApart tasks r = true) : NamesApart tasks r := by
  intro directory name htask path other hother
  rw [Registry.nameOf?, Option.map_eq_some_iff] at hother
  obtain ⟨entry, hentry, rfl⟩ := hother
  have hgiven := List.all_eq_true.1 (List.all_eq_true.1 h _ htask) entry
    (List.mem_of_find?_eq_some hentry)
  simpa using hgiven

/-- The package's own directory has another name and takes other keys. -/
theorem source_eq_of_key_eq_addon :
    (ofOptions default).specialCases ⊆ SpecialCase.all ∧
      (∀ s ∈ directoryAndAddon "/../a", s.files.root.isPlain = true) ∧
      NamesApart (runBoth "/../a").tasks (runBoth "/../a").output.registry ∧
      (runBoth "/../a").sent =
        [("/p/node_modules/a/lib/x.node", "a/lib/x.node"),
          ("/p/node_modules/b/lib/x.node", "lib/x.node")] ∧
      ∀ source source' key, (source, key) ∈ (runBoth "/../a").sent →
        (source', key) ∈ (runBoth "/../a").sent → source = source' := by
  have hfiles : ∀ s ∈ directoryAndAddon "/../a", s.files.root.isPlain = true := by
    decide +kernel
  -- both at once, so that the steps are worked out once
  obtain ⟨hgiven, hsent⟩ :
      givenApart (runBoth "/../a").tasks (runBoth "/../a").output.registry = true ∧
        (runBoth "/../a").sent = [("/p/node_modules/a/lib/x.node", "a/lib/x.node"),
          ("/p/node_modules/b/lib/x.node", "lib/x.node")] := by
    decide +kernel
  have hapart := namesApart_of_given hgiven
  have hkeys := source_eq_of_key_eq (ofOptions default) (List.Subset.refl _) .open_ _ hfiles
  unfold runBoth at hapart hsent ⊢
  exact ⟨List.Subset.refl _, hfiles, hapart, hsent, hkeys.2.2 hapart⟩

/-- With the name of a directory in the way, two addons go to one key. -/
theorem sent_of_directory_and_addon :
    (runBoth "/lib").sent =
      [("/p/node_modules/a/lib/x.node", "lib/x.node"),
        ("/p/node_modules/b/lib/x.node", "lib/x.node")] := by
  decide +kernel

end Build

end ModuleAssets
