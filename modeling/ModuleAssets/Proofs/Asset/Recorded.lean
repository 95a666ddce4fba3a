import ModuleAssets.Proofs.Asset.Held
import ModuleAssets.Proofs.Asset.Keys
import ModuleAssets.Proofs.Relocation.Requests
/-!
# What is recorded — modes under keys, and the content that the host has

The mode of a file is recorded before the host is offered its content, and the host may
refuse that, by the content or by what it was offered before. So a run leaves modes under
the keys that it sent files to, whether the host took them or not, and everything else as
it was (`Marks`). What cannot be read is not sent, and changes nothing.
-/

namespace ModuleAssets

/-! ## Registries of an analysis -/

namespace Registry

variable {r : Registry}

theorem tables_registerAll (r : Registry) (calls : List (String × String)) :
    (r.registerAll calls).permissions = r.permissions ∧
      (r.registerAll calls).symlinks = r.symlinks := by
  induction calls generalizing r with
  | nil => exact ⟨rfl, rfl⟩
  | cons c calls ih =>
    rw [registerAll_cons, (ih _).1, (ih _).2]
    exact ⟨permissions_register r c.1 c.2, symlinks_register r c.1 c.2⟩

end Registry

/-! ## What the host took -/

/-- The host took something under the key, among all that it was offered. -/
def Host.Took (host : Host) (offered : List (String × ByteArray)) (key : String) : Prop :=
  ∃ before content after, offered = before ++ (key, content) :: after ∧
    host.refuses before key content = none

/-- The host has content under the keys that it took something under, and no others. -/
def Output.HoldsTaken (host : Host) (o : Output) : Prop :=
  ∀ key, (Json.member? o.emitted key).isSome ↔ host.Took o.offered key

section

variable {host : Host} {offered : List (String × ByteArray)} {name key : String}
  {content : ByteArray}

/-- With one more offer the host took what it took before, and this if it did not refuse. -/
theorem Host.took_concat : host.Took (offered ++ [(name, content)]) key ↔
    host.Took offered key ∨ name = key ∧ host.refuses offered name content = none := by
  refine ⟨?_, ?_⟩
  · rintro ⟨before, content', after, hsplit, htaken⟩
    -- what was taken is the last offer, or stands before it
    obtain rfl | ⟨after, last, rfl⟩ := after.eq_nil_or_concat
    · obtain ⟨rfl, hlast⟩ := List.append_inj' hsplit rfl
      obtain ⟨rfl, rfl⟩ := Prod.mk.inj (List.cons.inj hlast).1
      exact .inr ⟨rfl, htaken⟩
    · rw [List.concat_eq_append, ← List.cons_append, ← List.append_assoc] at hsplit
      exact .inl ⟨before, content', after, (List.append_inj' hsplit rfl).1, htaken⟩
  · rintro (⟨before, content', after, rfl, htaken⟩ | ⟨rfl, htaken⟩)
    · exact ⟨before, content', after ++ [(name, content)], List.append_assoc _ _ _, htaken⟩
    · exact ⟨offered, content, [], rfl, htaken⟩

/-- A host that was offered nothing has nothing. -/
theorem holdsTaken_ofRegistry (host : Host) (r : Registry) :
    (Output.ofRegistry r).HoldsTaken host := by
  refine fun key => ⟨nofun, ?_⟩
  rintro ⟨before, content, after, hsplit, -⟩
  cases (List.append_eq_nil_iff.1 hsplit.symm).2

/-- One offer. -/
theorem Output.HoldsTaken.emit {o : Output} (h : o.HoldsTaken host) (name : String)
    (content : ByteArray) : (Output.emit host o name content).output.HoldsTaken host := by
  intro key
  unfold Output.emit
  cases hrefused : host.refuses o.offered name content with
  | some reason =>
    dsimp only
    rw [Host.took_concat, hrefused, h key]
    exact ⟨.inl, fun h => h.resolve_right fun h => nomatch h.2⟩
  | none =>
    dsimp only
    rw [Host.took_concat, hrefused, Json.member?_setMember, ← h key]
    split
    · rename_i heq
      exact ⟨fun _ => .inr ⟨heq, rfl⟩, fun _ => rfl⟩
    · rename_i hne
      exact ⟨.inl, fun h => h.resolve_right fun h => hne h.1⟩

end

/-! ## What is left under keys -/

/-- Under a key that something was sent to there may be a mode, but then the host was offered
content for it. Under other keys nothing changes. The host keeps having what it took. -/
structure Marks (host : Host) (o : Output) (sent : List (String × String)) (o' : Output) :
    Prop where
  others : ∀ key, key ∉ sent.map (·.2) → o'.held key = o.held key
  offered : ∀ key ∈ sent.map (·.2), ∀ mode, o'.registry.permissions? key = some mode →
    ∃ content, (key, content) ∈ o'.offered
  grows : o.offered <+: o'.offered
  taken : o.HoldsTaken host → o'.HoldsTaken host

namespace Marks

variable {files : FileTree} {host : Host} {assetBase : String} {o o' o'' : Output}
  {first second : List (String × String)}

/-- Other names change nothing under any key. -/
theorem of_tables {r : Registry}
    (h : ∀ key, Output.held { o with registry := r } key = o.held key) :
    Marks host o [] { o with registry := r } :=
  ⟨fun key _ => h key, fun _ => nofun, List.prefix_refl _, id⟩

theorem refl (o : Output) : Marks host o [] o :=
  of_tables fun _ => rfl

theorem append (h : Marks host o first o') (h' : Marks host o' second o'') :
    Marks host o (first ++ second) o'' := by
  refine ⟨fun key hkey => ?_, fun key hkey mode hmode => ?_, h.grows.trans h'.grows,
    fun ho => h'.taken (h.taken ho)⟩
  · rw [List.map_append, List.mem_append, not_or] at hkey
    rw [h'.others key hkey.2, h.others key hkey.1]
  · rw [List.map_append, List.mem_append] at hkey
    -- a mode under a key that is not sent to again was there before
    by_cases hsecond : key ∈ second.map (·.2)
    · exact h'.offered key hsecond mode hmode
    · have hmode' : o'.registry.permissions? key = some mode :=
        (congrArg (·.1) (h'.others key hsecond)).symm.trans hmode
      obtain ⟨content, hcontent⟩ := h.offered key (hkey.resolve_right hsecond) mode hmode'
      exact ⟨content, h'.grows.subset hcontent⟩

/-- The host is offered content, after something may have been recorded under its key. -/
theorem emit {r : Registry} {key : String}
    (h : ∀ other, other ≠ key → Output.held { o with registry := r } other = o.held other)
    (source : String) (content : ByteArray) :
    Marks host o [(source, key)] (Output.emit host { o with registry := r } key content).output := by
  have htaken (ho : o.HoldsTaken host) :
      (Output.emit host { o with registry := r } key content).output.HoldsTaken host :=
    Output.HoldsTaken.emit (o := { o with registry := r }) ho key content
  have hoffered : (Output.emit host { o with registry := r } key content).output.offered =
      o.offered ++ [(key, content)] := by
    unfold Output.emit
    dsimp only
    split <;> rfl
  refine ⟨fun other hother => ?_, fun other hother _ _ => ?_, ?_, htaken⟩
  · rw [List.map_singleton, List.mem_singleton] at hother
    rw [← h other hother]
    unfold Output.emit
    dsimp only
    split
    · rfl
    · dsimp only [Output.held]
      rw [Json.member?_setMember, if_neg (Ne.symm hother)]
  · rw [List.map_singleton, List.mem_singleton] at hother
    rw [hoffered, hother]
    exact ⟨content, List.mem_append_right _ (List.mem_singleton_self _)⟩
  · rw [hoffered]
    exact List.prefix_append _ _

/-- **One transfer.** -/
theorem transfer (files : FileTree) (host : Host) (source key : String) (o : Output) :
    Marks host o (sent files source key) (transfer files host source key o).output := by
  unfold ModuleAssets.transfer sent
  cases files.entry source with
  | error e => exact refl o
  | ok node =>
    cases node with
    | file content mode =>
      refine emit (fun other hother => ?_) source content
      dsimp only [Output.held]
      rw [Registry.permissions?_recordPermissions, Registry.symlink?_recordPermissions,
        if_neg (Ne.symm hother), if_neg (Ne.symm hother)]
    | link text =>
      refine ⟨fun other hother => ?_, fun other hother mode hmode => ?_, List.prefix_refl _, id⟩
      · rw [List.map_singleton, List.mem_singleton] at hother
        dsimp only [Output.held]
        rw [Registry.permissions?_recordSymlink, Registry.symlink?_recordSymlink,
          if_neg (Ne.symm hother), if_neg (Ne.symm hother)]
      · rw [List.map_singleton, List.mem_singleton] at hother
        rw [Registry.permissions?_recordSymlink, if_pos hother.symm] at hmode
        cases hmode
    | directory entries => exact refl o

/-- **Over a list.** -/
theorem each {α : Type} {run : α → Output → Transferred}
    {sent : α → Output → List (String × String)}
    (h : ∀ x o, Marks host o (sent x o) (run x o).output) (xs : List α) (o : Output) :
    Marks host o (sentEach run sent xs o) (runEach run xs o).output := by
  induction xs generalizing o with
  | nil => exact refl o
  | cons x rest ih =>
    have hx := h x o
    rw [sentEach, runEach, Transferred.andThen]
    cases (run x o).failure with
    | some e =>
      rw [Option.isNone_some, if_neg Bool.false_ne_true, List.append_nil]
      exact hx
    | none =>
      rw [Option.isNone_none, if_pos rfl]
      exact hx.append (ih (run x o).output)

theorem register (o : Output) (path preferred : String) :
    Marks host o [] { o with registry := (o.registry.register path preferred).1 } :=
  of_tables (o.held_register path preferred)

theorem transferLibrary (files : FileTree) (host : Host) (assetBase : String)
    (library : String × String) (o : Output) :
    Marks host o
      (sent files library.1 (assetBase ++ (o.registry.register library.1 library.2).2))
      (transferLibrary files host assetBase library o).output := by
  have hregister : Marks host o [] _ := register o library.1 library.2
  exact hregister.append (transfer files host library.1 _ _)

theorem libraries (files : FileTree) (host : Host) (assetBase packageBase : String) (o : Output) :
    Marks host o (sentLibraries files host assetBase packageBase o)
      (transferSharedLibraries files host assetBase packageBase o).output := by
  unfold sentLibraries transferSharedLibraries
  cases assetsBelow files isSharedLibrary packageBase with
  | error e => exact refl o
  | ok found =>
    dsimp only
    rw [transferLibraries_eq]
    exact each (transferLibrary files host assetBase) found o

/-- **One task.** -/
theorem runTask (files : FileTree) (host : Host) (assetBase : String) (task : AssetTask)
    (o : Output) :
    Marks host o (sentTask files host assetBase task o)
      (runTask files host assetBase task o).output := by
  cases task with
  | file source name => exact transfer files host source _ o
  | directory source name =>
    rw [sentTask, ModuleAssets.runTask]
    cases assetsBelow files isDirectoryAsset source with
    | error e => exact refl o
    | ok found =>
      dsimp only
      rw [transferAll_eq]
      refine each (fun f o => ?_) _ o
      exact transfer files host f.1 f.2 o
  | sharedLibraries packageBase =>
    rw [sentTask, ModuleAssets.runTask]
    exact libraries files host assetBase packageBase o

/-- **All tasks**, also up to one that fails. -/
theorem runTasks (files : FileTree) (host : Host) (assetBase : String) (tasks : List AssetTask)
    (o : Output) :
    Marks host o (sentTasks files host assetBase tasks o)
      (runTasks files host assetBase tasks o).output := by
  rw [runTasks_eq, sentTasks]
  exact each (runTask files host assetBase) tasks o

theorem emitAddon (b : Build) (files : FileTree) (host : Host) (id : String) (content : ByteArray)
    (o : Output) :
    Marks host o
      [(id, b.options.assetBase ++ (o.registry.register id (Build.preferredAddon id)).2)]
      (b.emitAddon files host id content o).output := by
  unfold Build.emitAddon
  dsimp only
  refine emit (fun other hother => ?_) id content
  rw [← o.held_register id (Build.preferredAddon id) other]
  split
  · dsimp only [Output.held]
    rw [Registry.permissions?_recordPermissions, Registry.symlink?_recordPermissions,
      if_neg (Ne.symm hother), if_neg (Ne.symm hother)]
  · rfl

theorem relocateAddon (b : Build) (files : FileTree) (host : Host) (id : String)
    (content : ByteArray) (o : Output) :
    Marks host o (b.sentAddon files host id o)
      (b.relocateAddon files host id content o).output := by
  have hlibraries : Marks host o _ (b.transferAddonLibraries files host id o).output :=
    libraries files host b.options.assetBase ((Package.base? id).getD (Path.dirname id)) o
  rw [Build.output_relocateAddon, Build.sentAddon, Transferred.andThen]
  cases (b.transferAddonLibraries files host id o).failure with
  | some e =>
    rw [Option.isNone_some, if_neg Bool.false_ne_true, List.append_nil]
    exact hlibraries
  | none =>
    rw [Option.isNone_none, if_pos rfl]
    exact hlibraries.append (emitAddon b files host id content _)

end Marks

/-! ## What is sent was read -/

/-- There is a file or a link at the path. -/
def FileTree.HasAsset (files : FileTree) (path : String) : Prop :=
  ∃ node, files.entry path = .ok node ∧ ∀ entries, node ≠ .directory entries

section

variable {files : FileTree} {host : Host} {assetBase : String} {o : Output} {t : String × String}

theorem hasAsset_of_mem_sent {source key : String} (h : t ∈ sent files source key) :
    files.HasAsset t.1 := by
  unfold sent at h
  split at h
  · rename_i hentry
    obtain rfl := List.mem_singleton.1 h
    exact ⟨_, hentry, fun _ => nofun⟩
  · rename_i hentry
    obtain rfl := List.mem_singleton.1 h
    exact ⟨_, hentry, fun _ => nofun⟩
  · exact absurd h List.not_mem_nil

theorem hasAsset_of_mem_sentLibraries {packageBase : String}
    (h : t ∈ sentLibraries files host assetBase packageBase o) : files.HasAsset t.1 := by
  unfold sentLibraries at h
  split at h
  · exact absurd h List.not_mem_nil
  · obtain ⟨f, -, o', hsent⟩ := exists_of_mem_sentEach h
    exact hasAsset_of_mem_sent hsent

/-- What tasks send was there. -/
theorem hasAsset_of_mem_sentTasks {tasks : List AssetTask}
    (h : t ∈ sentTasks files host assetBase tasks o) : files.HasAsset t.1 := by
  obtain ⟨task, -, o', hsent⟩ := exists_of_mem_sentEach h
  cases task with
  | file source name => exact hasAsset_of_mem_sent hsent
  | directory source name =>
    rw [sentTask] at hsent
    split at hsent
    · exact absurd hsent List.not_mem_nil
    · obtain ⟨f, -, o'', hsent⟩ := exists_of_mem_sentEach hsent
      exact hasAsset_of_mem_sent hsent
  | sharedLibraries packageBase => exact hasAsset_of_mem_sentLibraries hsent

end

/-! ## Runs -/

namespace Build

/-- A run whose registry has tables already, which an earlier build may have handed on. -/
def runFrom (b : Build) (host : Host) (r : Registry) (steps : List Step) : Progress :=
  steps.foldl (b.step host) ⟨.ofRegistry r, [], [], []⟩

/-- What a step can send from: files and links that are there, and an addon that it is
given. -/
def Step.Offers (s : Step) (source : String) : Prop :=
  match s with
  | .analyze .. => False
  | .commit files _ => files.HasAsset source
  | .addon files id _ => source = id ∨ files.HasAsset source

variable {b : Build} {host : Host} {p : Progress}

/-- An analysis gives names, or nothing happens. -/
theorem analyzed_cases (hb : b.specialCases ⊆ SpecialCase.all) (p : Progress) (files : FileTree)
    (id source : String) :
    b.analyzed p files id source = p ∨ ∃ calls a, b.analyzed p files id source =
      { p with
        output := { p.output with registry := p.output.registry.registerAll calls }
        analyses := p.analyses ++ [a] } := by
  unfold analyzed
  cases ha : b.analyze files p.output.registry id source with
  | error e => exact .inl rfl
  | ok done =>
    obtain ⟨registry, a⟩ := done
    obtain ⟨n, rfl⟩ := asks_analyze hb ha
    exact .inr ⟨requests n a.tasks, a, rfl⟩

/-- **One step** marks what it sends. -/
theorem marks_step (hb : b.specialCases ⊆ SpecialCase.all) (host : Host) (p : Progress) (s : Step) :
    ∃ later, (b.step host p s).sent = p.sent ++ later ∧ (∀ t ∈ later, s.Offers t.1) ∧
      Marks host p.output later (b.step host p s).output := by
  cases s with
  | analyze files id source =>
    obtain h | ⟨calls, a, h⟩ := analyzed_cases hb p files id source
    · rw [step, h]
      exact ⟨[], (List.append_nil _).symm, fun _ => nofun, .refl p.output⟩
    · rw [step, h]
      refine ⟨[], (List.append_nil _).symm, fun _ => nofun, .of_tables fun key => ?_⟩
      obtain ⟨hpermissions, hsymlinks⟩ := Registry.tables_registerAll p.output.registry calls
      rw [Output.held, Registry.permissions?, Registry.symlink?, hpermissions, hsymlinks]
      rfl
  | commit files number =>
    rw [step, committed]
    cases p.analyses[number]? with
    | none => exact ⟨[], (List.append_nil _).symm, fun _ => nofun, .refl p.output⟩
    | some a =>
      have hmarks := Marks.runTasks files host b.options.assetBase a.tasks p.output
      rw [← output_commit b files host a p.output] at hmarks
      refine ⟨sentTasks files host b.options.assetBase a.tasks p.output, rfl, ?_, hmarks⟩
      exact fun t ht => hasAsset_of_mem_sentTasks ht
  | addon files id content =>
    have hmarks := Marks.relocateAddon b files host id content p.output
    refine ⟨b.sentAddon files host id p.output, rfl, fun t ht => ?_, hmarks⟩
    rw [sentAddon] at ht
    obtain hlibrary | hself := List.mem_append.1 ht
    · exact .inr (hasAsset_of_mem_sentLibraries hlibrary)
    · split at hself
      · exact .inl (congrArg (·.1) (List.mem_singleton.1 hself))
      · exact absurd hself List.not_mem_nil

/-- **The whole run** marks what it sends. -/
theorem marks_run (hb : b.specialCases ⊆ SpecialCase.all) (host : Host) (p : Progress)
    (steps : List Step) :
    ∃ later, (steps.foldl (b.step host) p).sent = p.sent ++ later ∧
      (∀ t ∈ later, ∃ s ∈ steps, s.Offers t.1) ∧
      Marks host p.output later (steps.foldl (b.step host) p).output := by
  induction steps generalizing p with
  | nil => exact ⟨[], (List.append_nil _).symm, fun _ => nofun, .refl _⟩
  | cons s rest ih =>
    obtain ⟨now, hnow, hoffers, hmarks⟩ := marks_step hb host p s
    obtain ⟨later, hlater, hoffers', hmarks'⟩ := ih (b.step host p s)
    refine ⟨now ++ later, ?_, fun t ht => ?_, hmarks.append hmarks'⟩
    · rw [List.foldl_cons, hlater, hnow, List.append_assoc]
    · obtain ht | ht := List.mem_append.1 ht
      · exact ⟨s, List.mem_cons_self, hoffers t ht⟩
      · obtain ⟨s', hs', hoffer⟩ := hoffers' t ht
        exact ⟨s', List.mem_cons_of_mem _ hs', hoffer⟩

/-- **Whose modes are recorded**, over all steps of a build: a key that nothing was sent to
has the mode it started with, if any. For a key with a mode that something was sent to the
host was offered content, and has some exactly if it took an offer. Further steps change what
is under a key only if they send something to it, and they send only what can be read. -/
theorem modes_recorded (b : Build) (hb : b.specialCases ⊆ SpecialCase.all) (host : Host)
    (r : Registry) (steps more : List Step) :
    let p := b.runFrom host r steps
    let p' := b.runFrom host r (steps ++ more)
    (∀ key mode, p.output.registry.permissions? key = some mode →
      (key ∉ p.sent.map (·.2) ∧ r.permissions? key = some mode) ∨
        (key ∈ p.sent.map (·.2) ∧ (∃ content, (key, content) ∈ p.output.offered) ∧
          ((Json.member? p.output.emitted key).isSome ↔ host.Took p.output.offered key))) ∧
      ∃ later, p'.sent = p.sent ++ later ∧ (∀ t ∈ later, ∃ s ∈ more, s.Offers t.1) ∧
        ∀ key, key ∉ later.map (·.2) → p'.output.held key = p.output.held key := by
  intro p p'
  obtain ⟨sent, hsent, -, hmarks⟩ := marks_run hb host ⟨.ofRegistry r, [], [], []⟩ steps
  obtain rfl : p.sent = sent := hsent
  refine ⟨fun key mode hmode => ?_, ?_⟩
  · by_cases hkey : key ∈ p.sent.map (·.2)
    · exact .inr ⟨hkey, hmarks.offered key hkey mode hmode,
        hmarks.taken (holdsTaken_ofRegistry host r) key⟩
    · exact .inl ⟨hkey, (congrArg (·.1) (hmarks.others key hkey)).symm.trans hmode⟩
  · obtain ⟨later, hlater, hoffers, hmarks'⟩ := marks_run hb host p more
    have hp' : p' = more.foldl (b.step host) p := List.foldl_append
    rw [hp']
    exact ⟨later, hlater, hoffers, hmarks'.others⟩

/-! ## A file that is refused -/

/-- A directory with a module and one thing that it refers to, named as an asset. -/
def besideData (data : Node) : FileTree :=
  ⟨.directory [("p", .directory [("a.txt", .file ByteArray.empty 0o644), ("data.txt", data)])]⟩

/-- The module is committed while the asset is a link, and again when it is a file. -/
def linkThenFile : List Step :=
  let linked := besideData (.link "a.txt")
  [.analyze linked "/p/m.js" "x(__dirname + '/data.txt')", .commit linked 0,
    .commit (besideData (.file ByteArray.empty 0o644)) 0]

/-- A host that does not take the asset. -/
def refusingData : Host :=
  ⟨fun _ name _ => if name = "data.txt" then some "refused" else none⟩

/-- What becomes of the first of these steps. -/
def runLinkThenFile (host : Host) (number : Nat) : Progress :=
  (ofOptions default).runFrom host (.ofExisting []) (linkThenFile.take number)

/-- **A refused file leaves a mode**, and takes away the link that was recorded before,
though the host holds nothing. -/
theorem mode_of_refused :
    (runLinkThenFile refusingData 2).output.registry.symlinks = [("data.txt", "a.txt")] ∧
      (runLinkThenFile refusingData 3).output.registry.symlinks = [] ∧
      (runLinkThenFile refusingData 3).output.registry.permissions = [("data.txt", 0o100644)] ∧
      (runLinkThenFile refusingData 3).output.emitted.isEmpty = true := by
  decide +kernel

/-- A host that takes the file holds its content. -/
theorem modes_recorded_taken :
    (ofOptions default).specialCases ⊆ SpecialCase.all ∧
      (runLinkThenFile .open_ 3).output.registry.permissions? "data.txt" = some 0o100644 ∧
      (Json.member? (runLinkThenFile .open_ 3).output.emitted "data.txt").isSome := by
  have hmode :
      (runLinkThenFile .open_ 3).output.registry.permissions? "data.txt" = some 0o100644 := by
    decide +kernel
  unfold runLinkThenFile at hmode ⊢
  obtain ⟨hkeys, -⟩ := modes_recorded (ofOptions default) (List.Subset.refl _) .open_
    (.ofExisting []) (linkThenFile.take 3) []
  obtain ⟨-, hbefore⟩ | ⟨-, ⟨content, hoffered⟩, hheld⟩ := hkeys "data.txt" _ hmode
  · cases hbefore
  · obtain ⟨before, after, hsplit⟩ := List.append_of_mem hoffered
    exact ⟨List.Subset.refl _, hmode, hheld.2 ⟨before, content, after, hsplit, rfl⟩⟩

end Build

end ModuleAssets
