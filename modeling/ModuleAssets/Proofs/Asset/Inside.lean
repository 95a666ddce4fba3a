import ModuleAssets.Proofs.Asset.Content
import ModuleAssets.Proofs.Asset.Order
import ModuleAssets.Proofs.Path.Descending
/-!
# Keys — what is written stays below the asset base

An asset goes to the asset base and its name, or to the asset base, the name of a directory
and a place in that. So nothing is written above the asset base as long as all names
descend (`keysInside_run`). A name that is given descends if the preferred one does, and the
preferred one does, but for three things that a build does not look at: an addon's own path
is not worked out; the path of a package is taken off from addons that are not in it; and a
link to a directory is listed with the empty name for itself.
-/

namespace ModuleAssets

open ModuleAssets.Path (Descends IsPlain)

/-- The key is the asset base and a path that descends. -/
def IsInside (assetBase key : String) : Prop :=
  ∃ name, key = assetBase ++ name ∧ Descends name.toList

theorem isInside_name {name : String} (assetBase : String) (h : Descends name.toList) :
    IsInside assetBase (assetBase ++ name) :=
  ⟨name, rfl, h⟩

theorem isInside_below {name rest : String} (assetBase : String) (h : Descends name.toList)
    (hrest : Descends rest.toList) : IsInside assetBase (assetBase ++ name ++ "/" ++ rest) := by
  refine ⟨name ++ "/" ++ rest, by simp only [String.append_assoc], ?_⟩
  rw [String.toList_append, String.toList_append, List.append_assoc]
  exact Path.descends_append.2 ⟨h, hrest⟩

/-! ## Names that are given -/

namespace Registry

/-- All names that assets were given descend. -/
def AllDescend (r : Registry) : Prop :=
  ∀ path name, r.nameOf? path = some name → Descends name.toList

variable {r : Registry} {path preferred : String}

theorem descends_openName (r : Registry) (path : String) (h : Descends preferred.toList) :
    Descends (r.openName path preferred).toList := by
  obtain ⟨-, ⟨-, hname⟩ | ⟨-, number, -, -, hname, -⟩⟩ := openName_spec r path preferred
  · rwa [hname]
  · rw [hname]
    exact descends_numbered h number

theorem AllDescend.descends_register (h : r.AllDescend) (path : String)
    (hpreferred : Descends preferred.toList) : Descends (r.register path preferred).2.toList := by
  cases hname : r.nameOf? path with
  | some name =>
    rw [register_of_eq_some hname]
    exact h path name hname
  | none =>
    rw [register_of_eq_none hname]
    exact descends_openName r path hpreferred

theorem AllDescend.register (h : r.AllDescend) (path : String)
    (hpreferred : Descends preferred.toList) : (r.register path preferred).1.AllDescend := by
  intro other name hname
  obtain hbefore | ⟨-, rfl⟩ := nameOf?_register_iff.1 hname
  · exact h other name hbefore
  · exact h.descends_register path hpreferred

theorem AllDescend.of_given {r' : Registry} (h : r.AllDescend) (hgiven : r'.given = r.given) :
    r'.AllDescend := by
  intro path name hname
  rw [nameOf?, hgiven] at hname
  exact h path name hname

end Registry

/-! ## Names that are preferred -/

/-- No addon that is needed lies in a directory whose path is that of the package with a
dot or two at its end. -/
def NoDots (packageBase : Option String) (tasks : List AssetTask) : Prop :=
  ∀ base, packageBase = some base → ∀ path name, .file path name ∈ tasks →
    Text.endsWith path ".node" = true →
      Text.startsWith path (base ++ "./") = false ∧ Text.startsWith path (base ++ "../") = false

theorem NoDots.mono {packageBase : Option String} {tasks tasks' : List AssetTask}
    (h : NoDots packageBase tasks') (htasks : tasks ⊆ tasks') : NoDots packageBase tasks :=
  fun base hbase path name htask => h base hbase path name (htasks htask)

theorem descends_basename {path : String} (h : IsRooted path) (hroot : path ≠ "/") :
    Descends (Path.basename path none).toList := by
  obtain ⟨names, hnames, rfl⟩ := h
  obtain rfl | ⟨front, name, rfl⟩ := List.eq_nil_or_concat' names
  · exact absurd rfl hroot
  · have hname := hnames name (List.mem_append_right _ List.mem_cons_self)
    rw [Path.basename_rooted front hname, String.toList_ofList]
    exact hname.descends

/-- A file's preferred name descends. -/
theorem Naming.descends_preferred {n : Naming} {path name : String} {tasks : List AssetTask}
    (h : IsRooted path) (hroot : path ≠ "/") (htask : .file path name ∈ tasks)
    (hdots : NoDots n.packageBase tasks) : Descends (n.preferred path).toList := by
  have hbasename := descends_basename h hroot
  obtain ⟨names, hnames, hpath⟩ := h
  rw [preferred]
  split
  · rename_i hending
    cases hbelow : n.packageBase.bind (below? path) with
    | none => exact hbasename
    | some rest =>
      obtain ⟨base, hbase, hrest⟩ := Option.bind_eq_some_iff.1 hbelow
      obtain ⟨hdot, hdots⟩ := hdots base hbase path name htask hending
      exact descends_below? hnames hpath hending hdot hdots hrest
  · exact hbasename

/-- No file is the root. -/
theorem FileTree.isFile_root (files : FileTree) : files.isFile "/" = false := by
  obtain ⟨root⟩ := files
  cases root <;> rfl

theorem Referent.directory_of_ofValue? {ctx : ModuleContext} {v : Value} {path : String}
    (h : ofValue? ctx v = some (.directory path)) : IsRooted path ∧ path ≠ "/" := by
  unfold ofValue? at h
  split at h
  · cases h
  · obtain ⟨found, hresolved, hfound⟩ := Option.bind_eq_some_iff.1 h
    split at hfound
    · cases hfound
    · rename_i hroot
      have hresult : found = path := by
        split at hfound
        · cases hfound
        · split at hfound
          · split at hfound
            · cases hfound
              rfl
            · cases hfound
          · cases hfound
            rfl
        · cases hfound
      exact hresult ▸ ⟨Path.exists_rooted_of_resolve hresolved, fun heq => hroot (.inl heq)⟩
  · cases h

/-! ## Analyses -/

namespace Draft

variable {d d' : Draft}

theorem allDescend_addDirectory (h : d.plan.registry.AllDescend) (n : Naming) {path : String}
    (hname : Descends (Path.basename path none).toList) :
    (d.addDirectory n path).1.plan.registry.AllDescend := by
  change (Plan.addTask _ _).registry.AllDescend
  rw [Plan.registry_addTask]
  exact h.register path hname

theorem allDescend_addFile (h : d.plan.registry.AllDescend) {n : Naming} {path : String}
    (hname : Descends (n.preferred path).toList) :
    (d.addFile n path).1.plan.registry.AllDescend := by
  change (Plan.addTask _ _).registry.AllDescend
  rw [Plan.registry_addTask]
  refine Registry.AllDescend.register ?_ path hname
  split
  · split
    · exact (Plan.registry_addTask d.plan _).symm ▸ h
    · exact h
  · exact h

/-- **A walk gives names that descend.** -/
theorem allDescend_edits {w : WalkSetting} {may : Walk.Writing} (h : d.plan.registry.AllDescend)
    (hedits : d.Edits w may d') (hdots : NoDots w.ctx.packageBase d'.plan.tasks) :
    d'.plan.registry.AllDescend := by
  induction hedits with
  | refl => exact h
  | overwrite _ _ ih =>
    rw [plan_overwrite] at hdots ⊢
    exact ih hdots
  | appendRight _ _ ih =>
    rw [plan_appendRight] at hdots ⊢
    exact ih hdots
  | addFile _ hpath ih =>
    obtain ⟨hfile, hrooted⟩ := Walk.isFile_of_finds hpath
    obtain ⟨name, htask, -⟩ := Plan.exists_addFile _ (Referent.naming w.ctx) _
    refine allDescend_addFile (ih (hdots.mono (Plan.subset_addFile _ _ _)))
      (Naming.descends_preferred hrooted (fun heq => ?_) htask hdots)
    rw [heq, FileTree.isFile_root] at hfile
    cases hfile
  | addDirectory _ hpath ih =>
    obtain ⟨hrooted, hroot⟩ := Referent.directory_of_ofValue? hpath
    exact allDescend_addDirectory
      (ih (hdots.mono (Plan.subset_addDirectory _ (Referent.naming w.ctx) _))) (Referent.naming w.ctx)
      (descends_basename hrooted hroot)

end Draft

namespace Build

theorem allDescend_prepare {b : Build} (hb : b.specialCases ⊆ SpecialCase.all) (files : FileTree)
    {r : Registry} (h : r.AllDescend) (id source : String) (parsed : Syntax.Parsed) :
    (b.prepare files r id source parsed).2.2.plan.registry.AllDescend := by
  have hprotos : IsPlain "google-proto-files".toList := ⟨by decide, by decide, by decide, by decide⟩
  refine keeps_prepare (P := fun d => d.plan.registry.AllDescend) (fun d span text hd => ?_)
    (fun d n directory path hpath hd => ?_) hb files r id source parsed h
  · rwa [Draft.plan_overwrite]
  · have htarget : "../../../google-proto-files".toList =
        "../../..".toList ++ '/' :: "google-proto-files".toList := rfl
    obtain ⟨names, rfl⟩ := Path.exists_rooted_of_resolve_name hprotos htarget hpath
    refine Draft.allDescend_addDirectory hd n ?_
    rw [Path.basename_rooted names hprotos, String.toList_ofList]
    exact hprotos.descends

/-- **An analysis gives names that descend.** -/
theorem allDescend_analyze {b : Build} (hb : b.specialCases ⊆ SpecialCase.all) {files : FileTree}
    {r r' : Registry} {id source : String} {a : Analysis} (h : r.AllDescend)
    (ha : b.analyze files r id source = .ok (r', a))
    (hdots : NoDots (Package.base? id) a.tasks) : r'.AllDescend := by
  obtain ⟨parsed, draft, -, rfl, rfl, rfl⟩ := exists_draft_of_analyze ha
  exact Draft.allDescend_edits (allDescend_prepare hb files h id source parsed)
    (edits_walkProgram _ _ _) hdots

end Build

/-! ## Listings -/

/-- A name that a file can have, without a backslash. -/
def IsFileName (name : String) : Prop :=
  name ≠ "" ∧ '/' ∉ name.toList ∧ '\\' ∉ name.toList

instance (name : String) : Decidable (IsFileName name) :=
  inferInstanceAs (Decidable (_ ∧ _ ∧ _))

/-- All files of the tree have such names. -/
def FileTree.IsNamed (files : FileTree) : Prop :=
  ∀ name ∈ files.root.names, IsFileName name

instance (files : FileTree) : Decidable files.IsNamed :=
  inferInstanceAs (Decidable (∀ name ∈ files.root.names, IsFileName name))

theorem FileTree.IsNamed.isPlain {files : FileTree} (h : files.IsNamed) :
    files.root.isPlain = true :=
  (Node.isPlain_iff _).2 fun name hname => ⟨(h name hname).1, (h name hname).2.2⟩

/-- A name that is listed is no step. -/
theorem plain_of_isListed {name : String} (h : IsFileName name) (hlisted : isListed name = true) :
    IsPlain name.toList := by
  have hdot {rest : List Char} : name.toList ≠ '.' :: rest := by
    intro heq
    have hstarts : Text.startsWith name "." = true := by
      rw [Text.startsWith, heq]
      rfl
    rw [isListed, hstarts] at hlisted
    cases hlisted
  exact ⟨fun hnil => h.1 (String.toList_eq_nil_iff.1 hnil), hdot, hdot, h.2.1⟩

/-- **What is listed has a name that descends**, but for the path itself. -/
theorem descends_of_mem_assetsBelow {files : FileTree} (hfiles : files.IsNamed)
    {wanted : String → Bool} {root : String}
    (hself : wanted "" = true → ∀ node, files.entry root = .ok node → node.isDirectory = true)
    {found : List (String × String)} (h : assetsBelow files wanted root = .ok found)
    {f : String × String} (hf : f ∈ found) : Descends f.2.toList := by
  unfold assetsBelow at h
  split at h
  · rename_i listed hlisted
    cases h
    obtain ⟨hmem, hwanted⟩ := List.mem_filter.1 hf
    obtain ⟨rfl, hentry⟩ | ⟨place, hne, hnames, rfl⟩ := cases_of_mem_listBelow hlisted hmem
    · cases hnode : files.entry root with
      | error e =>
        unfold listBelow at hlisted
        rw [hnode] at hlisted
        cases hlisted
      | ok node =>
        have hdirectory := hself hwanted node hnode
        cases node with
        | directory entries => exact absurd hnode (hentry entries)
        | file content mode => cases hdirectory
        | link target => cases hdirectory
    · rw [relativeName_eq fun name hname => (hfiles name (hnames name hname).1).2.2,
        String.toList_ofList]
      refine Path.descends_joined (fun hnil => hne (List.map_eq_nil_iff.1 hnil)) fun n hn => ?_
      obtain ⟨name, hname, rfl⟩ := List.mem_map.1 hn
      exact plain_of_isListed (hfiles name (hnames name hname).1) (hnames name hname).2
  · cases h

/-! ## Transfers -/

/-- What runs gives names that descend, and sends to keys inside of the asset base, where all
names descend before. -/
def KeepsInside (assetBase : String) (run : Output → Transferred)
    (sent : Output → List (String × String)) : Prop :=
  ∀ o : Output, o.registry.AllDescend →
    (run o).output.registry.AllDescend ∧ ∀ t ∈ sent o, IsInside assetBase t.2

section

variable {files : FileTree} {assetBase : String}

theorem keepsInside_transfer (files : FileTree) (host : Host) (source : String) {key : String}
    (hkey : IsInside assetBase key) :
    KeepsInside assetBase (transfer files host source key) fun _ => sent files source key :=
  fun o h => ⟨h.of_given (names_transfer files host source key o).1,
    fun _ ht => key_of_mem_sent ht ▸ hkey⟩

theorem keepsInside_transferLibrary (files : FileTree) (host : Host) {f : String × String}
    (hname : Descends f.2.toList) :
    KeepsInside assetBase (transferLibrary files host assetBase f)
      fun o => sent files f.1 (assetBase ++ (o.registry.register f.1 f.2).2) := by
  intro o h
  have hregistered := h.register f.1 hname
  rw [transferLibrary_eq]
  exact keepsInside_transfer files host f.1
    (isInside_name assetBase (h.descends_register f.1 hname)) _ hregistered

/-- **Over a list.** -/
theorem keepsInside_each {α : Type} {run : α → Output → Transferred}
    {sent : α → Output → List (String × String)} {xs : List α}
    (h : ∀ x ∈ xs, KeepsInside assetBase (run x) (sent x)) :
    KeepsInside assetBase (runEach run xs) (sentEach run sent xs) := by
  induction xs with
  | nil => exact fun o ho => ⟨ho, fun _ => nofun⟩
  | cons x rest ih =>
    intro o ho
    obtain ⟨hrun, hsent⟩ := h x List.mem_cons_self o ho
    obtain ⟨hrest, hsentRest⟩ := ih (fun y hy => h y (List.mem_cons_of_mem _ hy)) _ hrun
    rw [runEach, sentEach, Transferred.andThen]
    cases (run x o).failure with
    | none => exact ⟨hrest, List.forall_mem_append.2 ⟨hsent, hsentRest⟩⟩
    | some e =>
      rw [Option.isNone_some, if_neg Bool.false_ne_true, List.append_nil]
      exact ⟨hrun, hsent⟩

theorem keepsInside_libraries (hfiles : files.IsNamed) (host : Host) (packageBase : String) :
    KeepsInside assetBase (transferSharedLibraries files host assetBase packageBase)
      (sentLibraries files host assetBase packageBase) := by
  intro o h
  unfold transferSharedLibraries sentLibraries
  cases hfound : assetsBelow files isSharedLibrary packageBase with
  | error e => exact ⟨h, fun _ => nofun⟩
  | ok found =>
    dsimp only
    rw [transferLibraries_eq]
    exact keepsInside_each (fun f hf => keepsInside_transferLibrary files host
      (descends_of_mem_assetsBelow hfiles (fun h => absurd h (by decide)) hfound hf)) o h

/-- What a task is about is a directory, if it copies one and that is there. -/
def AssetTask.FindsDirectory (files : FileTree) : AssetTask → Prop
  | .directory source _ => ∀ node, files.entry source = .ok node → node.isDirectory = true
  | _ => True

/-- **One task.** -/
theorem keepsInside_runTask (hfiles : files.IsNamed) (host : Host) {task : AssetTask}
    (hdirectory : task.FindsDirectory files) {r : Registry} (hr : r.AllDescend)
    (hnamed : task.IsNamed r) :
    KeepsInside assetBase (runTask files host assetBase task)
      (sentTask files host assetBase task) := by
  cases task with
  | file source name =>
    exact keepsInside_transfer files host source (isInside_name assetBase (hr source name hnamed))
  | directory source name =>
    intro o h
    rw [runTask, sentTask]
    cases hfound : assetsBelow files isDirectoryAsset source with
    | error e => exact ⟨h, fun _ ht => absurd ht List.not_mem_nil⟩
    | ok found =>
      dsimp only
      rw [transferAll_eq]
      refine keepsInside_each (fun f hf => ?_) o h
      obtain ⟨⟨path, rest⟩, hmem, rfl⟩ := List.mem_map.1 hf
      exact keepsInside_transfer files host path (isInside_below assetBase (hr source name hnamed)
        (descends_of_mem_assetsBelow hfiles (fun _ => hdirectory) hfound hmem))
  | sharedLibraries packageBase => exact keepsInside_libraries hfiles host packageBase

end

/-! ## Addons -/

/-- The path of an addon is absolute, and what it has below its package descends. -/
def IsAddonPath (id : String) : Prop :=
  Path.isAbsolute id = true ∧ Text.endsWith id Addon.ending = true ∧
    ∀ base rest, Package.base? id = some base → Naming.below? id base = some rest →
      Descends rest.toList

/-- Below its own directory a path has its last name. -/
theorem Naming.below?_dirname (front : List Char) {name : List Char} (h : IsPlain name) :
    below? (String.ofList (front ++ '/' :: name))
      (Path.dirname (String.ofList (front ++ '/' :: name))) = some (String.ofList name) := by
  have hrest {rest : List Char} (hrest : rest = name ∨ rest = '/' :: name) :
      rest.dropWhile (· == '/') = name := by
    obtain rfl | rfl := hrest
    · exact h.descends.dropWhile_slash
    · rw [List.dropWhile_cons_of_pos (by rfl), h.descends.dropWhile_slash]
  have hbelow {directory rest : List Char} (hpath : front ++ '/' :: name = directory ++ rest)
      (hname : rest = name ∨ rest = '/' :: name) :
      below? (String.ofList (front ++ '/' :: name)) (String.ofList directory) =
        some (String.ofList name) := by
    rw [below?, String.toList_ofList, String.toList_ofList, Text.dropPrefix?_eq_some.2 hpath,
      Option.bind_some, hrest hname]
    exact if_neg h.1
  rw [Path.dirname_name front h]
  split
  · rename_i hfront
    subst hfront
    have hroot : [] ++ '/' :: name = ['/'] ++ name := rfl
    exact hbelow hroot (.inl rfl)
  · exact hbelow rfl (.inr rfl)

namespace Build

theorem descends_preferredAddon {id : String} (h : IsAddonPath id) :
    Descends (preferredAddon id).toList := by
  obtain ⟨habsolute, hending, hbelow⟩ := h
  obtain ⟨front, name, hid, hslash, hsuffix⟩ :=
    Path.exists_last_of_suffix habsolute (List.isSuffixOf_iff_suffix.1 hending) (by decide)
  have hname : IsPlain name := Path.plain_of_suffix hslash hsuffix (by decide)
  have hid : id = String.ofList (front ++ '/' :: name) := by rw [← hid, String.ofList_toList]
  have hlast : Descends (Path.basename id none).toList := by
    rw [hid, Path.basename_name front hname, String.toList_ofList]
    exact hname.descends
  rw [preferredAddon]
  cases hrest : Naming.below? id ((Package.base? id).getD (Path.dirname id)) with
  | none => exact hlast
  | some rest =>
    cases hbase : Package.base? id with
    | some base =>
      rw [hbase] at hrest
      exact hbelow base rest hbase hrest
    | none =>
      rw [hbase, hid] at hrest
      obtain rfl := Option.some.inj ((Naming.below?_dirname front hname).symm.trans hrest)
      rw [Option.getD_some, String.toList_ofList]
      exact hname.descends

variable {b : Build} {host : Host} {p : Progress}

/-- An addon itself gets a name that descends. -/
theorem keepsInside_emitAddon (b : Build) (files : FileTree) (host : Host) {id : String}
    (h : IsAddonPath id) (content : ByteArray) :
    KeepsInside b.options.assetBase (b.emitAddon files host id content) fun o =>
      [(id, b.options.assetBase ++ (o.registry.register id (preferredAddon id)).2)] := by
  intro o ho
  have hname := descends_preferredAddon h
  refine ⟨(ho.register id hname).of_given ?_, fun t ht => ?_⟩
  · unfold emitAddon Output.emit
    dsimp only
    split
    · split <;> rfl
    · split <;> rfl
  · rw [List.mem_singleton.1 ht]
    exact isInside_name _ (ho.descends_register id hname)

theorem keepsInside_relocateAddon (b : Build) {files : FileTree} (hfiles : files.IsNamed)
    (host : Host) {id : String} (h : IsAddonPath id) (content : ByteArray) {o : Output}
    (ho : o.registry.AllDescend) :
    (b.relocateAddon files host id content o).output.registry.AllDescend ∧
      ∀ t ∈ b.sentAddon files host id o, IsInside b.options.assetBase t.2 := by
  have hkeeps : KeepsInside b.options.assetBase
      (transferSharedLibraries files host b.options.assetBase
        ((Package.base? id).getD (Path.dirname id))) _ := keepsInside_libraries hfiles host _
  obtain ⟨hlibraries, hsent⟩ := hkeeps o ho
  obtain ⟨haddon, hsentAddon⟩ := keepsInside_emitAddon b files host h content _ hlibraries
  rw [output_relocateAddon, sentAddon, transferAddonLibraries, Transferred.andThen]
  cases (transferSharedLibraries files host b.options.assetBase
    ((Package.base? id).getD (Path.dirname id)) o).failure with
  | some e =>
    rw [Option.isNone_some, if_neg Bool.false_ne_true, List.append_nil]
    exact ⟨hlibraries, hsent⟩
  | none =>
    rw [Option.isNone_none, if_pos rfl]
    dsimp only
    exact ⟨haddon, List.forall_mem_append.2 ⟨hsent, hsentAddon⟩⟩

/-! ## Runs -/

/-- What the step is about has none of the three shapes that lead outside: an addon that goes
on after its package with dots, a link in place of a directory, and the path of an addon
that is not worked out. -/
def Step.IsTame (b : Build) (p : Progress) : Step → Prop
  | .analyze files id source => ∀ r a,
    b.analyze files p.output.registry id source = .ok (r, a) → NoDots (Package.base? id) a.tasks
  | .commit files number => ∀ a, p.analyses[number]? = some a →
    ∀ task ∈ a.tasks, task.FindsDirectory files
  | .addon _ id _ => IsAddonPath id

/-- All names descend, and all that was sent went inside of the asset base. -/
structure Progress.Inside (b : Build) (p : Progress) : Prop where
  names : p.output.registry.AllDescend
  sent : ∀ t ∈ p.sent, IsInside b.options.assetBase t.2

/-- **One step.** -/
theorem Progress.Inside.step (hb : b.specialCases ⊆ SpecialCase.all) (h : p.Inside b)
    (hsound : p.Sound b) {s : Step} (hfiles : s.files.IsNamed) (hs : s.IsTame b p) :
    (b.step host p s).Inside b := by
  cases s with
  | analyze files id source =>
    change (b.analyzed p files id source).Inside b
    unfold analyzed
    split
    · exact h
    · rename_i r a ha
      exact ⟨allDescend_analyze hb h.names ha (hs r a ha), h.sent⟩
  | commit files number =>
    change (b.committed host p files number).Inside b
    unfold committed
    split
    · exact h
    · rename_i a hnumber
      have htasks : KeepsInside b.options.assetBase
          (runEach (runTask files host b.options.assetBase) a.tasks)
          (sentTasks files host b.options.assetBase a.tasks) :=
        keepsInside_each fun task htask => keepsInside_runTask hfiles host
          (hs a hnumber task htask) h.names
          (hsound.named a (List.mem_of_getElem? hnumber) task htask)
      obtain ⟨hnames, hsent⟩ := htasks p.output h.names
      rw [← runTasks_eq] at hnames
      rw [output_commit]
      exact ⟨hnames, List.forall_mem_append.2 ⟨h.sent, hsent⟩⟩
  | addon files id content =>
    obtain ⟨hnames, hsent⟩ := keepsInside_relocateAddon b hfiles host hs content h.names
    exact ⟨hnames, List.forall_mem_append.2 ⟨h.sent, hsent⟩⟩

/-- All steps are tame when their turn comes. -/
def AllTame (b : Build) (host : Host) : Progress → List Step → Prop
  | _, [] => True
  | p, s :: rest => s.IsTame b p ∧ b.AllTame host (b.step host p s) rest

/-- **The whole run.** -/
theorem inside_run (hb : b.specialCases ⊆ SpecialCase.all) (host : Host) (steps : List Step)
    (hfiles : ∀ s ∈ steps, s.files.IsNamed)
    (htame : b.AllTame host ⟨b.start, [], [], []⟩ steps) : (b.run host steps).Inside b := by
  have hfold : ∀ p : Progress, p.Inside b → p.Sound b → b.AllTame host p steps →
      (steps.foldl (b.step host) p).Inside b := by
    clear htame
    induction steps with
    | nil => exact fun p hp _ _ => hp
    | cons s rest ih =>
      intro p hp hsound htame
      obtain ⟨hs, hrest⟩ := List.forall_mem_cons.1 hfiles
      rw [List.foldl_cons]
      exact ih hrest _ (hp.step hb hsound hs htame.1) (hsound.step hb s hs.isPlain) htame.2
  exact hfold _ ⟨fun _ _ => nofun, fun _ => nofun⟩ ⟨.refl _, fun _ => nofun⟩ htame

/-- **What is written stays below the asset base.** Over all steps of a build, every key to
which something is sent, and with that every key under which the host holds something or a
link is recorded, is the asset base and a path whose segments are all names, if all steps
are tame. -/
theorem keys_inside (b : Build) (hb : b.specialCases ⊆ SpecialCase.all) (host : Host)
    (steps : List Step) (hfiles : ∀ s ∈ steps, s.files.IsNamed)
    (htame : b.AllTame host ⟨b.start, [], [], []⟩ steps) :
    let p := b.run host steps
    (∀ t ∈ p.sent, IsInside b.options.assetBase t.2) ∧
      (∀ key ∈ p.output.emitted.map (·.1), IsInside b.options.assetBase key) ∧
      ∀ key ∈ p.output.registry.symlinks.map (·.1), IsInside b.options.assetBase key := by
  intro p
  have hsent := (inside_run hb host steps hfiles htame).sent
  have hsound := sound_run hb host steps fun s hs => (hfiles s hs).isPlain
  have hkey {key : String} (hkey : key ∈ p.sent.map (·.2)) :
      IsInside b.options.assetBase key := by
    obtain ⟨t, ht, rfl⟩ := List.mem_map.1 hkey
    exact hsent t ht
  exact ⟨hsent, fun key h => hkey ((hsound.sends.emitted key h).resolve_left List.not_mem_nil),
    fun key h => hkey ((hsound.sends.symlinks key h).resolve_left List.not_mem_nil)⟩

/-- A module refers to the directory of its package, which is copied; and the addon of
another package is emitted. -/
def directoryThenAddon : List Step :=
  [.analyze twoPackages "/p/node_modules/a/index.js" "x(__dirname + '/../a')",
    .commit twoPackages 0, .addon twoPackages "/p/node_modules/b/lib/x.node" ByteArray.empty]

/-- A build whose assets go to a directory. -/
def intoAssets : Build :=
  ofOptions { (default : Options) with outputAssetBase := some "assets" }

/-- Both addons go to names inside of it. -/
theorem keys_inside_packages :
    intoAssets.specialCases ⊆ SpecialCase.all ∧ (∀ s ∈ directoryThenAddon, s.files.IsNamed) ∧
      intoAssets.AllTame .open_ ⟨intoAssets.start, [], [], []⟩ directoryThenAddon ∧
      (intoAssets.run .open_ directoryThenAddon).sent =
        [("/p/node_modules/a/lib/x.node", "assets/a/lib/x.node"),
          ("/p/node_modules/b/lib/x.node", "assets/lib/x.node")] ∧
      ∀ t ∈ (intoAssets.run .open_ directoryThenAddon).sent, IsInside "assets/" t.2 := by
  have hfiles : ∀ s ∈ directoryThenAddon, s.files.IsNamed := by decide +kernel
  -- both at once, so that the module is analyzed once
  obtain ⟨htasks, hsent⟩ :
      (intoAssets.analyze twoPackages intoAssets.start.registry
        "/p/node_modules/a/index.js" "x(__dirname + '/../a')").toOption.map (·.2.tasks) =
          some [.directory "/p/node_modules/a" "a"] ∧
        (intoAssets.run .open_ directoryThenAddon).sent =
          [("/p/node_modules/a/lib/x.node", "assets/a/lib/x.node"),
            ("/p/node_modules/b/lib/x.node", "assets/lib/x.node")] := by
    decide +kernel
  have hentry : (twoPackages.entry "/p/node_modules/a").toOption.map Node.isDirectory =
      some true := by
    decide +kernel
  have htame : intoAssets.AllTame .open_ ⟨intoAssets.start, [], [], []⟩ directoryThenAddon := by
    refine ⟨fun r a ha base hbase path name htask => ?_, fun a ha task htask => ?_,
      ⟨rfl, rfl, fun base rest hbase hrest => ?_⟩, trivial⟩
    · rw [ha] at htasks
      have htasks : a.tasks = [.directory "/p/node_modules/a" "a"] := Option.some.inj htasks
      rw [htasks] at htask
      cases List.mem_singleton.1 htask
    · have ha : (intoAssets.analyzed ⟨intoAssets.start, [], [], []⟩ twoPackages
          "/p/node_modules/a/index.js" "x(__dirname + '/../a')").analyses[0]? = some a := ha
      unfold analyzed at ha
      split at ha
      · cases ha
      · rename_i r analysis hanalyze
        obtain rfl := Option.some.inj ha
        rw [hanalyze] at htasks
        have htasks : analysis.tasks = [.directory "/p/node_modules/a" "a"] :=
          Option.some.inj htasks
        rw [htasks] at htask
        obtain rfl := List.mem_singleton.1 htask
        intro node hnode
        rw [hnode] at hentry
        exact Option.some.inj hentry
    · have hbelow : (Package.base? "/p/node_modules/b/lib/x.node").bind
          (Naming.below? "/p/node_modules/b/lib/x.node") = some "lib/x.node" := by
        decide +kernel
      rw [hbase, Option.bind_some, hrest] at hbelow
      obtain rfl := Option.some.inj hbelow
      decide
  exact ⟨List.Subset.refl _, hfiles, htame, hsent,
    (keys_inside intoAssets (List.Subset.refl _) .open_ _ hfiles htame).1⟩

/-- The addon of one package, by a path through another package, goes outside. -/
theorem key_above_asset_base :
    (intoAssets.run .open_
        [.addon twoPackages "/p/node_modules/a/../b/lib/x.node" ByteArray.empty]).output.emitted.map
          (·.1) = ["assets/../b/lib/x.node"] ∧
      ¬IsInside intoAssets.options.assetBase "assets/../b/lib/x.node" := by
  refine ⟨by decide +kernel, ?_⟩
  rintro ⟨name, hkey, hname⟩
  have hkey : "assets/" ++ "../b/lib/x.node" = "assets/" ++ name := hkey
  obtain rfl := (String.append_right_inj _).1 hkey
  exact absurd hname (by decide)

end Build

end ModuleAssets
