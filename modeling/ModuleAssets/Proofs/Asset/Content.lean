import ModuleAssets.Proofs.Asset.Held
import ModuleAssets.Proofs.Asset.Links
import ModuleAssets.Proofs.Files.Following
/-!
# Content — what there is under the keys of a commit

A commit that is done has settled all keys that it sent something to: there is the
content of a file there, and of a link its target (`settled_runTasks`). From a key the
recorded links lead on, and in the end there may be content.

The content of a file that a module needs is there under its key. That of a file which
the module needs by a link to it is there only where the link's target denotes a key
with the content, and nothing but the link is sent for it
(`Build.content_of_commit`).
-/

namespace ModuleAssets

/-! ## What is sent for a task -/

section

variable {files : FileTree} {host : Host} {assetBase path : String} {o : Output}

/-- What each of some things sends is sent, if all of them are done. -/
theorem subset_sentEach {α : Type} {run : α → Output → Transferred}
    {sent : α → Output → List (String × String)} {xs : List α} {x : α} (hx : x ∈ xs)
    (hdone : (runEach run xs o).failure = none) :
    ∃ o', (run x o').failure = none ∧ sent x o' ⊆ sentEach run sent xs o := by
  induction xs generalizing o with
  | nil => exact absurd hx List.not_mem_nil
  | cons y rest ih =>
    rw [runEach, Transferred.andThen] at hdone
    rw [sentEach]
    cases hfailure : (run y o).failure with
    | some e =>
      rw [hfailure] at hdone
      exact absurd (hfailure.symm.trans hdone) (Option.some_ne_none e)
    | none =>
      rw [hfailure] at hdone
      rw [Option.isNone_none, if_pos rfl]
      obtain rfl | hrest := List.mem_cons.1 hx
      · exact ⟨o, hfailure, List.subset_append_left _ _⟩
      · obtain ⟨o', hrun, hsubset⟩ := ih hrest hdone
        exact ⟨o', hrun, List.Subset.trans hsubset (List.subset_append_right _ _)⟩

/-- A file that is needed is sent to its name, and it is a file or a link. -/
theorem sent_of_task {tasks : List AssetTask} {name : String}
    (hdone : (runTasks files host assetBase tasks o).failure = none)
    (htask : .file path name ∈ tasks) :
    (path, assetBase ++ name) ∈ sentTasks files host assetBase tasks o ∧
      ((∃ content mode, files.entry path = .ok (.file content mode)) ∨
        ∃ text, files.entry path = .ok (.link text)) := by
  rw [runTasks_eq] at hdone
  obtain ⟨o', hrun, hsubset⟩ :
      ∃ o', (runTask files host assetBase (.file path name) o').failure = none ∧
        sentTask files host assetBase (.file path name) o' ⊆
          sentTasks files host assetBase tasks o := subset_sentEach htask hdone
  have hsent : sent files path (assetBase ++ name) = [(path, assetBase ++ name)] :=
    sent_of_done hrun
  refine ⟨hsubset ?_, ?_⟩
  · rw [sentTask, hsent]
    exact List.mem_singleton_self _
  unfold sent at hsent
  split at hsent
  · rename_i heq
    exact .inr ⟨_, heq⟩
  · rename_i heq
    exact .inl ⟨_, _, heq⟩
  · cases hsent

end

/-! ## The files of an analysis -/

/-- An absolute path that is worked out. -/
def IsRooted (path : String) : Prop :=
  ∃ names, (∀ n ∈ names, Path.IsPlain n) ∧ path = String.ofList (Path.rooted names)

/-- What is recorded for a link leads from the link's directory to where the link leads. -/
theorem resolve_of_link {files : FileTree} {path text : String} (h : IsRooted path)
    (hentry : files.entry path = .ok (.link text)) :
    Path.resolve [Path.dirname path, linkTarget path text] =
      Path.resolve [Path.dirname path, text] := by
  obtain ⟨names, hnames, rfl⟩ := h
  obtain rfl | ⟨front, name, rfl⟩ := List.eq_nil_or_concat' names
  · exact absurd ⟨text, rfl⟩ (FileTree.entry_root hentry)
  · obtain ⟨hfront, hname⟩ := List.forall_mem_append.1 hnames
    exact resolve_linkTarget hfront (hname name List.mem_cons_self) text

namespace Draft

/-- All files that are needed are there, and their paths are worked out. -/
def FindsFiles (files : FileTree) (d : Draft) : Prop :=
  ∀ path name, .file path name ∈ d.plan.tasks → files.isFile path = true ∧ IsRooted path

variable {files : FileTree} {d d' : Draft}

theorem FindsFiles.overwrite (h : d.FindsFiles files) (span : Span) (text : String) :
    (d.overwrite span text).FindsFiles files := by
  rwa [FindsFiles, plan_overwrite]

theorem FindsFiles.addDirectory (h : d.FindsFiles files) (n : Naming) (path : String) :
    (d.addDirectory n path).1.FindsFiles files :=
  fun other name htask => h other name (Plan.file_of_mem_addDirectory n path htask)

end Draft

/-- What a walk plans as a file is there, and its path is worked out. -/
theorem Walk.isFile_of_finds {w : WalkSetting} {path : String} (h : Finds w path) :
    w.ctx.files.isFile path = true ∧ IsRooted path := by
  obtain ⟨v, hvalue⟩ | ⟨specifier, hbinary⟩ := h
  · unfold Referent.ofValue? at hvalue
    split at hvalue
    · cases hvalue
    · obtain ⟨found, hresolved, hfound⟩ := Option.bind_eq_some_iff.1 hvalue
      split at hfound
      · cases hfound
      · split at hfound
        · rename_i htarget
          cases hfound
          exact ⟨FileTree.isFile_iff.2 ⟨_, _, htarget⟩, Path.exists_rooted_of_resolve hresolved⟩
        · split at hfound
          · split at hfound
            · cases hfound
            · cases hfound
          · cases hfound
        · cases hfound
    · cases hvalue
  · unfold nativeBinary? at hbinary
    split at hbinary
    · rename_i hending
      obtain ⟨found, hpath, hfound⟩ := Option.bind_eq_some_iff.1 hbinary
      split at hfound
      · rename_i hfile
        cases hfound
        refine ⟨hfile, ?_⟩
        split at hpath
        · rename_i habsolute
          cases hpath
          refine Path.exists_rooted_of_normalize habsolute ?_
          obtain ⟨front, hfront⟩ := List.isSuffixOf_iff_suffix.1 hending
          rw [← hfront, Path.endsWithSlash_append _ (by decide)]
          rfl
        · split at hpath
          · exact Path.exists_rooted_of_resolve hpath
          · cases hpath
      · cases hfound
    · cases hbinary

theorem Draft.FindsFiles.edits {w : WalkSetting} {may : Walk.Writing} {d d' : Draft}
    (h : d.FindsFiles w.ctx.files) (hedits : d.Edits w may d') : d'.FindsFiles w.ctx.files := by
  induction hedits with
  | refl => exact h
  | overwrite _ _ ih => exact ih.overwrite _ _
  | appendRight _ _ ih => rwa [FindsFiles, plan_appendRight]
  | addFile _ hpath ih =>
    intro other name htask
    obtain hbefore | rfl := Plan.file_of_mem_addFile htask
    · exact ih other name hbefore
    · exact Walk.isFile_of_finds hpath
  | addDirectory _ _ ih => exact ih.addDirectory _ _

/-- **Every file that a module needs is there** when the module is analyzed, and its path
is worked out. -/
theorem Build.isFile_of_task {b : Build} (h : b.specialCases ⊆ SpecialCase.all) {files : FileTree}
    {registry registry' : Registry} {id source : String} {a : Analysis}
    (ha : b.analyze files registry id source = .ok (registry', a)) {path name : String}
    (htask : .file path name ∈ a.tasks) : files.isFile path = true ∧ IsRooted path := by
  obtain ⟨parsed, draft, -, rfl, rfl, rfl⟩ := exists_draft_of_analyze ha
  have hprepared : (b.prepare files registry id source parsed).2.2.FindsFiles files :=
    keeps_prepare (fun _ span text hd => hd.overwrite span text)
      (fun _ n _ path _ hd => hd.addDirectory n path) h files registry id source parsed
      fun _ _ => nofun
  exact hprepared.edits (edits_walkProgram (b.prepare files registry id source parsed).1
    (b.prepare files registry id source parsed).2.1 _) path name htask

/-! ## Where a key leads -/

/-- From a key the recorded links lead on to a key with the content. -/
inductive Output.LeadsTo (o : Output) (content : ByteArray) : String → Prop
  | held {key : String} (hlink : o.registry.symlink? key = none)
    (h : Json.member? o.emitted key = some content) : LeadsTo o content key
  | linked {key target : String} (h : o.registry.symlink? key = some target)
    (hnext : LeadsTo o content (linkedKey key target)) : LeadsTo o content key

/-- A path and all that it leads to over links are sent, from nowhere else, to keys that
lead to each other in the same way. -/
inductive Carried (files : FileTree) (sent : List (String × String)) (content : ByteArray) :
    String → String → Prop
  | file {path key : String} {mode : Nat} (hsent : (path, key) ∈ sent)
    (honly : ∀ t ∈ sent, t.2 = key → t.1 = path)
    (h : files.entry path = .ok (.file content mode)) : Carried files sent content path key
  | link {path key text next : String} (hsent : (path, key) ∈ sent)
    (honly : ∀ t ∈ sent, t.2 = key → t.1 = path) (h : files.entry path = .ok (.link text))
    (htarget : Path.resolve [Path.dirname path, text] = some next)
    (hnext : Carried files sent content next (linkedKey key (linkTarget path text))) :
    Carried files sent content path key

section

variable {files : FileTree} {host : Host} {assetBase path key text : String} {o : Output}
variable {tasks : List AssetTask} {content : ByteArray}

theorem Output.leadsTo_iff_of_link {target : String} (h : o.registry.symlink? key = some target) :
    o.LeadsTo content key ↔ o.LeadsTo content (linkedKey key target) := by
  refine ⟨fun hleads => ?_, .linked h⟩
  cases hleads with
  | held hlink _ => exact absurd (hlink.symm.trans h) nofun
  | linked h' hnext => exact Option.some.inj (h'.symm.trans h) ▸ hnext

/-- A key leads to no two contents. -/
theorem Output.LeadsTo.unique {content' : ByteArray} (h : o.LeadsTo content key)
    (h' : o.LeadsTo content' key) : content = content' := by
  induction h with
  | held hlink h =>
    cases h' with
    | held _ h' => exact Option.some.inj (h.symm.trans h')
    | linked hlink' _ => exact absurd (hlink.symm.trans hlink') nofun
  | linked hlink _ ih => exact ih ((leadsTo_iff_of_link hlink).1 h')

theorem Output.LeadsTo.emitted_ne_nil (h : o.LeadsTo content key) : o.emitted ≠ [] := by
  induction h with
  | held _ h =>
    intro hnil
    rw [hnil] at h
    cases h
  | linked _ _ ih => exact ih

/-- What was sent and is a file is held. -/
theorem held_runTasks {mode : Nat} (hdone : (runTasks files host assetBase tasks o).failure = none)
    (hsent : (path, key) ∈ sentTasks files host assetBase tasks o)
    (honly : ∀ t ∈ sentTasks files host assetBase tasks o, t.2 = key → t.1 = path)
    (h : files.entry path = .ok (.file content mode)) :
    (runTasks files host assetBase tasks o).output.registry.symlink? key = none ∧
      Json.member? (runTasks files host assetBase tasks o).output.emitted key = some content := by
  have hheld := settled_runTasks hdone hsent honly
  rw [settled, h] at hheld
  exact Prod.mk.inj (Prod.mk.inj hheld).2

/-- What was sent and is a link is recorded, and no content for it. -/
theorem linked_runTasks (hdone : (runTasks files host assetBase tasks o).failure = none)
    (hsent : (path, key) ∈ sentTasks files host assetBase tasks o)
    (honly : ∀ t ∈ sentTasks files host assetBase tasks o, t.2 = key → t.1 = path)
    (h : files.entry path = .ok (.link text)) :
    (runTasks files host assetBase tasks o).output.registry.symlink? key =
        some (linkTarget path text) ∧
      Json.member? (runTasks files host assetBase tasks o).output.emitted key =
        Json.member? o.emitted key := by
  have hheld := settled_runTasks hdone hsent honly
  rw [settled, h] at hheld
  exact Prod.mk.inj (Prod.mk.inj hheld).2

/-- **Links that are sent with all they lead to lead to content.** -/
theorem leadsTo_of_carried (hdone : (runTasks files host assetBase tasks o).failure = none)
    (h : Carried files (sentTasks files host assetBase tasks o) content path key) :
    (runTasks files host assetBase tasks o).output.LeadsTo content key := by
  induction h with
  | file hsent honly h =>
    obtain ⟨hlink, hheld⟩ := held_runTasks hdone hsent honly h
    exact .held hlink hheld
  | link hsent honly h _ _ ih => exact .linked (linked_runTasks hdone hsent honly h).1 ih

end

/-! ## Commits -/

namespace Build

variable {b : Build} {files : FileTree} {host : Host} {a : Analysis} {o : Output}

theorem done_of_commit {m : Relocated} (h : (b.commit files host a o).result = .ok m) :
    (runTasks files host b.options.assetBase a.tasks o).failure = none ∧
      (b.commit files host a o).output =
        (runTasks files host b.options.assetBase a.tasks o).output := by
  unfold commit at h ⊢
  dsimp only at h ⊢
  cases hfailure : (runTasks files host b.options.assetBase a.tasks o).failure with
  | none => exact ⟨rfl, rfl⟩
  | some e =>
    rw [hfailure] at h
    cases h

/-- **What a commit leaves of a file that its module needs**, if nothing else was sent to
its key. The path led to a file when the module was analyzed. Where the path is no link,
the host holds the content of the file. Where it is a link, nothing is recorded but the
link, so that its key leads to what the key leads to that the link's target denotes: to
the content at its end if all on the way is sent to such keys, too. -/
theorem content_of_commit (h : b.specialCases ⊆ SpecialCase.all) {registry registry' : Registry}
    {id source : String} (ha : b.analyze files registry id source = .ok (registry', a))
    {m : Relocated} (hdone : (b.commit files host a o).result = .ok m) {path name : String}
    (htask : .file path name ∈ a.tasks)
    (honly : ∀ t ∈ sentTasks files host b.options.assetBase a.tasks o,
      t.2 = b.options.assetBase ++ name → t.1 = path) :
    let key := b.options.assetBase ++ name
    let o' := (b.commit files host a o).output
    ∃ content mode, files.target path = .ok (.file content mode) ∧
      ((files.entry path = .ok (.file content mode) ∧ o'.registry.symlink? key = none ∧
          Json.member? o'.emitted key = some content) ∨
        ∃ text, files.entry path = .ok (.link text) ∧
          o'.registry.symlink? key = some (linkTarget path text) ∧
          Path.resolve [Path.dirname path, linkTarget path text] =
            Path.resolve [Path.dirname path, text] ∧
          Json.member? o'.emitted key = Json.member? o.emitted key ∧
          ∀ c, o'.LeadsTo c key ↔ o'.LeadsTo c (linkedKey key (linkTarget path text))) ∧
      ∀ c, Carried files (sentTasks files host b.options.assetBase a.tasks o) c path key →
        o'.LeadsTo c key := by
  intro key o'
  obtain ⟨hfailure, houtput⟩ := done_of_commit hdone
  obtain ⟨hsent, hentry⟩ := sent_of_task hfailure htask
  have hcarried : ∀ c, Carried files (sentTasks files host b.options.assetBase a.tasks o) c path
      key → o'.LeadsTo c key := by
    intro c hc
    rw [show o' = _ from houtput]
    exact leadsTo_of_carried hfailure hc
  obtain ⟨content, mode, hentry⟩ | ⟨text, hentry⟩ := hentry
  · have hheld := held_runTasks hfailure hsent honly hentry
    rw [← houtput] at hheld
    exact ⟨content, mode, FileTree.target_of_entry hentry nofun, .inl ⟨hentry, hheld⟩, hcarried⟩
  · obtain ⟨hlink, hemitted⟩ := linked_runTasks hfailure hsent honly hentry
    rw [← houtput] at hlink hemitted
    obtain ⟨hfile, hrooted⟩ := isFile_of_task h ha htask
    obtain ⟨content, mode, htarget⟩ := FileTree.isFile_iff.1 hfile
    exact ⟨content, mode, htarget, .inr ⟨text, hentry, hlink, resolve_of_link hrooted hentry,
      hemitted, fun c => Output.leadsTo_iff_of_link hlink⟩, hcarried⟩

/-- A package with one file and a link to it. -/
def linkedAsset : FileTree :=
  ⟨.directory [("pkg", .directory
    [("a.txt", .file ⟨#[65]⟩ 0o644), ("link.txt", .link "a.txt")])]⟩

theorem target_linkedAsset :
    linkedAsset.target "/pkg/link.txt" = .ok (.file ⟨#[65]⟩ 0o644) ∧
      linkedAsset.entry "/pkg/link.txt" = .ok (.link "a.txt") ∧
      linkedAsset.entry "/pkg/a.txt" = .ok (.file ⟨#[65]⟩ 0o644) :=
  ⟨rfl, rfl, rfl⟩

/-- A module that needs both the link and the file: the key of the link leads to the
content of the file. -/
theorem content_of_commit_link :
    let b := ofOptions default
    let source := "x(__dirname + '/link.txt', __dirname + '/a.txt')"
    ∃ registry a m, b.specialCases ⊆ SpecialCase.all ∧
      b.analyze linkedAsset (.ofExisting []) "/pkg/m.js" source = .ok (registry, a) ∧
      let o : Output := .ofRegistry registry
      let o' := (b.commit linkedAsset .open_ a o).output
      let sent := sentTasks linkedAsset .open_ b.options.assetBase a.tasks o
      let key := b.options.assetBase ++ "link.txt"
      (b.commit linkedAsset .open_ a o).result = .ok m ∧
      .file "/pkg/link.txt" "link.txt" ∈ a.tasks ∧
      (∀ t ∈ sent, t.2 = key → t.1 = "/pkg/link.txt") ∧
      (∃ content mode, linkedAsset.target "/pkg/link.txt" = .ok (.file content mode) ∧
        ((linkedAsset.entry "/pkg/link.txt" = .ok (.file content mode) ∧
            o'.registry.symlink? key = none ∧ Json.member? o'.emitted key = some content) ∨
          ∃ text, linkedAsset.entry "/pkg/link.txt" = .ok (.link text) ∧
            o'.registry.symlink? key = some (linkTarget "/pkg/link.txt" text) ∧
            Path.resolve [Path.dirname "/pkg/link.txt", linkTarget "/pkg/link.txt" text] =
              Path.resolve [Path.dirname "/pkg/link.txt", text] ∧
            Json.member? o'.emitted key = Json.member? o.emitted key ∧
            ∀ c, o'.LeadsTo c key ↔ o'.LeadsTo c (linkedKey key (linkTarget "/pkg/link.txt" text))) ∧
        ∀ c, Carried linkedAsset sent c "/pkg/link.txt" key → o'.LeadsTo c key) ∧
      Carried linkedAsset sent ⟨#[65]⟩ "/pkg/link.txt" key := by
  intro b source
  have hrules : b.specialCases ⊆ SpecialCase.all := List.Subset.refl _
  have hchecked : ((b.analyze linkedAsset (.ofExisting []) "/pkg/m.js" source).toOption.any
      fun (registry, a) =>
        ((b.commit linkedAsset .open_ a (.ofRegistry registry)).result.toOption.isSome) &&
        decide (.file "/pkg/link.txt" "link.txt" ∈ a.tasks ∧
          sentTasks linkedAsset .open_ b.options.assetBase a.tasks (.ofRegistry registry) =
            [("/pkg/link.txt", "link.txt"), ("/pkg/a.txt", "a.txt")])) = true := by
    decide +kernel
  cases ha : b.analyze linkedAsset (.ofExisting []) "/pkg/m.js" source with
  | error refusal => rw [ha] at hchecked; cases hchecked
  | ok analyzed =>
    obtain ⟨registry, a⟩ := analyzed
    rw [ha] at hchecked
    obtain ⟨hdone, hsent⟩ := (Bool.and_eq_true _ _).mp hchecked
    obtain ⟨htask, hsent⟩ := of_decide_eq_true hsent
    cases hresult : (b.commit linkedAsset .open_ a (.ofRegistry registry)).result with
    | error e => rw [hresult] at hdone; cases hdone
    | ok m =>
      have honly : ∀ t ∈ sentTasks linkedAsset .open_ b.options.assetBase a.tasks
            (.ofRegistry registry),
          t.2 = b.options.assetBase ++ "link.txt" → t.1 = "/pkg/link.txt" := by
        rw [hsent]
        decide
      refine ⟨registry, a, m, hrules, rfl, hresult, htask, honly,
        content_of_commit hrules ha hresult htask honly, ?_⟩
      rw [hsent]
      exact .link (by decide) (by decide) target_linkedAsset.2.1 (by decide +kernel)
        (.file (by decide +kernel) (by decide +kernel) target_linkedAsset.2.2)

/-- A module that needs only the link: the link is recorded, and no key has the content. -/
theorem no_content_of_link_alone :
    let b := ofOptions default
    let source := "x(__dirname + '/link.txt')"
    ∃ registry a m,
      b.analyze linkedAsset (.ofExisting []) "/pkg/m.js" source = .ok (registry, a) ∧
      .file "/pkg/link.txt" "link.txt" ∈ a.tasks ∧
      let o' := (b.commit linkedAsset .open_ a (.ofRegistry registry)).output
      (b.commit linkedAsset .open_ a (.ofRegistry registry)).result = .ok m ∧
      linkedAsset.target "/pkg/link.txt" = .ok (.file ⟨#[65]⟩ 0o644) ∧
      o'.registry.symlinks = [("link.txt", "a.txt")] ∧ o'.emitted = [] ∧
      ∀ content, ¬o'.LeadsTo content (b.options.assetBase ++ "link.txt") := by
  intro b source
  have hchecked : ((b.analyze linkedAsset (.ofExisting []) "/pkg/m.js" source).toOption.any
      fun (registry, a) =>
        let committed := b.commit linkedAsset .open_ a (.ofRegistry registry)
        committed.result.toOption.isSome &&
        decide (.file "/pkg/link.txt" "link.txt" ∈ a.tasks ∧
          committed.output.registry.symlinks = [("link.txt", "a.txt")] ∧
          committed.output.emitted.isEmpty = true)) = true := by
    decide +kernel
  cases ha : b.analyze linkedAsset (.ofExisting []) "/pkg/m.js" source with
  | error refusal => rw [ha] at hchecked; cases hchecked
  | ok analyzed =>
    obtain ⟨registry, a⟩ := analyzed
    rw [ha] at hchecked
    obtain ⟨hdone, hleft⟩ := (Bool.and_eq_true _ _).mp hchecked
    obtain ⟨htask, hsymlinks, hemitted⟩ := of_decide_eq_true hleft
    have hemitted := List.isEmpty_iff.1 hemitted
    cases hresult : (b.commit linkedAsset .open_ a (.ofRegistry registry)).result with
    | error e => rw [hresult] at hdone; cases hdone
    | ok m =>
      exact ⟨registry, a, m, rfl, htask, hresult, target_linkedAsset.1, hsymlinks, hemitted,
        fun content hleads => Output.LeadsTo.emitted_ne_nil hleads hemitted⟩

end Build

end ModuleAssets
