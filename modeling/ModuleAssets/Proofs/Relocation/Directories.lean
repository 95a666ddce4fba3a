import ModuleAssets.Proofs.Asset.Held
import ModuleAssets.Proofs.Files.Following
import ModuleAssets.Proofs.Files.Ordered
import ModuleAssets.Proofs.Path.Within
import ModuleAssets.Proofs.Relocation.Analysis
/-!
# Directories — what comes with a directory that a module needs

A walk asks for a directory only within the package of its module
(`Walk.within_of_edits`). Such a directory is copied by its listing. What this holds is said
on the tree alone: all files and links below, but those with a hidden name or a
`node_modules` on their way and those that are code (`exists_listing`). The listing has one
thing more. Where the directory's path is that of a link, it begins with the link itself, which
is recorded under the directory's name with nothing behind it (`Build.link_itself_copied`).
-/

namespace ModuleAssets

open Syntax

/-! ## Which directories are asked for -/

theorem Referent.segments_prefix_of_ofValue? {ctx : ModuleContext} {v : Value} {root path : String}
    (hroot : ctx.packageRoot = some root) (h : ofValue? ctx v = some (.directory path)) :
    Path.segments root <+: Path.segments path := by
  unfold ofValue? at h
  split at h
  · cases h
  · obtain ⟨found, hresolved, hfound⟩ := Option.bind_eq_some_iff.1 h
    split at hfound
    · cases hfound
    · split at hfound
      · cases hfound
      · rw [hroot] at hfound
        dsimp only at hfound
        split at hfound
        · rename_i hwithin
          cases hfound
          obtain ⟨names, hnames, rfl⟩ := Path.exists_rooted_of_resolve hresolved
          rw [Path.segments_rooted hnames]
          exact Path.segments_prefix_of_isWithin hnames hwithin
        · cases hfound
      · cases hfound
  · cases h

theorem Plan.directory_of_mem_addFile {p : Plan} (n : Naming) {path source name : String}
    (h : .directory source name ∈ (p.addFile n path).1.tasks) :
    .directory source name ∈ p.tasks := by
  have hbefore := (mem_tasks_of_mem_addTask h).resolve_right nofun
  dsimp only at hbefore
  split at hbefore
  · split at hbefore
    · exact (mem_tasks_of_mem_addTask hbefore).resolve_right nofun
    · exact hbefore
  · exact hbefore

/-- **A walk asks for directories of its package.** -/
theorem Walk.within_of_edits {w : WalkSetting} {may : Walk.Writing} {d d' : Draft}
    (h : d.Edits w may d') {root source name : String} (hroot : w.ctx.packageRoot = some root)
    (htask : .directory source name ∈ d'.plan.tasks) :
    .directory source name ∈ d.plan.tasks ∨ Path.segments root <+: Path.segments source := by
  induction h with
  | refl => exact .inl htask
  | overwrite _ _ ih => exact ih (Draft.plan_overwrite _ _ _ ▸ htask)
  | appendRight _ _ ih => exact ih (Draft.plan_appendRight _ _ _ ▸ htask)
  | addFile _ _ ih => exact ih (Plan.directory_of_mem_addFile (Referent.naming w.ctx) htask)
  | addDirectory _ hpath ih =>
    obtain hbefore | heq := Plan.mem_tasks_of_mem_addTask htask
    · exact ih hbefore
    · obtain ⟨rfl, -⟩ := AssetTask.directory.inj heq
      exact .inr (Referent.segments_prefix_of_ofValue? hroot hpath)

/-! ## What is copied -/

/-- The path of a place as it is written. -/
def joinedNames (place : List String) : String :=
  String.ofList (Text.joinWithChar '/' (place.map String.toList))

/-- A file or link below a node that is copied with it: no name on its way is hidden or
`node_modules`, and it is no code. -/
def Node.IsCopied (node : Node) (place : List String) : Prop :=
  place ≠ [] ∧ node.IsLeaf place ∧
    (∀ name ∈ place, Text.startsWith name "." = false ∧ name ≠ "node_modules") ∧
    Text.endsWith (joinedNames place) ".js" = false

/-- Slashes for backslashes make no ending of code, and hide none. -/
theorem endsWith_relativeName (place : List String) :
    Text.endsWith (relativeName place) ".js" = Text.endsWith (joinedNames place) ".js" := by
  have hslash (c e : Char) (he : e ≠ '/' ∧ e ≠ '\\') :
      (if c = '\\' then '/' else c) = e ↔ c = e := by
    by_cases hc : c = '\\'
    · rw [if_pos hc]
      exact iff_of_false he.1.symm fun heq => he.2 (heq.symm.trans hc)
    · rw [if_neg hc]
  have hmap (cs : List Char) :
      ".js".toList <:+ cs.map (fun c => if c = '\\' then '/' else c) ↔ ".js".toList <:+ cs := by
    constructor
    · -- each letter of the ending comes from itself only, since none is a slash
      rintro ⟨front, heq⟩
      obtain ⟨before, ending, rfl, -, hending⟩ := List.map_eq_append_iff.1 heq.symm
      refine ⟨before, congrArg _ ?_⟩
      have hchars : ".js".toList = ['.', 'j', 's'] := rfl
      rw [hchars, List.map_eq_cons_iff] at hending
      obtain ⟨dot, rest, rfl, hdot, hending⟩ := hending
      obtain ⟨j, rest, rfl, hj, hending⟩ := List.map_eq_cons_iff.1 hending
      obtain ⟨s, rest, rfl, hs, hending⟩ := List.map_eq_cons_iff.1 hending
      rw [(hslash dot '.' (by decide)).1 hdot, (hslash j 'j' (by decide)).1 hj,
        (hslash s 's' (by decide)).1 hs, List.map_eq_nil_iff.1 hending, hchars]
    · exact fun h => h.map (fun c => if c = '\\' then '/' else c)
  rw [Bool.eq_iff_iff, Text.endsWith, Text.endsWith, List.isSuffixOf_iff_suffix,
    List.isSuffixOf_iff_suffix, relativeName, joinedNames]
  simp only [String.toList_ofList]
  exact hmap (Text.joinWithChar '/' (place.map String.toList))

theorem isListed_iff {name : String} :
    isListed name = true ↔ Text.startsWith name "." = false ∧ name ≠ "node_modules" := by
  simp [isListed]

/-- The places below a node that are copied, in the order of the listing. -/
def Node.copied (node : Node) : List (List String) :=
  (node.leaves isListed).filter fun place => place ≠ [] && isDirectoryAsset (relativeName place)

/-- **The listing holds what is copied.** -/
theorem Node.mem_copied_iff {node : Node} (h : node.isOrdered = true) {place : List String} :
    place ∈ node.copied ↔ node.IsCopied place := by
  rw [copied, List.mem_filter, mem_leaves_iff isListed node h, IsCopied, ← endsWith_relativeName]
  simp only [isListed_iff, isDirectoryAsset, Bool.and_eq_true, decide_eq_true_eq,
    Bool.not_eq_true']
  tauto

theorem Node.pairwise_copied {node : Node} (h : node.isOrdered = true) :
    node.copied.Pairwise ComesBefore :=
  (pairwise_leaves isListed node h).filter _

theorem nodup_of_pairwise_comesBefore {places : List (List String)}
    (h : places.Pairwise ComesBefore) : places.Nodup := by
  have hne (place other : List String) (hbefore : ComesBefore place other) : place ≠ other := by
    rintro rfl
    exact ComesBefore.irrefl place hbefore
  exact h.imp (hne _ _)

/-! ## The listing of a path -/

/-- What is found for a path: the path itself unless that of a directory, and what is copied
with what the path leads to. -/
theorem exists_listing {files : FileTree} {source : String} {found : List (String × String)}
    (h : assetsBelow files isDirectoryAsset source = .ok found) :
    ∃ entry node, files.entry source = .ok entry ∧ files.target source = .ok node ∧
      found = (if entry.isDirectory then [] else [(source, "")]) ++
        node.copied.map fun place => (pathBelow source place, relativeName place) := by
  unfold assetsBelow at h
  split at h
  · rename_i listed hlisted
    cases h
    obtain ⟨entry, node, hentry, htarget, rfl⟩ := exists_listBelow hlisted
    refine ⟨entry, node, hentry, htarget, ?_⟩
    -- the path itself is listed with the empty name, which is not that of code
    have hself : (if entry.isDirectory then [] else [(source, "")]).filter
        (fun f => isDirectoryAsset f.2) = if entry.isDirectory then [] else [(source, "")] := by
      split
      · rfl
      · exact List.filter_cons_of_pos (by decide : isDirectoryAsset "" = true)
    rw [List.filter_append, hself, List.filter_map, List.filter_filter, Node.copied]
    refine congrArg (_ ++ List.map _ ·) (List.filter_congr fun place _ => ?_)
    rw [Bool.and_comm]
    rfl
  · cases h

/-! ## The copy -/

/-- What is to be sent is sent, if all of it arrives. -/
theorem sentEach_of_done {files : FileTree} {host : Host} {transfers : List (String × String)}
    {o : Output} (hdone : (transferAll files host transfers o).failure = none) :
    sentEach (fun t o => transfer files host t.1 t.2 o) (fun t _ => sent files t.1 t.2)
      transfers o = transfers := by
  induction transfers generalizing o with
  | nil => rfl
  | cons t rest ih =>
    rw [transferAll, Transferred.andThen] at hdone
    rw [sentEach]
    cases hfailure : (transfer files host t.1 t.2 o).failure with
    | some e =>
      rw [hfailure] at hdone
      exact absurd (hfailure.symm.trans hdone) (Option.some_ne_none e)
    | none =>
      rw [hfailure] at hdone
      rw [sent_of_done hfailure, Option.isNone_none, if_pos rfl, ih hdone]
      rfl

namespace Build

/-- **A directory that a module needs lies in its package, and what is copied with it is told by
the tree.** All files and links below are, in the order of their names and each once, but not
what is hidden, what stands in a `node_modules` or bears this name, and code. The path of a place
is the end of its key, with slashes for backslashes. Only if the directory's own path is not that
of a directory, it is copied as well, with nothing for its place. -/
theorem directory_copied (w : WalkSetting) (files : FileTree) (source name : String) :
    (∀ (program : Tree) (draft : Draft) (root : String),
      w.ctx.packageRoot = some root →
      .directory source name ∈ (walkProgram w program draft).plan.tasks →
      .directory source name ∈ draft.plan.tasks ∨ Path.segments root <+: Path.segments source) ∧
    ∀ (host : Host) (assetBase : String) (o : Output),
      files.root.isOrdered = true →
      (runTask files host assetBase (.directory source name) o).failure = none →
      ∃ (entry node : Node) (places : List (List String)),
        files.entry source = .ok entry ∧ files.target source = .ok node ∧
        (∀ place, place ∈ places ↔ node.IsCopied place) ∧
        places.Pairwise ComesBefore ∧ places.Nodup ∧
        (∀ place ∈ places, (∀ name ∈ place, '\\' ∉ name.toList) →
          relativeName place = joinedNames place) ∧
        let transfers :=
          (if entry.isDirectory then [] else [(source, assetBase ++ name ++ "/")]) ++
            places.map fun place =>
              (pathBelow source place, assetBase ++ name ++ "/" ++ relativeName place)
        let done := runTask files host assetBase (.directory source name) o
        done = transferAll files host transfers o ∧
          ∀ key, done.output.held key = settleAll files key transfers (o.held key) := by
  refine ⟨fun program draft root hroot htask =>
    Walk.within_of_edits (edits_walkProgram w program draft) hroot htask,
    fun host assetBase o hfiles hdone => ?_⟩
  have hsettles := settles_runTask files host assetBase (.directory source name) o
  rw [runTask, sentTask] at hsettles
  rw [runTask] at hdone ⊢
  cases hfound : assetsBelow files isDirectoryAsset source with
  | error e =>
    rw [hfound] at hdone
    exact absurd hdone (Option.some_ne_none e)
  | ok found =>
    obtain ⟨entry, node, hentry, htarget, rfl⟩ := exists_listing hfound
    have hnode : node.isOrdered = true := FileTree.isOrdered_node hfiles htarget
    rw [hfound] at hdone hsettles
    dsimp only at hdone hsettles ⊢
    refine ⟨entry, node, node.copied, hentry, htarget, fun place => Node.mem_copied_iff hnode,
      Node.pairwise_copied hnode, nodup_of_pairwise_comesBefore (Node.pairwise_copied hnode),
      fun place _ hplain => relativeName_eq hplain, ?_⟩
    have htransfers :
        ((if entry.isDirectory then [] else [(source, "")]) ++
            node.copied.map fun place => (pathBelow source place, relativeName place)).map
          (fun f => (f.1, assetBase ++ name ++ "/" ++ f.2)) =
        (if entry.isDirectory then [] else [(source, assetBase ++ name ++ "/")]) ++
          node.copied.map fun place =>
            (pathBelow source place, assetBase ++ name ++ "/" ++ relativeName place) := by
      rw [List.map_append, List.map_map]
      refine congrArg (· ++ _) ?_
      split
      · rfl
      · rw [List.map_singleton]
        dsimp only
        rw [String.append_empty]
    rw [htransfers] at hdone hsettles ⊢
    rw [sentEach_of_done hdone] at hsettles
    exact ⟨rfl, hsettles hdone⟩

/-- A package with a directory that holds assets, and what is none. -/
def nestedAssets : FileTree :=
  let empty : Node := .file ByteArray.empty 0o644
  ⟨.directory [("p", .directory
    [("d", .directory
      [(".h", empty), ("a.txt", empty), ("b.js", empty),
        ("node_modules", .directory [("c.txt", empty)]), ("s", .directory [("c.txt", empty)])]),
    ("package.json", empty)])]⟩

/-- Two of the files are copied. -/
theorem directory_copied_nested :
    let b := Build.ofOptions default
    let source := "x(__dirname + '/d')"
    (∃ parsed, parse source = .ok parsed ∧
      let (w, program, draft) := b.prepare nestedAssets (.ofExisting []) "/p/m.js" source parsed
      w.ctx.packageRoot = some "/p" ∧
        .directory "/p/d" "d" ∈ (walkProgram w program draft).plan.tasks ∧
        Path.segments "/p" <+: Path.segments "/p/d") ∧
    let done := runTask nestedAssets .open_ "" (.directory "/p/d" "d") default
    done.failure = none ∧ nestedAssets.root.isOrdered = true ∧
      done.output.emitted.map (·.1) = ["d/a.txt", "d/s/c.txt"] ∧
      ∃ (node : Node) (places : List (List String)), nestedAssets.target "/p/d" = .ok node ∧
        places.Nodup ∧ (∀ place, place ∈ places ↔ node.IsCopied place) ∧
        done = transferAll nestedAssets .open_
          (places.map fun place =>
            (pathBelow "/p/d" place, "d/" ++ relativeName place)) default := by
  intro b source
  obtain ⟨parsed, hparsed, hroot, htask, hempty⟩ :
      ∃ parsed, parse source = .ok parsed ∧
        let prepared := b.prepare nestedAssets (.ofExisting []) "/p/m.js" source parsed
        prepared.1.ctx.packageRoot = some "/p" ∧
          .directory "/p/d" "d" ∈ (walkProgram prepared.1 prepared.2.1 prepared.2.2).plan.tasks ∧
          .directory "/p/d" "d" ∉ prepared.2.2.plan.tasks :=
    exists_ok_of_any (by decide +kernel)
  obtain ⟨hlies, hcopied⟩ := directory_copied
    (b.prepare nestedAssets (.ofExisting []) "/p/m.js" source parsed).1 nestedAssets "/p/d" "d"
  refine ⟨⟨parsed, hparsed, hroot, htask, (hlies _ _ _ hroot htask).resolve_left hempty⟩, ?_⟩
  intro done
  have hdone : done.failure = none := by decide +kernel
  have hordered : nestedAssets.root.isOrdered = true := by decide +kernel
  have hentry : (nestedAssets.entry "/p/d").toOption.any Node.isDirectory = true := by
    decide +kernel
  obtain ⟨entry, node, places, hfound, htarget, hmem, -, honce, -, hdone', -⟩ :=
    hcopied .open_ "" default hordered hdone
  have hself : entry.isDirectory = true := by
    rw [hfound] at hentry
    exact hentry
  rw [hself, if_pos rfl] at hdone'
  exact ⟨hdone, hordered, by decide +kernel, node, places, htarget, honce, hmem, hdone'⟩

/-- **A link to a directory is recorded with nothing for its place**, and a backslash in a name
parts it. -/
theorem link_itself_copied :
    let files : FileTree := ⟨.directory
      [("d", .link "e"), ("e", .directory
        [("a.txt", .file ByteArray.empty 0o644), ("x\\y", .file ByteArray.empty 0o644)])]⟩
    let done := runTask files .open_ "" (.directory "/d" "d") default
    files.root.isOrdered = true ∧ done.failure = none ∧
      done.output.emitted.map (·.1) = ["d/a.txt", "d/x/y"] ∧
      done.output.registry.symlinks = [("d/", "e")] := by
  decide +kernel

end Build

end ModuleAssets
