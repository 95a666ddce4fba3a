import ModuleAssets.Proofs.Asset.Sent
import ModuleAssets.Proofs.Evaluate.Gives
import ModuleAssets.Proofs.Path.Below
import ModuleAssets.Proofs.Relocation.Prepared
import ModuleAssets.Proofs.Syntax.Sentence
/-!
# References — the way from a module to its assets

The text of a reference is written by one part of a build, read by the language and
worked out by the program that runs, while the asset itself goes to a key that
another part puts together. The text is a sum of the module's directory and a path,
whatever characters the path has (`Naming.exists_parse_reference`); the steps up in
the path are as many as the module lies below the output, so that the rest of it
starts from there (`Naming.normalize_reference`); and this rest is the key
(`keys_sentTask`).
-/

namespace ModuleAssets

open Syntax

namespace Naming

theorem toList_escape (text : String) : (escape text).toList = text.toList.flatMap escapeChar :=
  String.toList_ofList

/-- A reference adds a text to the directory. -/
theorem toList_reference (n : Naming) (name : String) :
    (n.reference name).toList = "__dirname".toList ++ ' ' :: '+' :: ' ' :: '\'' ::
      (("/" ++ n.options.relativeAssetPrefix ++ name).toList.flatMap escapeChar ++ ['\'']) := by
  have hslash : "/".toList.flatMap escapeChar = ['/'] := by decide
  unfold reference
  rw [String.toList_append, String.toList_append, String.toList_append, toList_escape,
    toList_escape, String.toList_append, String.toList_append, List.flatMap_append,
    List.flatMap_append, hslash]
  simp only [List.append_assoc]
  rfl

/-- **A reference is the path from the module's directory to the asset.** -/
theorem exists_parse_reference (n : Naming) (name : String) :
    ∃ e, parse (n.reference name) = .ok (script e) ∧
      ∀ (ctx : ModuleContext) (env : Environment) (directory : String),
        env.lookup? "__dirname" = some (.text directory) →
          Gives ctx env e
            (.single (.text (directory ++ "/" ++ n.options.relativeAssetPrefix ++ name))) := by
  refine ⟨_, parse_sum (by decide) Syntax.spells_naming (n.toList_reference name), ?_⟩
  intro ctx env directory hdirectory
  have hname (span : Span) : Gives ctx env (.node (.identifier "__dirname") span [])
      (.single (.text directory)) := by
    simp [Gives, Tree.evaluate, Evaluation.ofName, hdirectory]
  have htext (text : String) (span : Span) : Gives ctx env (.node (.text (some text)) span [])
      (.single (.text text)) :=
    rfl
  have hop : ¬ BinaryOp.add.isLogical = true := Bool.false_ne_true
  refine (Gives.binary hop).2 ⟨_, _, _, _, rfl, hname _, htext _ _, ?_⟩
  simp only [String.ofList_toList, String.append_assoc]
  rfl

/-- The steps up in front of a reference. -/
theorem toList_steps (steps : Nat) :
    (String.join (List.replicate steps "../")).toList = Path.climbing steps := by
  rw [String.toList_join, Path.climbing, List.flatMap_def, List.map_replicate]
  rfl

/-- **From a directory below the root a reference leads to the key.** -/
theorem normalize_reference (n : Naming) (name : String) {directory root : String}
    (h : Path.LiesBelow n.options.outputDepth directory.toList root.toList) :
    Path.normalize (directory ++ "/" ++ n.options.relativeAssetPrefix ++ name) =
      Path.normalize (root ++ "/" ++ n.options.assetBase ++ name) := by
  have hpath : (directory ++ "/" ++ n.options.relativeAssetPrefix ++ name).toList =
      directory.toList ++ '/' :: (Path.climbing n.options.outputDepth ++
        (n.options.assetBase ++ name).toList) := by
    rw [Options.relativeAssetPrefix]
    simp only [String.toList_append, toList_steps, List.append_assoc]
    rfl
  have hkey : (root ++ "/" ++ n.options.assetBase ++ name).toList =
      root.toList ++ '/' :: (n.options.assetBase ++ name).toList := by
    simp only [String.toList_append, List.append_assoc]
    rfl
  rw [Path.normalize, Path.normalize, hpath, hkey, Path.normalizeChars_climb h]

end Naming

/-! ## Keys -/

/-- The name is that of a planned file or directory. -/
def AssetTask.Names (task : AssetTask) (name : String) : Prop :=
  (∃ path, task = .file path name) ∨ ∃ path, task = .directory path name

/-- **What a task writes goes to its name**, or to a place below it. -/
theorem keys_sentTask {files : FileTree} {host : Host} {assetBase : String} {task : AssetTask}
    {name : String} {o : Output} (h : task.Names name) {t : String × String}
    (ht : t ∈ sentTask files host assetBase task o) :
    t.2 = assetBase ++ name ∨ ∃ rest, t.2 = assetBase ++ name ++ "/" ++ rest := by
  obtain ⟨path, rfl⟩ | ⟨path, rfl⟩ := h
  · exact .inl (key_of_mem_sent ht)
  · rw [sentTask] at ht
    split at ht
    · exact absurd ht List.not_mem_nil
    · obtain ⟨f, hf, o', hsent⟩ := exists_of_mem_sentEach ht
      obtain ⟨⟨path', rest⟩, -, rfl⟩ := List.mem_map.1 hf
      exact .inr ⟨rest, key_of_mem_sent hsent⟩

namespace Build

/-- **References lead to assets.** The text of a reference is read as the path from
the module's directory; worked out, this path is the key of the asset; and what is
under the key was put there by a task of the name. Whatever an analysis writes was written
by a rule or a wrapper, or is written by the walk at a node, in ways each of which has a task
for every reference; and every text that it quotes is read back. -/
theorem references_lead {b : Build} (h : b.specialCases ⊆ SpecialCase.all) :
    (∀ (n : Naming) (name : String),
      (∃ e, parse (n.reference name) = .ok (script e) ∧
        ∀ (ctx : ModuleContext) (env : Environment) (directory : String),
          env.lookup? "__dirname" = some (.text directory) →
            Gives ctx env e
              (.single (.text (directory ++ "/" ++ n.options.relativeAssetPrefix ++ name)))) ∧
      (∀ directory root : String,
        Path.LiesBelow n.options.outputDepth directory.toList root.toList →
          Path.normalize (directory ++ "/" ++ n.options.relativeAssetPrefix ++ name) =
            Path.normalize (root ++ "/" ++ n.options.assetBase ++ name)) ∧
      ∀ (files : FileTree) (host : Host) (task : AssetTask) (o : Output), task.Names name →
        ∀ t ∈ sentTask files host n.options.assetBase task o,
          t.2 = n.options.assetBase ++ name ∨ ∃ rest, t.2 = n.options.assetBase ++ name ++ "/" ++ rest) ∧
    (∀ (files : FileTree) (registry registry' : Registry) (id source : String) (a : Analysis),
      b.analyze files registry id source = .ok (registry', a) →
        ∃ parsed w program draft, parse source = .ok parsed ∧
          b.prepare files registry id source parsed = (w, program, draft) ∧
          (∀ o ∈ a.patch.overwrites,
            (∃ names, Prepares (b.ruleContext files id) a.tasks o.text names) ∨
              Walk.Rewrites w program a.tasks o.span o.text) ∧
          ∀ i ∈ a.patch.insertions, Walk.Inserts w program i.position i.text) ∧
    ∀ text : String, parse (Json.quote text) = .ok (script
      (.node (.text (some text)) ⟨0, Text.byteLength (Json.quote text).toList⟩ [])) := by
  refine ⟨fun n name => ⟨n.exists_parse_reference name, fun directory root hbelow =>
    n.normalize_reference name hbelow, fun files host task o hnames t ht =>
      keys_sentTask hnames ht⟩, ?_, parse_quote⟩
  intro files registry registry' id source a ha
  exact rewrites_analyze h ha

/-- A file is referred to from two directories up, and its name has a quote and a line break. -/
theorem references_lead_up :
    let b := Build.ofOptions { (default : Options) with
      outputAssetBase := some "assets", outputDepth := 2 }
    let n : Naming := ⟨b.options, none⟩
    let files : FileTree := ⟨.directory [("pkg",
      .directory [("it's\n.txt", .file ByteArray.empty 0o644)])]⟩
    let reference := "__dirname + '/../../assets/it\\'s\\n.txt'"
    b.specialCases ⊆ SpecialCase.all ∧ n.reference "it's\n.txt" = reference ∧
      Path.LiesBelow 2 "/out/server/app".toList "/out".toList ∧
      Path.normalize ("/out/server/app" ++ "/" ++ "../../assets/" ++ "it's\n.txt") =
        Path.normalize ("/out" ++ "/" ++ "assets/" ++ "it's\n.txt") ∧
      ∃ registry' a,
        b.analyze files (.ofExisting []) "/pkg/m.js" "x(__dirname + '/it\\'s\\n.txt')" =
          .ok (registry', a) ∧
        a.tasks = [.file "/pkg/it's\n.txt" "it's\n.txt"] ∧
        a.patch.overwrites = [⟨⟨2, 28⟩, reference⟩] ∧
        ∃ w program, (∃ names,
            Prepares (b.ruleContext files "/pkg/m.js") a.tasks reference names) ∨
          Walk.Rewrites w program a.tasks ⟨2, 28⟩ reference := by
  intro b n files reference
  have hrules : b.specialCases ⊆ SpecialCase.all := List.Subset.refl _
  have hserver : Path.IsPlain "server".toList := ⟨by decide, by decide, by decide, by decide⟩
  have happ : Path.IsPlain "app".toList := ⟨by decide, by decide, by decide, by decide⟩
  have hbelow : Path.LiesBelow 2 "/out/server/app".toList "/out".toList :=
    ((Path.LiesBelow.refl "/out".toList).descend hserver).descend happ
  obtain ⟨⟨registry', a⟩, ha, htasks, hpatch⟩ : ∃ done,
      b.analyze files (.ofExisting []) "/pkg/m.js" "x(__dirname + '/it\\'s\\n.txt')" = .ok done ∧
        done.2.tasks = [.file "/pkg/it's\n.txt" "it's\n.txt"] ∧
        done.2.patch.overwrites = [⟨⟨2, 28⟩, reference⟩] :=
    exists_ok_of_any (by decide +kernel)
  obtain ⟨hnames, hanalyses, -⟩ := references_lead hrules
  obtain ⟨-, w, program, -, -, -, hwritten, -⟩ := hanalyses files _ registry' "/pkg/m.js" _ a ha
  exact ⟨hrules, by decide, hbelow, (hnames n "it's\n.txt").2.1 _ _ hbelow, registry', a, ha, htasks,
    hpatch, w, program, hwritten ⟨⟨2, 28⟩, reference⟩ (hpatch ▸ List.mem_singleton_self _)⟩

end Build

end ModuleAssets
