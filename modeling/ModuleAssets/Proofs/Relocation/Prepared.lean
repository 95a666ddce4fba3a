import ModuleAssets.Proofs.Relocation.Analysis
/-!
# Preparations — what is written before the walk

Before a module is walked, a rule for a special case and a wrapper may edit it. There are
four texts that these write (`Prepares`), of which one refers to an asset, and they put
nothing in between. With the texts of the walk these are all that an analysis writes
(`Draft.Prepared.edits`).
-/

namespace ModuleAssets

open Syntax

/-- The text that may be put in the place of a part before the walk, and the names that it
brings along. -/
inductive Prepares (ctx : SpecialCaseContext) (tasks : List AssetTask) :
    String → List String → Prop
  /-- A check that is known to hold. -/
  | held : Prepares ctx tasks "true" []
  /-- The place of the package next door. -/
  | directory {path name : String}
    (hpath : Path.resolve [ctx.directory, "../../../google-proto-files"] = some path)
    (htask : .directory path name ∈ tasks) :
    Prepares ctx tasks (ctx.naming.reference name) ["__dirname"]
  /-- The binary for this machine. -/
  | binary :
    Prepares ctx tasks
      ("'../build/Release/" ++ ("oracledb-abi" ++ ctx.options.moduleAbiVersion ++ "-" ++
        Platform.name ++ "-" ++ Platform.arch) ++ ".node'") []
  /-- The name of a parameter, which it declares itself. -/
  | parameter : Prepares ctx tasks Wrapper.parameterName []

theorem Prepares.mono {ctx : SpecialCaseContext} {tasks tasks' : List AssetTask} {text : String}
    {names : List String} (htasks : tasks ⊆ tasks') (h : Prepares ctx tasks text names) :
    Prepares ctx tasks' text names := by
  cases h with
  | held => exact .held
  | directory hpath htask => exact .directory hpath (htasks htask)
  | binary => exact .binary
  | parameter => exact .parameter

/-! ## Drafts -/

/-- All that was written was written before the walk. -/
structure Draft.Prepared (ctx : SpecialCaseContext) (d : Draft) : Prop where
  overwrites : ∀ o ∈ d.patch.overwrites, ∃ names, Prepares ctx d.plan.tasks o.text names
  insertions : d.patch.insertions = []

namespace Draft.Prepared

variable {ctx : SpecialCaseContext} {d d' : Draft}

theorem start (ctx : SpecialCaseContext) (source : String) (registry : Registry) :
    (Draft.start source registry).Prepared ctx :=
  ⟨fun _ => nofun, rfl⟩

theorem overwrite (h : d.Prepared ctx) (span : Span) {text : String} {names : List String}
    (htext : Prepares ctx d.plan.tasks text names) : (d.overwrite span text).Prepared ctx := by
  rw [Draft.overwrite]
  split
  · rename_i heq
    obtain ⟨-, -, -, rfl⟩ := Patch.overwrite_eq_ok heq
    refine ⟨fun o ho => ?_, List.filter_eq_nil_iff.2 fun i hi => ?_⟩
    · obtain hold | hnew := List.mem_append.1 ho
      · exact h.overwrites o (List.mem_filter.1 hold).1
      · obtain rfl := List.mem_singleton.1 hnew
        exact ⟨names, htext⟩
    · exact absurd (h.insertions ▸ hi) List.not_mem_nil
  · exact ⟨h.overwrites, h.insertions⟩

/-- A rule writes the place of the directory that it asks for. -/
theorem overwrite_addDirectory (h : d.Prepared ctx) {path : String}
    (hpath : Path.resolve [ctx.directory, "../../../google-proto-files"] = some path)
    (span : Span) :
    ((d.addDirectory ctx.naming path).1.overwrite span
      (d.addDirectory ctx.naming path).2).Prepared ctx := by
  have hgrown : (d.addDirectory ctx.naming path).1.Prepared ctx := by
    refine ⟨fun o ho => ?_, h.insertions⟩
    obtain ⟨names, htext⟩ := h.overwrites o ho
    exact ⟨names, htext.mono (Plan.subset_addDirectory _ ctx.naming path)⟩
  obtain ⟨name, htask, hreference⟩ := d.plan.exists_addDirectory ctx.naming path
  rw [show (d.addDirectory ctx.naming path).2 = ctx.naming.reference name from hreference]
  exact hgrown.overwrite span (.directory hpath htask)

theorem applyFirst {rules : List SpecialCase} (hrules : rules ⊆ SpecialCase.all) (id : String)
    (program : Tree) (h : d.Prepared ctx) :
    (SpecialCase.applyFirst rules id ctx program d).2.Prepared ctx := by
  have hstatement {rule : SpecialCaseContext → Tree → Draft → Option (Tree × Draft)}
      (heffect : ∀ statement, SpecialCase.RuleEffect ctx (rule ctx statement)) :
      (SpecialCase.ofStatement rule ctx program d).2.Prepared ctx :=
    SpecialCase.keeps_ofStatement (P := Prepared ctx) (fun _ span hd => hd.overwrite span .held)
      (fun _ _ span hpath hd => hd.overwrite_addDirectory hpath span) heffect program h
  unfold SpecialCase.applyFirst
  dsimp only
  split
  · rename_i rule hfind
    have hrule := hrules (List.mem_of_find?_eq_some hfind)
    rw [SpecialCase.all] at hrule
    simp only [List.mem_cons, List.not_mem_nil, or_false] at hrule
    obtain rfl | rfl | rfl | rfl := hrule
    · exact hstatement (SpecialCase.effect_googleGaxRule ctx)
    · exact hstatement (SpecialCase.effect_socketIoRule ctx)
    · obtain hsame | ⟨place, hedited⟩ := SpecialCase.draft_oracleDbApply ctx program d
      · exact hsame.symm ▸ h
      · exact hedited.symm ▸ h.overwrite place .binary
    · exact hstatement (SpecialCase.effect_ffmpegRule ctx)
  · exact h

theorem unwrap (h : d.Prepared ctx) (grammar : Grammar) (program : Tree) (scopes : ScopeTree) :
    (Wrapper.unwrap grammar program scopes d).2.Prepared ctx := by
  obtain hsame | ⟨span, hedited⟩ := Wrapper.draft_unwrap grammar program scopes d
  · exact hsame.symm ▸ h
  · exact hedited.symm ▸ h.overwrite span .parameter

/-- **What is written in all** was written before the walk or is written by it. -/
theorem edits {w : WalkSetting} {may : Walk.Writing} (h : d.Prepared ctx)
    (hedits : d.Edits w may d') :
    (∀ o ∈ d'.patch.overwrites, (∃ names, Prepares ctx d'.plan.tasks o.text names) ∨
        may.rewrites d'.plan.tasks o.span o.text) ∧
      ∀ i ∈ d'.patch.insertions, may.inserts i.position i.text := by
  refine ⟨fun o ho => ?_, fun i hi => ?_⟩
  · obtain hold | hnew := hedits.rewrites ho
    · obtain ⟨names, htext⟩ := h.overwrites o hold
      exact .inl ⟨names, htext.mono hedits.grows.tasks_subset⟩
    · exact .inr hnew
  · obtain hold | hnew := hedits.inserts hi
    · exact absurd (h.insertions ▸ hold) List.not_mem_nil
    · exact hnew

end Draft.Prepared

/-! ## The whole analysis -/

namespace Build

/-- The setting of the rules for special cases. -/
def ruleContext (b : Build) (files : FileTree) (id : String) : SpecialCaseContext :=
  ⟨(b.context files id).directory, b.options, Referent.naming (b.context files id), files⟩

theorem prepared_prepare {b : Build} (h : b.specialCases ⊆ SpecialCase.all) (files : FileTree)
    (registry : Registry) (id source : String) (parsed : Parsed) :
    (b.prepare files registry id source parsed).2.2.Prepared (b.ruleContext files id) := by
  have hrules := Draft.Prepared.applyFirst h id parsed.tree
    (.start (b.ruleContext files id) source registry)
  unfold prepare
  dsimp only
  split
  · exact hrules.unwrap _ _ _
  · exact hrules

/-- **What an analysis writes.** Each text that it puts in the place of a part was written by a
rule for a special case or a wrapper, or a walk over the program writes it at one of the nodes;
and what it puts in between is an engine. -/
theorem rewrites_analyze {b : Build} (h : b.specialCases ⊆ SpecialCase.all) {files : FileTree}
    {registry registry' : Registry} {id source : String} {a : Analysis}
    (ha : b.analyze files registry id source = .ok (registry', a)) :
    ∃ parsed w program draft, parse source = .ok parsed ∧
      b.prepare files registry id source parsed = (w, program, draft) ∧
      (∀ o ∈ a.patch.overwrites,
        (∃ names, Prepares (b.ruleContext files id) a.tasks o.text names) ∨
          Walk.Rewrites w program a.tasks o.span o.text) ∧
      ∀ i ∈ a.patch.insertions, Walk.Inserts w program i.position i.text := by
  obtain ⟨parsed, draft, hparse, rfl, rfl, rfl⟩ := exists_draft_of_analyze ha
  exact ⟨parsed, _, _, _, hparse, rfl,
    (prepared_prepare h files registry id source parsed).edits (edits_walkProgram _ _ _)⟩

end Build

end ModuleAssets
