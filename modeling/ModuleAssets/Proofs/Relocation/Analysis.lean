import ModuleAssets.Build
import ModuleAssets.Proofs.Relocation.Steps
/-!
# Analyses — how a plan comes about

From the first rule for a special case to the end of the walk, an analysis
changes its plan only by asking it for files and directories.
-/

namespace ModuleAssets

open Syntax

/-! ## Special cases and wrappers -/

namespace SpecialCase

variable {ctx : SpecialCaseContext} {draft : Draft}

/-- What each use of a rule keeps of a draft, its use on some statements keeps. -/
theorem keeps_onFirstStatement {P : Draft → Prop} {rule : Tree → Draft → Option (Tree × Draft)}
    (hrule : ∀ statement draft changed draft', rule statement draft = some (changed, draft') →
      P draft → P draft') (h : P draft) (statements : List Tree) :
    P (onFirstStatement rule draft statements).2 := by
  induction statements with
  | nil => exact h
  | cons statement rest ih =>
    rw [onFirstStatement]
    split
    · rename_i heq
      exact hrule _ _ _ _ heq h
    · exact ih

/-- What a rule may do with a statement. It never applies, or it leaves some statement: with the
draft as it is, with the check overwritten, or with the package next door asked for and its place
written. Only in the last case the draft has a say, in which of two statements is left. -/
inductive RuleEffect (ctx : SpecialCaseContext) (rule : Draft → Option (Tree × Draft)) : Prop
  | never (h : ∀ d, rule d = none)
  | keep (changed : Tree) (h : ∀ d, rule d = some (changed, d))
  | hold (changed : Tree) (span : Span) (h : ∀ d, rule d = some (changed, d.overwrite span "true"))
  | place (changed refused : Tree) (span : Span) (protos : String)
    (hprotos : Path.resolve [ctx.directory, "../../../google-proto-files"] = some protos)
    (h : ∀ d : Draft, rule d = some
      (if ((d.addDirectory ctx.naming protos).1.patch.overwrite span
          (d.addDirectory ctx.naming protos).2).isOk then changed else refused,
        (d.addDirectory ctx.naming protos).1.overwrite span (d.addDirectory ctx.naming protos).2))

theorem effect_googleGaxRule (ctx : SpecialCaseContext) (statement : Tree) :
    RuleEffect ctx (googleGaxRule ctx statement) := by
  unfold googleGaxRule
  split
  · exact .never fun _ => rfl
  rename_i protos hprotos
  split
  · split
    · rename_i how span declared name value rest
      split
      · refine .place (.node (.declarations how) span (.node .declaration declared [name] :: rest))
          (.node (.declarations how) span (.node .declaration declared [name, value] :: rest))
          value.span protos hprotos fun d => ?_
        dsimp only
        rw [Draft.overwrite]
        cases (d.addDirectory ctx.naming protos).1.patch.overwrite value.span
          (d.addDirectory ctx.naming protos).2 with
        | error refusal => rfl
        | ok patch => rfl
      · exact .never fun _ => rfl
    · exact .never fun _ => rfl
  · exact .never fun _ => rfl

theorem effect_socketIoRule (ctx : SpecialCaseContext) (statement : Tree) :
    RuleEffect ctx (socketIoRule ctx statement) := by
  unfold socketIoRule
  split
  · split
    · split
      · exact .keep _ fun _ => rfl
      · exact .never fun _ => rfl
    · exact .never fun _ => rfl
  · exact .never fun _ => rfl

theorem effect_ffmpegRule (ctx : SpecialCaseContext) (statement : Tree) :
    RuleEffect ctx (ffmpegRule ctx statement) := by
  unfold ffmpegRule
  split
  · split
    · exact .hold _ _ fun _ => rfl
    · exact .never fun _ => rfl
  · exact .never fun _ => rfl

/-- What the edits of a rule keep of a draft, the rule keeps on all statements. -/
theorem keeps_ofStatement {P : Draft → Prop} (hhold : ∀ d span, P d → P (d.overwrite span "true"))
    (hplace : ∀ d protos span,
      Path.resolve [ctx.directory, "../../../google-proto-files"] = some protos → P d →
        P ((d.addDirectory ctx.naming protos).1.overwrite span (d.addDirectory ctx.naming protos).2))
    {rule : SpecialCaseContext → Tree → Draft → Option (Tree × Draft)}
    (heffect : ∀ statement, RuleEffect ctx (rule ctx statement)) (program : Tree) (h : P draft) :
    P (ofStatement rule ctx program draft).2 := by
  obtain ⟨kind, span, statements⟩ := program
  refine keeps_onFirstStatement (fun statement d changed d' hrule hd => ?_) h statements
  cases heffect statement with
  | never heq =>
    rw [heq] at hrule
    cases hrule
  | keep _ heq =>
    rw [heq] at hrule
    cases hrule
    exact hd
  | hold _ span heq =>
    rw [heq] at hrule
    cases hrule
    exact hhold d span hd
  | place _ _ span protos hprotos heq =>
    rw [heq] at hrule
    cases hrule
    exact hplace d protos span hprotos hd

/-- The rule of the places writes the binary for this machine, if anything. -/
theorem draft_oracleDbApply (ctx : SpecialCaseContext) (program : Tree) (draft : Draft) :
    (oracleDbApply ctx program draft).2 = draft ∨
      ∃ place, (oracleDbApply ctx program draft).2 = draft.overwrite place
        ("'../build/Release/" ++ ("oracledb-abi" ++ ctx.options.moduleAbiVersion ++ "-" ++
          Platform.name ++ "-" ++ Platform.arch) ++ ".node'") := by
  unfold oracleDbApply
  split
  · exact .inr ⟨_, rfl⟩
  · exact .inl rfl

/-- **No rule does anything to a draft but edit it and ask for the package next door.**
What these keep of a draft a rule keeps. -/
theorem keeps_apply {P : Draft → Prop}
    (hoverwrite : ∀ d span text, P d → P (d.overwrite span text))
    (hdirectory : ∀ d n directory path,
      Path.resolve [directory, "../../../google-proto-files"] = some path →
        P d → P (d.addDirectory n path).1) {rule : SpecialCase}
    (hrule : rule ∈ all) (ctx : SpecialCaseContext) (program : Tree) (h : P draft) :
    P (rule.apply ctx program draft).2 := by
  have hhold d span (hd : P d) := hoverwrite d span "true" hd
  have hplace d protos span
      (hprotos : Path.resolve [ctx.directory, "../../../google-proto-files"] = some protos)
      (hd : P d) := hoverwrite _ span (d.addDirectory ctx.naming protos).2
    (hdirectory d ctx.naming ctx.directory protos hprotos hd)
  rw [all] at hrule
  simp only [List.mem_cons, List.not_mem_nil, or_false] at hrule
  obtain rfl | rfl | rfl | rfl := hrule
  · exact keeps_ofStatement hhold hplace (effect_googleGaxRule ctx) program h
  · exact keeps_ofStatement hhold hplace (effect_socketIoRule ctx) program h
  · obtain hsame | ⟨place, hedited⟩ := draft_oracleDbApply ctx program draft
    · exact hsame.symm ▸ h
    · exact hedited.symm ▸ hoverwrite draft place _ h
  · exact keeps_ofStatement hhold hplace (effect_ffmpegRule ctx) program h

theorem keeps_applyFirst {P : Draft → Prop}
    (hoverwrite : ∀ d span text, P d → P (d.overwrite span text))
    (hdirectory : ∀ d n directory path,
      Path.resolve [directory, "../../../google-proto-files"] = some path →
        P d → P (d.addDirectory n path).1) {rules : List SpecialCase}
    (hrules : rules ⊆ all) (id : String) (ctx : SpecialCaseContext) (program : Tree)
    (h : P draft) : P (applyFirst rules id ctx program draft).2 := by
  unfold applyFirst
  dsimp only
  split
  · rename_i heq
    exact keeps_apply hoverwrite hdirectory (hrules (List.mem_of_find?_eq_some heq)) ctx program h
  · exact h

end SpecialCase

/-- A wrapper gives the parameter of its factory a new name, if anything. -/
theorem Wrapper.draft_unwrap (grammar : Grammar) (program : Tree) (scopes : ScopeTree)
    (draft : Draft) : (unwrap grammar program scopes draft).2 = draft ∨
      ∃ span, (unwrap grammar program scopes draft).2 = draft.overwrite span parameterName := by
  unfold unwrap
  dsimp only
  split
  · rename_i loader id _
    refine .inr ⟨loader.span, ?_⟩
    rw [Draft.overwrite]
    cases draft.patch.overwrite loader.span parameterName with
    | error refusal => rfl
    | ok patch => rfl
  · exact .inl rfl

/-! ## The walk -/

theorem Walk.allows_edits {w : WalkSetting} (c : Walk.Course w) :
    Walk.Allows c (fun s s' => s.draft.Edits w c.writing s'.draft) false where
  refl _ := .refl
  trans h h' := h.trans h'
  draft _ _ h := h.edits
  engine _ := .refl
  env _ _ _ := .refl

namespace Build

/-- What is known when the walk through a program sets out. -/
def outset (w : WalkSetting) (program : Tree) : Environment :=
  defineImports program
    ((Environment.ofModule w.ctx.id w.ctx.directory w.ctx.options.nodeEnv
      (w.grammar == .script)).enter ((w.scopes.get? ScopeTree.root).getD default))

/-- **A walk edits a program on its course**, if it sets out on it. -/
theorem edits_of_course {w : WalkSetting} (c : Walk.Course w) {around : List Scope} {program : Tree}
    (hparts : ∀ part ∈ program.parts, c.node around part) (henv : c.env around (outset w program))
    (draft : Draft) : draft.Edits w c.writing (walkProgram w program draft) :=
  have hallows := Walk.allows_edits c
  (Walk.steps_visitAll hallows (fun part hpart =>
    Walk.walked hallows part nofun (hparts part hpart)) ⟨outset w program, draft, false⟩ henv).1

/-- **A walk through a program edits it.** -/
theorem edits_walkProgram (w : WalkSetting) (program : Tree) (draft : Draft) :
    draft.Edits w (.within w program) (walkProgram w program draft) := by
  have hparts (part : Tree) (hpart : part ∈ program.parts) :
      (Walk.Course.within w program).node [] part := (Tree.Contains.refl program).part hpart
  exact (edits_of_course (.within w program) hparts trivial draft).mono
    Walk.Course.rewrites_within Walk.Course.inserts_within

/-- What an analysis does before it walks: the setting of the walk, the program as
the rules for special cases leave it, and the draft with their edits and that of a
wrapper. -/
def prepare (b : Build) (files : FileTree) (registry : Registry) (id source : String)
    (parsed : Parsed) : WalkSetting × Tree × Draft :=
  let ctx := b.context files id
  let (program, draft) :=
    SpecialCase.applyFirst b.specialCases id
      ⟨ctx.directory, b.options, Referent.naming ctx, files⟩ parsed.tree
      (.start source registry)
  let (scopes, draft) :=
    if b.options.wrapperCompatibility then
      Wrapper.unwrap parsed.grammar program (ScopeTree.ofTree program) draft
    else (ScopeTree.ofTree program, draft)
  (⟨ctx, source, parsed.grammar, scopes, b.entryId == some id⟩, program, draft)

/-- An analysis walks what it prepared. -/
theorem analyze_eq {b : Build} {files : FileTree} {registry : Registry} {id source : String}
    {parsed : Parsed} (hparse : parse source = .ok parsed) :
    b.analyze files registry id source =
      let (w, program, draft) := b.prepare files registry id source parsed
      let draft := walkProgram w program draft
      .ok (draft.plan.registry, ⟨id, source, draft.patch, draft.plan.tasks⟩) := by
  unfold analyze prepare
  rw [hparse]
  rfl

/-- A text that is no module is not analyzed. -/
theorem analyze_eq_error {b : Build} {files : FileTree} {registry : Registry} {id source : String}
    {e : SyntaxError} (hparse : parse source = .error e) :
    b.analyze files registry id source = .error e := by
  unfold analyze
  rw [hparse]
  rfl

/-- What edits and asking for directories keep of a draft, the preparation keeps. -/
theorem keeps_prepare {P : Draft → Prop}
    (hoverwrite : ∀ d span text, P d → P (d.overwrite span text))
    (hdirectory : ∀ d n directory path,
      Path.resolve [directory, "../../../google-proto-files"] = some path →
        P d → P (d.addDirectory n path).1) {b : Build}
    (h : b.specialCases ⊆ SpecialCase.all) (files : FileTree) (registry : Registry)
    (id source : String) (parsed : Parsed) (hstart : P (Draft.start source registry)) :
    P (b.prepare files registry id source parsed).2.2 := by
  have hrules := SpecialCase.keeps_applyFirst hoverwrite hdirectory h id
    ⟨(b.context files id).directory, b.options, Referent.naming (b.context files id), files⟩
    parsed.tree hstart
  unfold prepare
  dsimp only
  split
  · obtain hsame | ⟨span, hedited⟩ := Wrapper.draft_unwrap _ _ _ _
    · exact hsame.symm ▸ hrules
    · exact hedited.symm ▸ hoverwrite _ span _ hrules
  · exact hrules

theorem grows_prepare {b : Build} (h : b.specialCases ⊆ SpecialCase.all) (files : FileTree)
    (registry : Registry) (id source : String) (parsed : Parsed) :
    (Draft.start source registry).Grows
      (b.prepare files registry id source parsed).2.2 :=
  keeps_prepare (fun _ span text hd => hd.overwrite span text)
    (fun _ n _ path _ hd => hd.addDirectory n path) h files registry id source parsed .refl

/-- An analysis leaves the draft of its walk. -/
theorem exists_draft_of_analyze {b : Build} {files : FileTree} {registry registry' : Registry}
    {id source : String} {a : Analysis}
    (ha : b.analyze files registry id source = .ok (registry', a)) :
    ∃ parsed draft, parse source = .ok parsed ∧
      draft = walkProgram (b.prepare files registry id source parsed).1
        (b.prepare files registry id source parsed).2.1
        (b.prepare files registry id source parsed).2.2 ∧
      registry' = draft.plan.registry ∧ a = ⟨id, source, draft.patch, draft.plan.tasks⟩ := by
  cases hparse : parse source with
  | error e =>
    rw [analyze_eq_error hparse] at ha
    cases ha
  | ok parsed =>
    rw [analyze_eq hparse] at ha
    cases ha
    exact ⟨parsed, _, rfl, rfl, rfl, rfl⟩

/-- **An analysis edits and asks for assets**, if its rules are known ones. -/
theorem grows_analyze {b : Build} (h : b.specialCases ⊆ SpecialCase.all) {files : FileTree}
    {registry registry' : Registry} {id source : String} {a : Analysis}
    (ha : b.analyze files registry id source = .ok (registry', a)) :
    ∃ draft, (Draft.start source registry).Grows draft ∧ registry' = draft.plan.registry ∧
      a = ⟨id, source, draft.patch, draft.plan.tasks⟩ := by
  obtain ⟨parsed, draft, -, rfl, rfl, rfl⟩ := exists_draft_of_analyze ha
  exact ⟨_, (grows_prepare h files registry id source parsed).trans
    (edits_walkProgram _ _ _).grows, rfl, rfl⟩

/-- What can be checked of an outcome holds of what comes out. -/
theorem exists_ok_of_any {ε α : Type} {x : Except ε α} {p : α → Prop} [DecidablePred p]
    (h : (x.toOption.any fun a => decide (p a)) = true) : ∃ a, x = .ok a ∧ p a := by
  cases x with
  | error e => cases h
  | ok a => exact ⟨a, rfl, of_decide_eq_true h⟩

/-- A package with one file. -/
def onlyAsset : FileTree :=
  ⟨.directory [("pkg", .directory [("a.txt", .file ByteArray.empty 0o644)])]⟩

end Build

end ModuleAssets
