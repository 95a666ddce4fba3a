import ModuleAssets.Proofs.Relocation.Accepted
import ModuleAssets.Proofs.Relocation.Analysis
import ModuleAssets.Proofs.Relocation.Revised
/-!
# Issued edits — none of an analysis is refused

An edit that a patch refuses is left out of the draft, after the asset that it refers
to is planned. In a program that is laid out over its text none is: the rule for a
special case and the wrapper leave the whole program open for the walk, and the walk
edits each part within itself. So an edit is gone only where a later one covers it.
-/

namespace ModuleAssets

open Syntax
open Syntax.Tree (Revised)

/-! ## Before the walk -/

namespace SpecialCase

variable {ctx : SpecialCaseContext} {d : Draft} {program : Tree}

/-- What has to be shown of what comes before a walk: it leaves out nothing, and the
draft is open for the program. -/
def LeavesOpen (d : Draft) (after : Tree × Draft) : Prop :=
  after.2.Open after.1 ∧ after.2.skipped = d.skipped

theorem leavesOpen_ofStatement
    {rule : SpecialCaseContext → Tree → Draft → Option (Tree × Draft)}
    (hrule : ∀ {t t' d'}, d.Ready t → rule ctx t d = some (t', d') → Revises d t t' d')
    (h : d.Open program) (hnone : d.patch.overwrites = []) :
    LeavesOpen d (ofStatement rule ctx program d) := by
  obtain ⟨kind, span, statements⟩ := program
  rw [ofStatement]
  obtain hsame | ⟨before, t, after, t', d', rfl, hsome, hfirst⟩ :=
    onFirstStatement_cases (rule ctx) d statements
  · rw [hsame]
    exact ⟨h, rfl⟩
  · rw [hfirst]
    have ht : t ∈ before ++ t :: after := List.mem_append_right _ List.mem_cons_self
    obtain ⟨place, hrevised, hedited⟩ := hrule (h.part ht) hsome
    exact ⟨h.revised hnone (hrevised.ofPart h.laid) hedited, hedited.skipped⟩

theorem leavesOpen_oracleDbApply (h : d.Open program) (hnone : d.patch.overwrites = []) :
    LeavesOpen d (oracleDbApply ctx program d) := by
  unfold oracleDbApply
  split
  · rename_i place program' htake
    obtain ⟨hrevised, part, hpart, n, hn, hbare, rfl⟩ :=
      revised_of_takeProbe program h.laid _ _ htake
    have haccepts := ((h.part hpart).contains hn).accepts hbare
    have hedited := haccepts.edited_overwrite ("'../build/Release/" ++ ("oracledb-abi" ++
      ctx.options.moduleAbiVersion ++ "-" ++ Platform.name ++ "-" ++ Platform.arch) ++ ".node'")
    exact ⟨h.revised hnone hrevised hedited, hedited.skipped⟩
  · rename_i program' htake
    obtain rfl := takeProbe_none program program' htake
    exact ⟨h, rfl⟩

/-- **A rule leaves the program open.** -/
theorem leavesOpen_applyFirst (ctx : SpecialCaseContext) {rules : List SpecialCase}
    (hrules : rules ⊆ all) (id : String)
    (h : d.Open program) (hnone : d.patch.overwrites = []) :
    LeavesOpen d (applyFirst rules id ctx program d) := by
  unfold applyFirst
  dsimp only
  split
  · rename_i rule hfind
    have hrule := hrules (List.mem_of_find?_eq_some hfind)
    rw [all] at hrule
    simp only [List.mem_cons, List.not_mem_nil, or_false] at hrule
    obtain rfl | rfl | rfl | rfl := hrule
    · exact leavesOpen_ofStatement revises_googleGaxRule h hnone
    · exact leavesOpen_ofStatement revises_socketIoRule h hnone
    · exact leavesOpen_oracleDbApply h hnone
    · exact leavesOpen_ofStatement revises_ffmpegRule h hnone
  · exact ⟨h, rfl⟩

end SpecialCase

namespace Wrapper

variable {d : Draft} {program : Tree}

theorem contains_unparen (t : Tree) : t.Contains t.unparen := by
  fun_induction Tree.unparen t with
  | case1 span inner ih => exact Tree.contains_iff.2 (.inr ⟨inner, List.mem_cons_self, ih⟩)
  | case2 t => exact .refl t

theorem contains_argumentExpression (t : Tree) : t.Contains (SpecialCase.argumentExpression t) := by
  unfold SpecialCase.argumentExpression
  split
  · exact Tree.contains_iff.2 (.inr ⟨_, List.mem_cons_self, .refl _⟩)
  · exact .refl t

/-- What a wrapper looks like. -/
theorem exists_of_factory? {statement loader factory : Tree}
    (h : factory? statement = some (loader, factory)) :
    ∃ span e place callee argument more,
      statement = .node .expressionStatement span [e] ∧
      e.unparen = .node .call place (callee :: argument :: more) ∧
      (SpecialCase.argumentExpression argument).unparen = factory ∧
      ∃ own span place inner body rest,
        factory = .node (.function own) span (loader :: body :: rest) ∧
        loader = .node (.binding "require") place inner := by
  unfold factory? at h
  split at h
  · rename_i span e
    split at h
    · rename_i place callee argument more hcall
      dsimp only at h
      split at h
      · rename_i own parameter body own' span' loader' body' rest hwrapper hfactory
        split at h
        · split at h
          · rename_i hloader
            obtain ⟨rfl, rfl⟩ := Prod.mk.inj (Option.some.inj h)
            obtain ⟨kind, place', inner⟩ := loader'
            obtain rfl : kind = .binding "require" := hloader.1
            exact ⟨span, e, place, callee, argument, more, rfl, hcall, rfl, own', span', place',
              inner, body', rest, hfactory, rfl⟩
          · cases h
        · cases h
      · cases h
    · cases h
  · cases h

/-- The parameter of a factory stands in the statement. -/
theorem contains_of_factory? {statement loader factory : Tree}
    (h : factory? statement = some (loader, factory)) :
    statement.Contains loader ∧ loader.kind = .binding "require" := by
  obtain ⟨span, e, place, callee, argument, more, rfl, hcall, hargument, own, functionSpan, _, inner,
    body, rest, hfactory, rfl⟩ := exists_of_factory? h
  have hcalled : e.Contains (.node .call place (callee :: argument :: more)) :=
    hcall ▸ contains_unparen e
  have hgiven : argument.Contains factory :=
    hargument ▸ (contains_argumentExpression argument).trans (contains_unparen _)
  have hinner : e.Contains factory :=
    (hcalled.part (List.mem_cons_of_mem _ List.mem_cons_self)).trans hgiven
  rw [hfactory] at hinner
  exact ⟨Tree.contains_iff.2 (.inr ⟨e, List.mem_cons_self, hinner.part List.mem_cons_self⟩), rfl⟩

/-- A node with no parts may be overwritten beside all others. -/
theorem admits_leaf {t leaf : Tree} (h : t.Laid) (hleaf : t.Contains leaf) (hparts : leaf.parts = [])
    (hbare : leaf.isBare = false) (hfunction : leaf.isFunction = false) : t.Admits leaf.span := by
  obtain ⟨path, hpath⟩ := hleaf
  have hrevised : Revised leaf leaf leaf.span := by
    obtain ⟨kind, span, parts⟩ := leaf
    obtain rfl : parts = [] := hparts
    exact ⟨.refl _, SpecialCase.laid_leaf, Tree.admits_node.2 ⟨fun _ => .refl _, fun _ => nofun⟩,
      _, .refl _, hbare, hfunction, .refl _⟩
  have hself := (Revised.replaceAt h hpath hrevised).admits
  rwa [Tree.replaceAt_self hpath] at hself

/-- **The wrapper leaves the program open.** -/
theorem leavesOpen_unwrap (h : d.Open program) (grammar : Grammar) (scopes : ScopeTree) :
    SpecialCase.LeavesOpen d (program, (unwrap grammar program scopes d).2) := by
  unfold unwrap
  dsimp only
  split
  · rename_i loader id hfound
    obtain ⟨statement, hstatement, hwrapper⟩ := List.exists_of_findSome?_eq_some hfound
    obtain ⟨⟨loader', factory⟩, hfactory, hscope⟩ := Option.bind_eq_some_iff.1 hwrapper
    obtain ⟨_, -, hpair⟩ := Option.map_eq_some_iff.1 hscope
    obtain rfl : loader' = loader := congrArg Prod.fst hpair
    obtain ⟨hcontains, hkind⟩ := contains_of_factory? hfactory
    have hready := (h.part hstatement).contains hcontains
    clear hfound hwrapper hfactory hscope hpair
    obtain ⟨kind, span, parts⟩ := loader'
    obtain rfl : kind = .binding "require" := hkind
    have haccepts : d.Accepts span := hready.accepts rfl
    have hadmits : program.Admits span :=
      admits_leaf h.laid (Tree.contains_iff.2 (.inr ⟨statement, hstatement, hcontains⟩))
        (hready.laid.arranged.2.2.2 rfl) rfl rfl
    have hedited := haccepts.edited_overwrite parameterName
    have hopen := h.edited hadmits hedited
    have hskipped := hedited.skipped
    obtain ⟨patch, hpatch⟩ :=
      Patch.exists_overwrite haccepts.covers haccepts.bounded haccepts.admits parameterName
    rw [Draft.overwrite, hpatch] at hopen hskipped
    have hspan : (Syntax.Tree.node (.binding "require") span parts).span = span := rfl
    simp only [hspan, hpatch]
    exact ⟨hopen, hskipped⟩
  · exact ⟨h, rfl⟩

end Wrapper

/-! ## What is issued -/

namespace Draft

variable {d d' : Draft} {edits : List Edit}

/-- The second draft comes from the first by issuing the edits one after another,
whether they are accepted or not, and by asking for assets. -/
inductive Issues (d : Draft) : List Edit → Draft → Prop
  | start : Issues d [] d
  | overwrite {edits : List Edit} {d' : Draft} (h : Issues d edits d') (span : Span)
    (text : String) : Issues d (edits ++ [.overwrite span text]) (d'.overwrite span text)
  | appendRight {edits : List Edit} {d' : Draft} (h : Issues d edits d') (position : Nat)
    (text : String) : Issues d (edits ++ [.appendRight position text]) (d'.appendRight position text)
  | addFile {edits : List Edit} {d' : Draft} (h : Issues d edits d') (n : Naming) (path : String) :
    Issues d edits (d'.addFile n path).1
  | addDirectory {edits : List Edit} {d' : Draft} (h : Issues d edits d') (n : Naming)
    (path : String) : Issues d edits (d'.addDirectory n path).1

theorem Grows.exists_issues (h : d.Grows d') : ∃ edits, d.Issues edits d' := by
  induction h with
  | refl => exact ⟨[], .start⟩
  | overwrite _ span text ih =>
    obtain ⟨edits, hedits⟩ := ih
    exact ⟨_, hedits.overwrite span text⟩
  | appendRight _ position text ih =>
    obtain ⟨edits, hedits⟩ := ih
    exact ⟨_, hedits.appendRight position text⟩
  | addFile _ n path ih =>
    obtain ⟨edits, hedits⟩ := ih
    exact ⟨edits, hedits.addFile n path⟩
  | addDirectory _ n path ih =>
    obtain ⟨edits, hedits⟩ := ih
    exact ⟨edits, hedits.addDirectory n path⟩

/-- An edit is accepted, or its refusal is kept. -/
theorem overwrite_cases (d : Draft) (span : Span) (text : String) :
    (d.patch.edit (.overwrite span text) = .ok (d.overwrite span text).patch ∧
        (d.overwrite span text).skipped = d.skipped) ∨
      ∃ refusal, (d.overwrite span text).skipped = d.skipped ++ [refusal] := by
  rw [overwrite, Patch.edit]
  cases d.patch.overwrite span text with
  | ok patch => exact .inl ⟨rfl, rfl⟩
  | error refusal => exact .inr ⟨refusal, rfl⟩

theorem appendRight_cases (d : Draft) (position : Nat) (text : String) :
    (d.patch.edit (.appendRight position text) = .ok (d.appendRight position text).patch ∧
        (d.appendRight position text).skipped = d.skipped) ∨
      ∃ refusal, (d.appendRight position text).skipped = d.skipped ++ [refusal] := by
  rw [appendRight, Patch.edit]
  cases d.patch.appendRight position text with
  | ok patch => exact .inl ⟨rfl, rfl⟩
  | error refusal => exact .inr ⟨refusal, rfl⟩

/-- One edit more is accepted as long as no refusal is kept. -/
theorem accepted_snoc {e : Edit} {d₁ d₂ : Draft} {p : Patch} {skipped : List PatchError}
    (h : skipped <+: d₁.skipped ∧
      (d₁.skipped = skipped → edits.foldlM Patch.edit p = .ok d₁.patch))
    (hedit : (d₁.patch.edit e = .ok d₂.patch ∧ d₂.skipped = d₁.skipped) ∨
      ∃ refusal, d₂.skipped = d₁.skipped ++ [refusal]) :
    skipped <+: d₂.skipped ∧
      (d₂.skipped = skipped → (edits ++ [e]).foldlM Patch.edit p = .ok d₂.patch) := by
  obtain ⟨hskipped, haccepted⟩ := h
  obtain ⟨hok, hsame⟩ | ⟨refusal, hrefused⟩ := hedit
  · refine ⟨hsame ▸ hskipped, fun heq => ?_⟩
    rw [List.foldlM_append, haccepted (hsame ▸ heq)]
    show (d₁.patch.edit e >>= pure) = _
    rw [hok]
    rfl
  · refine ⟨hrefused ▸ hskipped.trans (List.prefix_append _ _), fun heq => ?_⟩
    have hlength := hskipped.length_le
    rw [← heq, hrefused, List.length_append, List.length_singleton] at hlength
    omega

/-- **Where no refusal is kept, all edits that were issued are accepted.** -/
theorem Issues.accepted (h : d.Issues edits d') : d.skipped <+: d'.skipped ∧
    (d'.skipped = d.skipped → edits.foldlM Patch.edit d.patch = .ok d'.patch) := by
  induction h with
  | start => exact ⟨List.prefix_refl _, fun _ => rfl⟩
  | overwrite _ span text ih => exact accepted_snoc ih (overwrite_cases _ span text)
  | appendRight _ position text ih => exact accepted_snoc ih (appendRight_cases _ position text)
  | addFile _ n path ih => exact ih
  | addDirectory _ n path ih => exact ih

end Draft

/-! ## The whole analysis -/

namespace Build

/-- The draft of an analysis, with the refusals that the analysis itself drops. -/
def drafted (b : Build) (files : FileTree) (registry : Registry) (id source : String)
    (parsed : Parsed) : Draft :=
  let (w, program, draft) := b.prepare files registry id source parsed
  walkProgram w program draft

/-- **A walk leaves out nothing.** -/
theorem skipped_walkProgram {d : Draft} {program : Tree} (h : d.Open program) (w : WalkSetting) :
    (walkProgram w program d).skipped = d.skipped :=
  (Walk.from_visitAll (w := w) (fun _ => h.part) (fun part _ => Walk.walkedWithin w part)
    h.laid.arranged.2.1 ⟨_, d, false⟩ rfl).skipped

theorem open_start {source : String} {program : Tree} (registry : Registry) (h : program.Laid)
    (hbounded : program.span.stop ≤ Text.byteLength source.toList) :
    (Draft.start source registry).Open program :=
  ⟨h, hbounded, fun _ => nofun⟩

theorem leavesOpen_prepare {b : Build} (h : b.specialCases ⊆ SpecialCase.all) (files : FileTree)
    (registry : Registry) (id source : String) {parsed : Parsed} (hlaid : parsed.tree.Laid)
    (hbounded : parsed.tree.span.stop ≤ Text.byteLength source.toList) :
    (b.prepare files registry id source parsed).2.2.Open
        (b.prepare files registry id source parsed).2.1 ∧
      (b.prepare files registry id source parsed).2.2.skipped = [] := by
  obtain ⟨hopen, hskipped⟩ := SpecialCase.leavesOpen_applyFirst
    ⟨(b.context files id).directory, b.options, Referent.naming (b.context files id), files⟩
    h id (open_start registry hlaid hbounded) rfl
  unfold prepare
  dsimp only
  split
  · obtain ⟨hopen', hskipped'⟩ := Wrapper.leavesOpen_unwrap hopen parsed.grammar
      (ScopeTree.ofTree _)
    exact ⟨hopen', hskipped'.trans hskipped⟩
  · exact ⟨hopen, hskipped⟩

/-- **No edit of an analysis is refused.** The module may be any whose tree is laid
out over its text. Then no refusal is kept, so all edits that are issued are accepted
in turn, and one of them is gone in the end only if a later one replaces it. -/
theorem edits_accepted {b : Build} (h : b.specialCases ⊆ SpecialCase.all) (files : FileTree)
    (registry : Registry) (id : String) {source : String} {parsed : Parsed}
    (hparse : parse source = .ok parsed) (hlaid : parsed.tree.Laid)
    (hbounded : parsed.tree.span.stop ≤ Text.byteLength source.toList) :
    let draft := b.drafted files registry id source parsed
    b.analyze files registry id source =
        .ok (draft.plan.registry, ⟨id, source, draft.patch, draft.plan.tasks⟩) ∧
      draft.skipped = [] ∧
      ∃ edits, (Draft.start source registry).Issues edits draft ∧
        edits.foldlM Patch.edit (Patch.ofText source) = .ok draft.patch ∧
        ∀ before e after, edits = before ++ e :: after →
          draft.patch.Holds e ∨ ∃ later ∈ after, later.Replaces e := by
  obtain ⟨hopen, hprepared⟩ := leavesOpen_prepare h files registry id source hlaid hbounded
  have hskipped : (b.drafted files registry id source parsed).skipped = [] :=
    (skipped_walkProgram hopen _).trans hprepared
  have hgrows : (Draft.start source registry).Grows (b.drafted files registry id source parsed) :=
    (grows_prepare h files registry id source parsed).trans (edits_walkProgram _ _ _).grows
  obtain ⟨edits, hissued⟩ := hgrows.exists_issues
  have haccepted := hissued.accepted.2 hskipped
  refine ⟨analyze_eq hparse, hskipped, edits, hissued, haccepted, ?_⟩
  rintro before e after rfl
  exact Patch.holds_of_edits haccepted

/-- The loader that is passed on gets its lasting name at first. Then the whole choice
is known to be a path, and the text for it covers that name. -/
theorem edits_accepted_covered :
    let b := Build.ofOptions default
    let source := "q(void f(require) || __dirname + '/a.txt');"
    ∃ parsed, b.specialCases ⊆ SpecialCase.all ∧ parse source = .ok parsed ∧ parsed.tree.Laid ∧
      parsed.tree.span.stop ≤ Text.byteLength source.toList ∧
      let draft := b.drafted onlyAsset (.ofExisting []) "/pkg/m.js" source parsed
      draft.patch = ⟨43, [⟨⟨2, 41⟩, "__dirname + '/a.txt'"⟩], []⟩ ∧ draft.skipped = [] ∧
        ∃ edits, (Draft.start source (.ofExisting [])).Issues edits draft ∧
          edits.foldlM Patch.edit (Patch.ofText source) = .ok draft.patch ∧
          ∀ before e after, edits = before ++ e :: after →
            draft.patch.Holds e ∨ ∃ later ∈ after, later.Replaces e := by
  intro b source
  have hrules : b.specialCases ⊆ SpecialCase.all := List.Subset.refl _
  have hchecked : ((parse source).toOption.any fun parsed =>
      decide (parsed.tree.Laid) && decide (parsed.tree.span.stop ≤ Text.byteLength source.toList) &&
      decide ((b.drafted onlyAsset (.ofExisting []) "/pkg/m.js" source parsed).patch =
        ⟨43, [⟨⟨2, 41⟩, "__dirname + '/a.txt'"⟩], []⟩)) = true := by
    decide +kernel
  cases hparse : parse source with
  | error refusal => rw [hparse] at hchecked; cases hchecked
  | ok parsed =>
    rw [hparse, Except.toOption, Option.any_some, Bool.and_eq_true, Bool.and_eq_true,
      decide_eq_true_iff, decide_eq_true_iff, decide_eq_true_iff] at hchecked
    obtain ⟨⟨hlaid, hbounded⟩, hpatch⟩ := hchecked
    have haccepted := edits_accepted hrules onlyAsset (.ofExisting []) "/pkg/m.js" hparse hlaid hbounded
    exact ⟨parsed, hrules, rfl, hlaid, hbounded, hpatch, haccepted.2⟩

end Build

end ModuleAssets
