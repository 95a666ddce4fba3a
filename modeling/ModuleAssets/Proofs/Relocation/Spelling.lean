import ModuleAssets.Proofs.Relocation.Parallel
import ModuleAssets.Proofs.Relocation.Sketch
/-!
# Spelling — what the names of a build decide

A module is analyzed with the names that other modules left. These names reach the
texts that are written and the tasks that are planned, and nothing else: no step of
a walk looks at a text that it wrote or at a name that it was given (`Blind`). So a
walk does the same to all drafts that spell one sketch, and an analysis leaves one
sketch, whatever names were taken before (`Build.names_only_spell`).
-/

namespace ModuleAssets

open Syntax
open SpecialCase (argumentExpression)

/-! ## Candidates -/

namespace Wording

/-- What a program is told to load. -/
def loading (t : Wording) : Wording :=
  [.plain (Loader.dynamicName ++ "(")] ++ t ++ [.plain ")"]

/-- A choice by a test of the module. -/
def choice (test : String) (t t' : Wording) : Wording :=
  [.plain test] ++ [.plain " ? "] ++ t ++ [.plain " : "] ++ t'

variable {n : Naming} {r : Registry} {t t' : Wording} {text text' : String}

theorem Spells.loading (h : t.Spells n r text) : t.loading.Spells n r (Loader.dynamicLoad text) :=
  ((spells_plain _).append h).append (spells_plain _)

theorem Spells.choice (test : String) (h : t.Spells n r text) (h' : t'.Spells n r text') :
    (Wording.choice test t t').Spells n r (test ++ " ? " ++ text ++ " : " ++ text') :=
  ((((spells_plain test).append (spells_plain _)).append h).append (spells_plain _)).append h'

end Wording

namespace Draft

variable {n : Naming} {k : Sketch} {d : Draft}

theorem continues_addFile (d : Draft) (n : Naming) (path : String) :
    d.plan.registry.Continues (d.addFile n path).1.plan.registry :=
  (Plan.Advances.addFile d.plan n path).registry

theorem continues_addDirectory (d : Draft) (n : Naming) (path : String) :
    d.plan.registry.Continues (d.addDirectory n path).1.plan.registry :=
  (Plan.Advances.addDirectory d.plan n path).registry

end Draft

namespace Referent

/-- **What is referred to is one wording**, whatever names are taken. -/
theorem blind_refer (ctx : ModuleContext) (loadsBinary : Bool) (referent : Referent) (k : Sketch) :
    ∃ k' t, ∀ d : Draft, d.Spells (naming ctx) k →
      (referent.refer ctx loadsBinary d).1.Spells (naming ctx) k' ∧
        Wording.Spells (naming ctx) (referent.refer ctx loadsBinary d).1.plan.registry t
          (referent.refer ctx loadsBinary d).2 ∧
        d.plan.registry.Continues (referent.refer ctx loadsBinary d).1.plan.registry := by
  cases referent with
  | file path =>
    cases loadsBinary with
    | true => exact ⟨_, _, fun d h =>
        ⟨(h.addFile path).1, (h.addFile path).2.loading, d.continues_addFile _ path⟩⟩
    | false => exact ⟨_, _, fun d h =>
        ⟨(h.addFile path).1, (h.addFile path).2, d.continues_addFile _ path⟩⟩
  | directory path => exact ⟨_, _, fun d h =>
      ⟨(h.addDirectory path).1, (h.addDirectory path).2, d.continues_addDirectory _ path⟩⟩
  | literal text => exact ⟨_, _, fun d h => ⟨h, Wording.spells_plain text, .refl _⟩⟩

end Referent

namespace Candidate

variable {ctx : ModuleContext}

/-- **Whether a candidate is replaced, and by which wording, is no matter of names.** -/
theorem blind_replacement (ctx : ModuleContext) (source : String) (c : Candidate) (k : Sketch) :
    ∃ k' t?, ∀ d : Draft, d.Spells (Referent.naming ctx) k →
      (c.replacement ctx source d).1.Spells (Referent.naming ctx) k' ∧
        Option.Rel (Wording.Spells (Referent.naming ctx)
          (c.replacement ctx source d).1.plan.registry) t? (c.replacement ctx source d).2 := by
  have hnone : ∃ k' t?, ∀ d : Draft, d.Spells (Referent.naming ctx) k →
      d.Spells (Referent.naming ctx) k' ∧
        Option.Rel (Wording.Spells (Referent.naming ctx) d.plan.registry) t? none :=
    ⟨k, none, fun d h => ⟨h, .none⟩⟩
  unfold replacement
  split
  · exact hnone
  split
  · split
    · exact hnone
    · exact hnone
    · rename_i referent _ _
      obtain ⟨k', t, hrefer⟩ := referent.blind_refer ctx c.loadsBinary k
      exact ⟨k', some t, fun d h => ⟨(hrefer d h).1, .some (hrefer d h).2.1⟩⟩
  · rename_i test _ _ _
    split
    · rename_i first second _ _
      split
      · obtain ⟨k₁, t, hfirst⟩ := first.blind_refer ctx c.loadsBinary k
        obtain ⟨k₂, t', hsecond⟩ := second.blind_refer ctx c.loadsBinary k₁
        refine ⟨k₂, some (.choice ((Text.slice? source test).getD "") t t'), fun d h => ?_⟩
        obtain ⟨h₁, ht, -⟩ := hfirst d h
        obtain ⟨h₂, ht', hcontinues⟩ := hsecond _ h₁
        exact ⟨h₂, .some (.choice _ (ht.continues hcontinues) ht')⟩
      · exact hnone
    · exact hnone

/-- What is put in the place of a span for a candidate is one wording. -/
theorem blind_put (ctx : ModuleContext) (source : String) (c : Candidate) (span : Span)
    (write : String → String) (wording : Wording → Wording)
    (hwrite : ∀ {r : Registry} {t : Wording} {text : String},
      t.Spells (Referent.naming ctx) r text → (wording t).Spells (Referent.naming ctx) r (write text))
    (k : Sketch) : ∃ k', ∀ d : Draft, d.Spells (Referent.naming ctx) k →
      Draft.Spells (Referent.naming ctx) k' ((c.replacement ctx source d).2.elim
        (c.replacement ctx source d).1 fun text =>
          (c.replacement ctx source d).1.overwrite span (write text)) := by
  obtain ⟨k', t?, hreplacement⟩ := c.blind_replacement ctx source k
  cases t? with
  | none =>
    refine ⟨k', fun d h => ?_⟩
    obtain ⟨hdraft, htext⟩ := hreplacement d h
    generalize (c.replacement ctx source d).2 = text? at htext
    cases htext
    exact hdraft
  | some t =>
    refine ⟨k'.overwrite span (wording t), fun d h => ?_⟩
    obtain ⟨hdraft, htext⟩ := hreplacement d h
    generalize (c.replacement ctx source d).2 = text? at htext
    cases htext with
    | some htext => exact hdraft.overwrite span (hwrite htext)

theorem blind_relocate (ctx : ModuleContext) (source : String) (c : Candidate) (k : Sketch) :
    ∃ k', ∀ d : Draft, d.Spells (Referent.naming ctx) k →
      (c.relocate ctx source d).Spells (Referent.naming ctx) k' := by
  obtain ⟨k', hput⟩ := c.blind_put ctx source c.span id id (fun h => h) k
  refine ⟨k', fun d h => ?_⟩
  have hd := hput d h
  unfold relocate
  cases hresult : c.replacement ctx source d with
  | mk draft text? =>
    rw [hresult] at hd
    cases text? with
    | none => exact hd
    | some text => exact hd

end Candidate

/-! ## Steps of a walk -/

/-- What a walk has learnt, with a draft that speaks of assets by their paths. -/
structure WalkSketch where
  env : Environment
  draft : Sketch
  engineIsSet : Bool

/-- The state is the sketch with the names of its registry. -/
structure WalkState.Spells (n : Naming) (k : WalkSketch) (s : WalkState) : Prop where
  env : s.env = k.env
  draft : s.draft.Spells n k.draft
  engine : s.engineIsSet = k.engineIsSet

namespace Walk

variable {w : WalkSetting} {α β : Type} {step : Walk α}

/-- The step answers the same in all states that spell one sketch, and leaves states
that spell one. -/
def Blind (w : WalkSetting) (step : Walk α) : Prop :=
  ∀ k, ∃ a k', ∀ s : WalkState, s.Spells (Referent.naming w.ctx) k →
    (step.run s).1 = a ∧ (step.run s).2.Spells (Referent.naming w.ctx) k'

theorem blind_pure (a : α) : Blind w (pure a) :=
  fun k => ⟨a, k, fun _ hs => ⟨rfl, hs⟩⟩

theorem blind_bind {next : α → Walk β} (h : Blind w step) (hnext : ∀ a, Blind w (next a)) :
    Blind w (step >>= next) := by
  intro k
  obtain ⟨a, k₁, hstep⟩ := h k
  obtain ⟨b, k₂, hrest⟩ := hnext a k₁
  refine ⟨b, k₂, fun s hs => ?_⟩
  obtain ⟨ha, hs₁⟩ := hstep s hs
  have hrun : (step >>= next).run s = (next a).run (step.run s).2 := by
    rw [← ha]
    rfl
  rw [hrun]
  exact hrest _ hs₁

/-- A step that goes on with the state it starts from. -/
theorem blind_get {next : WalkState → Walk α}
    (hnext : ∀ k, ∃ a k', ∀ s : WalkState, s.Spells (Referent.naming w.ctx) k →
      ((next s).run s).1 = a ∧ ((next s).run s).2.Spells (Referent.naming w.ctx) k') :
    Blind w (get >>= next) :=
  hnext

theorem blind_env : Blind w env :=
  fun k => ⟨k.env, k, fun _ hs => ⟨hs.env, hs⟩⟩

theorem blind_modifyEnv (f : Environment → Environment) : Blind w (modifyEnv f) :=
  fun k => ⟨(), { k with env := f k.env }, fun _ hs =>
    ⟨rfl, congrArg f hs.env, hs.draft, hs.engine⟩⟩

theorem blind_modifyDraft {f : Draft → Draft}
    (h : ∀ k, ∃ k', ∀ d : Draft, d.Spells (Referent.naming w.ctx) k →
      (f d).Spells (Referent.naming w.ctx) k') : Blind w (modifyDraft f) := by
  intro k
  obtain ⟨k', hdraft⟩ := h k.draft
  exact ⟨(), { k with draft := k' }, fun s hs => ⟨rfl, hs.env, hdraft _ hs.draft, hs.engine⟩⟩

theorem blind_overwrite (span : Span) (text : String) : Blind w (overwrite span text) :=
  blind_modifyDraft fun _ => ⟨_, fun _ h => h.overwrite span (Wording.spells_plain text)⟩

theorem blind_relocate (c : Candidate) : Blind w (relocate w c) :=
  blind_modifyDraft (c.blind_relocate w.ctx w.source)

theorem blind_shorthand (name : String) (span : Span) : Blind w (shorthand w name span) := by
  refine blind_bind blind_env fun env => ?_
  split
  · rename_i c _
    refine blind_get fun k => ?_
    obtain ⟨k', hput⟩ := c.blind_put w.ctx w.source span
      (name ++ ": " ++ ·) ([.plain (name ++ ": ")] ++ ·)
      (fun h => (Wording.spells_plain _).append h) k.draft
    refine ⟨(), { k with draft := k' }, fun s hs => ?_⟩
    have hd := hput s.draft hs.draft
    split
    · rename_i hresult
      rw [hresult] at hd
      exact ⟨rfl, hs.env, hd, hs.engine⟩
    · rename_i hresult
      rw [hresult] at hd
      exact ⟨rfl, hs.env, hd, hs.engine⟩
  · refine blind_bind blind_env fun env => ?_
    split
    · exact blind_overwrite span _
    · exact blind_pure ()

/-- A binary is loaded from its place among the assets. -/
theorem blind_loadAddon (span : Span) (binary : String) (a : α) :
    Blind w (addFile w binary >>= fun reference =>
      overwrite span (Loader.dynamicLoad reference) >>= fun _ => pure a) :=
  fun k =>
    let draft := (k.draft.addFile (Referent.naming w.ctx) binary).overwrite span
      (.loading [.reference binary])
    ⟨a, { k with draft }, fun _ hs => ⟨rfl, hs.env, (hs.draft.addFile binary).1.overwrite span
      (hs.draft.addFile binary).2.loading, hs.engine⟩⟩

/-- One of two binaries is. -/
theorem blind_loadAddons (span : Span) (guard first second : String) (a : α) :
    Blind w (addFile w first >>= fun x => addFile w second >>= fun y =>
      overwrite span (guard ++ " ? " ++ Loader.dynamicLoad x ++ " : " ++ Loader.dynamicLoad y)
        >>= fun _ => pure a) := by
  intro k
  let draft := ((k.draft.addFile (Referent.naming w.ctx) first).addFile (Referent.naming w.ctx)
    second).overwrite span (.choice guard (.loading [.reference first]) (.loading [.reference second]))
  refine ⟨a, { k with draft }, fun s hs => ?_⟩
  obtain ⟨hdraft, ht⟩ := hs.draft.addFile first
  obtain ⟨hdraft', ht'⟩ := hdraft.addFile second
  have ht := ht.continues (Draft.continues_addFile _ (Referent.naming w.ctx) second)
  exact ⟨rfl, hs.env, hdraft'.overwrite span (.choice guard ht.loading ht'.loading), hs.engine⟩

/-- An engine that is set was set by the program. -/
theorem blind_unlessEngineIsSet {p : Prop} [Decidable p] {step step' : Walk α} (h : Blind w step)
    (h' : Blind w step') :
    Blind w (get >>= fun s => if p ∧ s.engineIsSet = false then step else step') := by
  refine blind_get fun k => ?_
  have hstep : Blind w (if p ∧ k.engineIsSet = false then step else step') := by
    split
    · exact h
    · exact h'
  obtain ⟨a, k', hrun⟩ := hstep k
  refine ⟨a, k', fun s hs => ?_⟩
  rw [hs.engine]
  exact hrun s hs

/-- **No walk looks at names**, since none of its steps does. -/
theorem parallel_blind (w : WalkSetting) :
    Parallel w w.source fun _ step _ => Blind w step where
  answer := blind_pure
  andThen h hnext := blind_bind h hnext
  readEnv := blind_env
  changeEnv := blind_modifyEnv
  write span _ _ _ := blind_overwrite span _
  insert _ _ _ _ :=
    blind_modifyDraft fun _ => ⟨_, fun _ h => h.appendRight _ (Wording.spells_plain _)⟩
  place := blind_relocate
  placeProperty := blind_shorthand
  loadAddon := blind_loadAddon
  loadAddons span test := blind_loadAddons span (text w test)
  setEngine k := ⟨(), { k with engineIsSet := true }, fun _ hs => ⟨rfl, hs.env, hs.draft, rfl⟩⟩
  unlessEngineIsSet h hother := blind_unlessEngineIsSet h hother

end Walk

/-! ## Before the walk -/

/-- The function does the same to all drafts that spell one sketch. -/
def Draft.Blind {α : Type} (n : Naming) (f : Draft → α × Draft) : Prop :=
  ∀ k, ∃ a k', ∀ d : Draft, d.Spells n k → (f d).1 = a ∧ (f d).2.Spells n k'

namespace SpecialCase

variable {n : Naming} {ctx : SpecialCaseContext}

/-- The rule applies to all drafts that spell one sketch or to none, and does the same
to them. -/
def BlindRule (n : Naming) (rule : Draft → Option (Tree × Draft)) : Prop :=
  ∀ k, (∀ d : Draft, d.Spells n k → rule d = none) ∨
    ∃ t k', ∀ d : Draft, d.Spells n k → ∃ d', rule d = some (t, d') ∧ d'.Spells n k'

theorem blind_onFirstStatement {rule : Tree → Draft → Option (Tree × Draft)}
    (hrule : ∀ statement, BlindRule n (rule statement)) (statements : List Tree) :
    Draft.Blind n fun d => onFirstStatement rule d statements := by
  induction statements with
  | nil => exact fun k => ⟨[], k, fun _ h => ⟨rfl, h⟩⟩
  | cons statement rest ih =>
    intro k
    obtain hnone | ⟨t, k', hsome⟩ := hrule statement k
    · obtain ⟨ts, k', hrest⟩ := ih k
      refine ⟨statement :: ts, k', fun d h => ?_⟩
      obtain ⟨hts, hdraft⟩ := hrest d h
      dsimp only
      rw [onFirstStatement, hnone d h]
      exact ⟨congrArg (statement :: ·) hts, hdraft⟩
    · refine ⟨t :: rest, k', fun d h => ?_⟩
      obtain ⟨d', hd', hdraft⟩ := hsome d h
      dsimp only
      rw [onFirstStatement, hd']
      exact ⟨rfl, hdraft⟩

theorem blind_ofStatement {rule : SpecialCaseContext → Tree → Draft → Option (Tree × Draft)}
    (hrule : ∀ statement, BlindRule n (rule ctx statement)) (program : Tree) :
    Draft.Blind n (ofStatement rule ctx program) := by
  obtain ⟨kind, span, statements⟩ := program
  intro k
  obtain ⟨ts, k', hstatements⟩ := blind_onFirstStatement hrule statements k
  refine ⟨.node kind span ts, k', fun d h => ?_⟩
  obtain ⟨hts, hdraft⟩ := hstatements d h
  exact ⟨congrArg (Syntax.Tree.node kind span) hts, hdraft⟩

theorem RuleEffect.blind {ctx : SpecialCaseContext} {rule : Draft → Option (Tree × Draft)}
    (h : RuleEffect ctx rule) : BlindRule ctx.naming rule := by
  intro k
  cases h with
  | never h => exact .inl fun d _ => h d
  | keep changed h => exact .inr ⟨changed, k, fun d hd => ⟨d, h d, hd⟩⟩
  | hold changed span h =>
    exact .inr ⟨changed, _, fun d hd => ⟨_, h d, hd.overwrite span (Wording.spells_plain "true")⟩⟩
  | place changed refused span protos _ h =>
    refine .inr ⟨if ((k.addDirectory protos).refusal? span).isNone then changed else refused,
      (k.addDirectory protos).overwrite span [.reference protos], fun d hd => ?_⟩
    obtain ⟨hdraft, ht⟩ := hd.addDirectory protos
    refine ⟨_, ?_, hdraft.overwrite span ht⟩
    rw [h, hdraft.patch_overwrite]
    cases (k.addDirectory protos).refusal? span with
    | none => rfl
    | some refusal => rfl

theorem blind_oracleDbApply (ctx : SpecialCaseContext) (program : Tree) :
    Draft.Blind n (oracleDbApply ctx program) := by
  intro k
  unfold oracleDbApply
  split
  · exact ⟨_, _, fun d h => ⟨rfl, h.overwrite _ (Wording.spells_plain _)⟩⟩
  · exact ⟨_, _, fun d h => ⟨rfl, h⟩⟩

/-- **No rule looks at names.** -/
theorem blind_apply {rule : SpecialCase} (hrule : rule ∈ all) (ctx : SpecialCaseContext)
    (program : Tree) : Draft.Blind ctx.naming (rule.apply ctx program) := by
  rw [all] at hrule
  simp only [List.mem_cons, List.not_mem_nil, or_false] at hrule
  obtain rfl | rfl | rfl | rfl := hrule
  · exact blind_ofStatement (fun statement => (effect_googleGaxRule ctx statement).blind) program
  · exact blind_ofStatement (fun statement => (effect_socketIoRule ctx statement).blind) program
  · exact blind_oracleDbApply ctx program
  · exact blind_ofStatement (fun statement => (effect_ffmpegRule ctx statement).blind) program

theorem blind_applyFirst {rules : List SpecialCase} (hrules : rules ⊆ all) (id : String)
    (ctx : SpecialCaseContext) (program : Tree) :
    Draft.Blind ctx.naming (applyFirst rules id ctx program) := by
  unfold applyFirst
  dsimp only
  split
  · rename_i heq
    exact blind_apply (hrules (List.mem_of_find?_eq_some heq)) ctx program
  · exact fun k => ⟨program, k, fun _ h => ⟨rfl, h⟩⟩

end SpecialCase

theorem Wrapper.blind_unwrap {n : Naming} (grammar : Grammar) (program : Tree)
    (scopes : ScopeTree) : Draft.Blind n (unwrap grammar program scopes) := by
  intro k
  unfold unwrap
  dsimp only
  split
  · rename_i loader id _
    cases hspan : k.refusal? loader.span with
    | some refusal =>
      refine ⟨scopes, k.skip refusal, fun d h => ?_⟩
      rw [h.patch_overwrite, hspan]
      exact ⟨rfl, h.skip refusal⟩
    | none =>
      refine ⟨scopes.undeclare id "require",
        k.overwrite loader.span [.plain parameterName], fun d h => ?_⟩
      rw [h.patch_overwrite, hspan]
      exact ⟨rfl, h.replace hspan (Wording.spells_plain parameterName)⟩
  · exact ⟨scopes, k, fun _ h => ⟨rfl, h⟩⟩

/-! ## Analyses -/

namespace Build

/-- What an analysis prepares is one program in one setting, and drafts that spell one
sketch. -/
theorem blind_prepare {b : Build} (h : b.specialCases ⊆ SpecialCase.all) (files : FileTree)
    (id source : String) (parsed : Parsed) :
    ∃ w program k, w.ctx = b.context files id ∧ ∀ registry, ∃ d : Draft,
      b.prepare files registry id source parsed = (w, program, d) ∧
        d.Spells (Referent.naming (b.context files id)) k := by
  let ctx : SpecialCaseContext :=
    ⟨(b.context files id).directory, b.options, Referent.naming (b.context files id), files⟩
  obtain ⟨program, k, hrules⟩ :=
    SpecialCase.blind_applyFirst h id ctx parsed.tree (.start source)
  have hstart registry := hrules _ (Draft.Spells.start ctx.naming source registry)
  let w (scopes : ScopeTree) : WalkSetting :=
    ⟨b.context files id, source, parsed.grammar, scopes, b.entryId == some id⟩
  obtain ⟨scopes, k', hunwrap⟩ := Wrapper.blind_unwrap (n := ctx.naming) parsed.grammar program
    (ScopeTree.ofTree program) k
  by_cases hwrapper : b.options.wrapperCompatibility = true
  · refine ⟨w scopes, program, k', rfl, fun registry => ?_⟩
    obtain ⟨hprogram, hdraft⟩ := hstart registry
    obtain ⟨hscopes, hdraft'⟩ := hunwrap _ hdraft
    refine ⟨_, ?_, hdraft'⟩
    unfold prepare
    dsimp only
    rw [if_pos hwrapper, hprogram, hscopes]
  · refine ⟨w (ScopeTree.ofTree program), program, k, rfl, fun registry => ?_⟩
    obtain ⟨hprogram, hdraft⟩ := hstart registry
    refine ⟨_, ?_, hdraft⟩
    unfold prepare
    dsimp only
    rw [if_neg hwrapper, hprogram]

theorem blind_walkProgram (w : WalkSetting) (program : Tree) (k : Sketch) :
    ∃ k', ∀ d : Draft, d.Spells (Referent.naming w.ctx) k →
      (walkProgram w program d).Spells (Referent.naming w.ctx) k' := by
  have hblind : Walk.Blind w (Walk.visitAll w program.parts) :=
    Walk.parallel_visitAll (Walk.parallel_blind w) fun part _ =>
      Walk.together (Walk.parallel_blind w) part
  obtain ⟨_, k', hwalk⟩ := hblind ⟨_, k, false⟩
  exact ⟨k'.draft, fun d h => (hwalk ⟨_, d, false⟩ ⟨rfl, h, rfl⟩).2.draft⟩

/-- **Names taken before influence spelling only.** Either a module is refused, whatever
names are taken, or there is one sketch of what its analysis does: its edits with the
spans they take the place of, and its tasks with their kinds and paths, in order. With
any names taken before, the analysis is the sketch with the names of its registry put
in, and each asset that the sketch mentions has one. -/
theorem names_only_spell {b : Build} (h : b.specialCases ⊆ SpecialCase.all) (files : FileTree)
    (id source : String) :
    (∃ e, ∀ registry, b.analyze files registry id source = .error e) ∨
      ∃ k : Sketch, ∀ registry, ∃ registry',
        b.analyze files registry id source = .ok (registry',
          { id, source
            patch := k.patch (Referent.naming (b.context files id)) registry'.called
            tasks := k.tasks registry'.called }) ∧
        ∀ path, k.Mentions path → (registry'.nameOf? path).isSome := by
  cases hparse : parse source with
  | error e =>
    refine .inl ⟨e, fun registry => ?_⟩
    unfold analyze
    rw [hparse]
    rfl
  | ok parsed =>
    obtain ⟨w, program, k, hctx, hprepare⟩ := blind_prepare h files id source parsed
    obtain ⟨k', hwalk⟩ := blind_walkProgram w program k
    refine .inr ⟨k', fun registry => ?_⟩
    obtain ⟨d, hd, hspells⟩ := hprepare registry
    rw [← hctx] at hspells ⊢
    have hfinal := hwalk d hspells
    refine ⟨(walkProgram w program d).plan.registry, ?_, hfinal.named⟩
    rw [analyze_eq hparse, hd, ← hfinal.patch, ← hfinal.tasks]

/-- A name that another module left makes the text one character longer, and that is all. -/
theorem names_only_spell_taken :
    let b := Build.ofOptions default
    let source := "module.exports = __dirname + '/a.txt';"
    let naming := Referent.naming (b.context onlyAsset "/pkg/m.js")
    (b.analyze onlyAsset (.ofExisting []) "/pkg/m.js" source).toOption.map
        (fun r => (r.2.patch.overwrites, r.2.tasks)) =
      some ([⟨⟨17, 37⟩, naming.reference "a.txt"⟩], [.file "/pkg/a.txt" "a.txt"]) ∧
    (b.analyze onlyAsset (.ofExisting ["a.txt"]) "/pkg/m.js" source).toOption.map
        (fun r => (r.2.patch.overwrites, r.2.tasks)) =
      some ([⟨⟨17, 37⟩, naming.reference "a1.txt"⟩], [.file "/pkg/a.txt" "a1.txt"]) ∧
    ∃ k : Sketch, ∀ registry, ∃ registry',
      b.analyze onlyAsset registry "/pkg/m.js" source = .ok (registry',
        ⟨"/pkg/m.js", source, k.patch naming registry'.called, k.tasks registry'.called⟩) := by
  intro b source naming
  have hfree : (b.analyze onlyAsset (.ofExisting []) "/pkg/m.js" source).toOption.map
      (fun r => (r.2.patch.overwrites, r.2.tasks)) =
      some ([⟨⟨17, 37⟩, naming.reference "a.txt"⟩], [.file "/pkg/a.txt" "a.txt"]) := by
    decide +kernel
  refine ⟨hfree, by decide +kernel, ?_⟩
  have hrules : b.specialCases ⊆ SpecialCase.all := List.Subset.refl _
  obtain ⟨e, he⟩ | ⟨k, hk⟩ := names_only_spell hrules onlyAsset "/pkg/m.js" source
  · rw [he] at hfree
    cases hfree
  · refine ⟨k, fun registry => ?_⟩
    obtain ⟨registry', hanalysis, -⟩ := hk registry
    exact ⟨registry', hanalysis⟩

end Build

end ModuleAssets
