import Mathlib.Data.List.Forall2
import ModuleAssets.Proofs.Patch.Order
import ModuleAssets.Proofs.Relocation.Issued
import ModuleAssets.Proofs.Relocation.Parallel
/-!
# Marked modules — a byte order mark in front

The tree of a module does not count a byte order mark in front of it. So a mark changes
neither the plan of an analysis nor the places of its edits (`Build.relocateCode_marked`).
But these places are taken from the text with the mark, in which the same parts stand three
bytes later. So the parts that are copied and the parts that are replaced are not those that
the analysis means (`Build.edits_beside_marked`).
-/

namespace ModuleAssets

open Syntax

/-! ## Edits of two texts -/

section

variable {source source' : String}

/-- The two overwrites have one place, and their texts differ in what they copy. -/
structure Overwrite.Alike (source source' : String) (o o' : Overwrite) : Prop where
  span : o'.span = o.span
  text : Text.Copied source source' o.text o'.text

/-- The two insertions have one place, and their texts differ in what they copy. -/
structure Insertion.Alike (source source' : String) (i i' : Insertion) : Prop where
  position : i'.position = i.position
  rank : i'.rank = i.rank
  text : Text.Copied source source' i.text i'.text

/-- The second patch does to the longer text what the first one does to the other. -/
structure Patch.Alike (source source' : String) (p p' : Patch) : Prop where
  length : p.length ≤ p'.length
  overwrites : p.overwrites.Forall₂ (Overwrite.Alike source source') p'.overwrites
  insertions : p.insertions.Forall₂ (Insertion.Alike source source') p'.insertions

namespace Patch.Alike

variable {p p' q : Patch} {text text' : String}

theorem ofText (h : Text.byteLength source.toList ≤ Text.byteLength source'.toList) :
    (Patch.ofText source).Alike source source' (Patch.ofText source') :=
  ⟨h, .nil, .nil⟩

theorem isEmpty (h : p.Alike source source' p') : p'.isEmpty = p.isEmpty := by
  obtain ⟨-, hoverwrites, hinsertions⟩ := h
  unfold Patch.isEmpty
  generalize p.overwrites = os, p'.overwrites = os' at hoverwrites
  generalize p.insertions = is, p'.insertions = is' at hinsertions
  cases hoverwrites with
  | nil => cases hinsertions <;> rfl
  | cons => rfl

/-- The overwrites have the same places. -/
theorem spans (h : p.Alike source source' p') :
    p'.overwrites.map (·.span) = p.overwrites.map (·.span) := by
  obtain ⟨-, hoverwrites, -⟩ := h
  generalize p.overwrites = os, p'.overwrites = os' at hoverwrites
  induction hoverwrites with
  | nil => rfl
  | cons halike _ ih => rw [List.map_cons, List.map_cons, halike.span, ih]

theorem exists_overwrite (h : p.Alike source source' p') {o' : Overwrite}
    (ho' : o' ∈ p'.overwrites) : ∃ o ∈ p.overwrites, o.span = o'.span := by
  have hspan : o'.span ∈ p.overwrites.map (·.span) := h.spans ▸ List.mem_map_of_mem ho'
  exact List.mem_map.1 hspan

/-- **What the first patch accepts the second accepts.** -/
theorem overwrite (h : p.Alike source source' p') {span : Span}
    (htext : Text.Copied source source' text text') (hq : p.overwrite span text = .ok q) :
    ∃ q', p'.overwrite span text' = .ok q' ∧ q.Alike source source' q' := by
  obtain ⟨hcovers, hbounded, hfree, rfl⟩ := Patch.overwrite_eq_ok hq
  have hadmits : ∀ o' ∈ p'.overwrites, span.Admits o'.span := by
    intro o' ho'
    obtain ⟨o, ho, hspan⟩ := h.exists_overwrite ho'
    rw [← hspan]
    exact (hfree o ho).imp Span.containsSpan_eq_true.1 Or.symm
  obtain ⟨q', hq'⟩ :=
    Patch.exists_overwrite hcovers (Nat.le_trans hbounded h.length) hadmits text'
  refine ⟨q', hq', ?_⟩
  obtain ⟨-, -, -, rfl⟩ := Patch.overwrite_eq_ok hq'
  refine ⟨h.length, List.rel_append ?_ (.cons ⟨rfl, htext⟩ .nil), ?_⟩
  · refine List.rel_filter (fun o o' halike => ?_) h.overwrites
    dsimp only
    rw [halike.span]
  · refine List.rel_filter (fun i i' halike => ?_) h.insertions
    dsimp only
    rw [halike.position]

theorem appendRight (h : p.Alike source source' p') {position : Nat}
    (htext : Text.Copied source source' text text') (hq : p.appendRight position text = .ok q) :
    ∃ q', p'.appendRight position text' = .ok q' ∧ q.Alike source source' q' := by
  obtain ⟨hbounded, hfree, rfl⟩ := Patch.appendRight_eq_ok hq
  have houtside : ∀ o' ∈ p'.overwrites, o'.span.containsInner position = false := by
    intro o' ho'
    obtain ⟨o, ho, hspan⟩ := h.exists_overwrite ho'
    exact hspan ▸ hfree o ho
  obtain ⟨q', hq'⟩ :=
    Patch.exists_appendRight (Nat.le_trans hbounded h.length) houtside text'
  refine ⟨q', hq', ?_⟩
  obtain ⟨-, -, rfl⟩ := Patch.appendRight_eq_ok hq'
  exact ⟨h.length, h.overwrites, List.rel_append h.insertions
    (.cons ⟨rfl, h.insertions.length_eq.symm, htext⟩ .nil)⟩

end Patch.Alike

/-! ## Drafts -/

/-- The drafts have one plan. The edits of the second do to the longer text what those of the
first do to the other, as long as none of these was refused. -/
structure Draft.Alike (source source' : String) (d d' : Draft) : Prop where
  plan : d'.plan = d.plan
  patch : d.skipped = [] → d'.skipped = [] ∧ d.patch.Alike source source' d'.patch

namespace Draft.Alike

variable {d d' : Draft} {text text' : String}

theorem start (h : Text.byteLength source.toList ≤ Text.byteLength source'.toList)
    (registry : Registry) :
    (Draft.start source registry).Alike source source' (Draft.start source' registry) :=
  ⟨rfl, fun _ => ⟨rfl, .ofText h⟩⟩

/-- An overwrite that leaves no refusal is accepted by both patches. -/
theorem accepted (h : d.Alike source source' d') {span : Span}
    (htext : Text.Copied source source' text text')
    (hskipped : (d.overwrite span text).skipped = []) :
    ∃ q q', d.patch.overwrite span text = .ok q ∧ d'.patch.overwrite span text' = .ok q' ∧
      d'.skipped = [] ∧ q.Alike source source' q' := by
  unfold Draft.overwrite at hskipped
  cases hq : d.patch.overwrite span text with
  | error refusal =>
    rw [hq] at hskipped
    exact absurd hskipped (List.append_ne_nil_of_right_ne_nil _ (List.cons_ne_nil _ _))
  | ok q =>
    rw [hq] at hskipped
    obtain ⟨hskipped', hpatch⟩ := h.patch hskipped
    obtain ⟨q', hq', halike⟩ := hpatch.overwrite htext hq
    exact ⟨q, q', rfl, hq', hskipped', halike⟩

theorem overwrite (h : d.Alike source source' d') (span : Span)
    (htext : Text.Copied source source' text text') :
    (d.overwrite span text).Alike source source' (d'.overwrite span text') := by
  refine ⟨by rw [plan_overwrite, plan_overwrite, h.plan], fun hskipped => ?_⟩
  obtain ⟨q, q', hq, hq', hskipped', halike⟩ := h.accepted htext hskipped
  rw [Draft.overwrite, Draft.overwrite, hq, hq']
  exact ⟨hskipped', halike⟩

theorem appendRight (h : d.Alike source source' d') (position : Nat)
    (htext : Text.Copied source source' text text') :
    (d.appendRight position text).Alike source source' (d'.appendRight position text') := by
  refine ⟨by rw [plan_appendRight, plan_appendRight, h.plan], fun hskipped => ?_⟩
  unfold Draft.appendRight at hskipped ⊢
  cases hq : d.patch.appendRight position text with
  | error refusal =>
    rw [hq] at hskipped
    exact absurd hskipped (List.append_ne_nil_of_right_ne_nil _ (List.cons_ne_nil _ _))
  | ok q =>
    rw [hq] at hskipped
    obtain ⟨hskipped', hpatch⟩ := h.patch hskipped
    obtain ⟨q', hq', halike⟩ := hpatch.appendRight htext hq
    rw [hq']
    exact ⟨hskipped', halike⟩

theorem addFile (h : d.Alike source source' d') (n : Naming) (path : String) :
    (d.addFile n path).1.Alike source source' (d'.addFile n path).1 ∧
      (d'.addFile n path).2 = (d.addFile n path).2 := by
  unfold Draft.addFile
  rw [h.plan]
  exact ⟨⟨rfl, h.patch⟩, rfl⟩

theorem addDirectory (h : d.Alike source source' d') (n : Naming) (path : String) :
    (d.addDirectory n path).1.Alike source source' (d'.addDirectory n path).1 ∧
      (d'.addDirectory n path).2 = (d.addDirectory n path).2 := by
  unfold Draft.addDirectory
  rw [h.plan]
  exact ⟨⟨rfl, h.patch⟩, rfl⟩

/-- What is referred to has one expression. -/
theorem refer (h : d.Alike source source' d') (ctx : ModuleContext) (loadsBinary : Bool)
    (referent : Referent) :
    (referent.refer ctx loadsBinary d).1.Alike source source'
        (referent.refer ctx loadsBinary d').1 ∧
      (referent.refer ctx loadsBinary d').2 = (referent.refer ctx loadsBinary d).2 := by
  cases referent with
  | file path =>
    obtain ⟨hdraft, hreference⟩ := h.addFile (Referent.naming ctx) path
    refine ⟨hdraft, ?_⟩
    unfold Referent.refer
    dsimp only
    rw [hreference]
  | directory path => exact h.addDirectory (Referent.naming ctx) path
  | literal text => exact ⟨h, rfl⟩

/-- A candidate is replaced by texts that differ in what they copy, or not at all. -/
theorem replacement (h : d.Alike source source' d') (ctx : ModuleContext) (c : Candidate) :
    (c.replacement ctx source d).1.Alike source source' (c.replacement ctx source' d').1 ∧
      Option.Rel (Text.Copied source source') (c.replacement ctx source d).2
        (c.replacement ctx source' d').2 := by
  unfold Candidate.replacement
  split
  · exact ⟨h, .none⟩
  split
  · split
    · exact ⟨h, .none⟩
    · exact ⟨h, .none⟩
    · rename_i referent _ _
      obtain ⟨hdraft, htext⟩ := h.refer ctx c.loadsBinary referent
      exact ⟨hdraft, .some (htext ▸ .same _)⟩
  · rename_i test _ _ _
    split
    · rename_i first second _ _
      split
      · obtain ⟨hfirst, htext⟩ := h.refer ctx c.loadsBinary first
        obtain ⟨hsecond, htext'⟩ := hfirst.refer ctx c.loadsBinary second
        refine ⟨hsecond, .some ?_⟩
        rw [htext, htext']
        exact .choice test (.same _) (.same _)
      · exact ⟨h, .none⟩
    · exact ⟨h, .none⟩

theorem relocate (h : d.Alike source source' d') (ctx : ModuleContext) (c : Candidate) :
    (c.relocate ctx source d).Alike source source' (c.relocate ctx source' d') := by
  obtain ⟨hdraft, htext⟩ := h.replacement ctx c
  unfold Candidate.relocate
  cases hone : c.replacement ctx source d with
  | mk draft text? =>
    cases hother : c.replacement ctx source' d' with
    | mk draft' text?' =>
      rw [hone, hother] at hdraft htext
      cases htext with
      | none => exact hdraft
      | some htext => exact hdraft.overwrite c.span htext

end Draft.Alike

/-! ## Walks -/

/-- What the walks have learnt is the same, and their drafts are alike. -/
structure WalkState.Alike (source source' : String) (s s' : WalkState) : Prop where
  env : s'.env = s.env
  draft : s.draft.Alike source source' s'.draft
  engine : s'.engineIsSet = s.engineIsSet

namespace Walk

open WalkSetting

/-- The second step does over the other text what the first one does over the one. -/
def Mirrors (source source' : String) ⦃α : Type⦄ (step step' : Walk α) : Prop :=
  ∀ s s', s.Alike source source' s' →
    (step'.run s').1 = (step.run s).1 ∧ (step.run s).2.Alike source source' (step'.run s').2

variable {α β : Type} {step step' : Walk α}

theorem mirrors_pure (a : α) : Mirrors source source' (pure a) (pure a) :=
  fun _ _ hs => ⟨rfl, hs⟩

theorem mirrors_bind {next next' : α → Walk β} (h : Mirrors source source' step step')
    (hnext : ∀ a, Mirrors source source' (next a) (next' a)) :
    Mirrors source source' (step >>= next) (step' >>= next') := by
  intro s s' hs
  obtain ⟨ha, hs₁⟩ := h s s' hs
  have hrun : (step' >>= next').run s' = (next' (step.run s).1).run (step'.run s').2 := by
    rw [← ha]
    rfl
  rw [hrun]
  exact hnext _ _ _ hs₁

/-- Steps that go on with the states they start from. -/
theorem mirrors_get {next next' : WalkState → Walk α}
    (hnext : ∀ s s', s.Alike source source' s' → ((next' s').run s').1 = ((next s).run s).1 ∧
      ((next s).run s).2.Alike source source' ((next' s').run s').2) :
    Mirrors source source' (get >>= next) (get >>= next') :=
  hnext

theorem mirrors_env : Mirrors source source' env env :=
  fun _ _ hs => ⟨hs.env, hs⟩

theorem mirrors_modifyDraft {f f' : Draft → Draft}
    (h : ∀ d d', d.Alike source source' d' → (f d).Alike source source' (f' d')) :
    Mirrors source source' (modifyDraft f) (modifyDraft f') :=
  fun _ _ hs => ⟨rfl, hs.env, h _ _ hs.draft, hs.engine⟩

theorem mirrors_overwrite (span : Span) {text text' : String}
    (h : Text.Copied source source' text text') :
    Mirrors source source' (overwrite span text) (overwrite span text') :=
  mirrors_modifyDraft fun _ _ hd => hd.overwrite span h

variable {w : WalkSetting}

theorem mirrors_addFile (path : String) :
    Mirrors w.source source' (addFile w path) (addFile (w.withSource source') path) :=
  fun _ _ hs =>
    have hadded := hs.draft.addFile (Referent.naming w.ctx) path
    ⟨hadded.2, hs.env, hadded.1, hs.engine⟩

theorem mirrors_shorthand (name : String) (span : Span) :
    Mirrors w.source source' (shorthand w name span)
      (shorthand (w.withSource source') name span) := by
  refine mirrors_bind mirrors_env fun env => ?_
  split
  · rename_i c _
    refine mirrors_get fun s s' hs => ?_
    obtain ⟨hdraft, htext⟩ := hs.draft.replacement w.ctx c
    rw [ctx_withSource, source_withSource]
    cases hone : c.replacement w.ctx w.source s.draft with
    | mk draft text? =>
      cases hother : c.replacement w.ctx source' s'.draft with
      | mk draft' text?' =>
        rw [hone, hother] at hdraft htext
        cases htext with
        | none => exact ⟨rfl, hs.env, hdraft, hs.engine⟩
        | some htext =>
          exact ⟨rfl, hs.env, hdraft.overwrite span ((Text.Copied.same _).append htext), hs.engine⟩
  · refine mirrors_bind mirrors_env fun env => ?_
    rw [loaderAlias?_withSource]
    split
    · exact mirrors_overwrite span (.same _)
    · exact mirrors_pure ()

theorem mirrors_unlessEngineIsSet {p : Prop} [Decidable p] {other other' : Walk α}
    (h : Mirrors source source' step step') (hother : Mirrors source source' other other') :
    Mirrors source source' (get >>= fun s => if p ∧ s.engineIsSet = false then step else other)
      (get >>= fun s => if p ∧ s.engineIsSet = false then step' else other') := by
  refine mirrors_get fun s s' hs => ?_
  rw [hs.engine]
  split
  · exact h s s' hs
  · exact hother s s' hs

/-- **A walk over the other text mirrors the one**, since each of its steps does. -/
theorem parallel_mirrors (w : WalkSetting) (source' : String) :
    Parallel w source' (Mirrors w.source source') where
  answer := mirrors_pure
  andThen h hnext := mirrors_bind h hnext
  readEnv := mirrors_env
  changeEnv f _ _ hs := ⟨rfl, congrArg f hs.env, hs.draft, hs.engine⟩
  write span _ _ h := mirrors_overwrite span h
  insert position _ _ h := mirrors_modifyDraft fun _ _ hd => hd.appendRight position h
  place c := mirrors_modifyDraft fun _ _ hd => hd.relocate w.ctx c
  placeProperty := mirrors_shorthand
  loadAddon span binary a := mirrors_bind (mirrors_addFile binary) fun _ =>
    mirrors_bind (mirrors_overwrite span (.same _)) fun _ => mirrors_pure a
  loadAddons span test first second a :=
    mirrors_bind (mirrors_addFile first) fun _ => mirrors_bind (mirrors_addFile second) fun _ =>
      mirrors_bind (mirrors_overwrite span (.choice test (.same _) (.same _))) fun _ =>
        mirrors_pure a
  setEngine _ _ hs := ⟨rfl, hs.env, hs.draft, rfl⟩
  unlessEngineIsSet h hother := mirrors_unlessEngineIsSet h hother

end Walk

/-! ## Before the walk -/

/-- The function does the same to drafts that are alike, if it leaves out no edit of the first. -/
def Draft.Mirrored (source source' : String) {α : Type} (f : Draft → α × Draft) : Prop :=
  ∀ d d', d.Alike source source' d' → (f d).2.skipped = [] →
    (f d').1 = (f d).1 ∧ (f d).2.Alike source source' (f d').2

theorem Draft.Mirrored.of_alike {α : Type} {f : Draft → α × Draft} {a : α} {g : Draft → Draft}
    (hf : ∀ d, f d = (a, g d))
    (h : ∀ d d', d.Alike source source' d' → (g d).Alike source source' (g d')) :
    Draft.Mirrored source source' f := by
  intro d d' halike _
  rw [hf, hf]
  exact ⟨rfl, h d d' halike⟩

namespace SpecialCase

/-- The rule applies to both of two drafts that are alike or to none, and does the same to them,
if it leaves out no edit of the first. -/
def MirroredRule (source source' : String) (rule : Draft → Option (Tree × Draft)) : Prop :=
  ∀ d d', d.Alike source source' d' → (rule d = none ∧ rule d' = none) ∨
    ∃ t e, rule d = some (t, e) ∧
      (e.skipped = [] → ∃ e', rule d' = some (t, e') ∧ e.Alike source source' e')

theorem mirrored_onFirstStatement {rule : Tree → Draft → Option (Tree × Draft)}
    (hrule : ∀ statement, MirroredRule source source' (rule statement)) (statements : List Tree) :
    Draft.Mirrored source source' fun d => onFirstStatement rule d statements := by
  induction statements with
  | nil => exact fun d d' h _ => ⟨rfl, h⟩
  | cons statement rest ih =>
    intro d d' h hskipped
    dsimp only at hskipped ⊢
    rw [onFirstStatement] at hskipped ⊢
    rw [onFirstStatement]
    obtain ⟨hnone, hnone'⟩ | ⟨t, e, hsome, hmirror⟩ := hrule statement d d' h
    · rw [hnone] at hskipped ⊢
      rw [hnone']
      obtain ⟨hts, hdraft⟩ := ih d d' h hskipped
      exact ⟨congrArg (statement :: ·) hts, hdraft⟩
    · rw [hsome] at hskipped ⊢
      obtain ⟨e', hsome', halike⟩ := hmirror hskipped
      rw [hsome']
      exact ⟨rfl, halike⟩

theorem mirrored_ofStatement {rule : SpecialCaseContext → Tree → Draft → Option (Tree × Draft)}
    {ctx : SpecialCaseContext}
    (hrule : ∀ statement, MirroredRule source source' (rule ctx statement)) (program : Tree) :
    Draft.Mirrored source source' (ofStatement rule ctx program) := by
  obtain ⟨kind, span, statements⟩ := program
  intro d d' h hskipped
  obtain ⟨hts, hdraft⟩ := mirrored_onFirstStatement hrule statements d d' h hskipped
  exact ⟨congrArg (Syntax.Tree.node kind span) hts, hdraft⟩

theorem RuleEffect.mirrored {ctx : SpecialCaseContext} {rule : Draft → Option (Tree × Draft)}
    (heffect : RuleEffect ctx rule) : MirroredRule source source' rule := by
  intro d d' h
  cases heffect with
  | never heq => exact .inl ⟨heq d, heq d'⟩
  | keep changed heq => exact .inr ⟨changed, d, heq d, fun _ => ⟨d', heq d', h⟩⟩
  | hold changed span heq =>
    exact .inr ⟨changed, _, heq d, fun _ => ⟨_, heq d', h.overwrite span (.same "true")⟩⟩
  | place changed refused span protos _ heq =>
    obtain ⟨hdraft, hreference⟩ := h.addDirectory ctx.naming protos
    refine .inr ⟨_, _, heq d, fun hskipped => ?_⟩
    obtain ⟨q, q', hq, hq', -⟩ := hdraft.accepted (.same _) hskipped
    refine ⟨_, ?_, hdraft.overwrite span (.same _)⟩
    rw [heq, hreference, hq, hq']
    rfl

theorem mirrored_oracleDbApply (ctx : SpecialCaseContext) (program : Tree) :
    Draft.Mirrored source source' (oracleDbApply ctx program) := by
  unfold oracleDbApply
  split
  · exact .of_alike (fun _ => rfl) fun _ _ h => h.overwrite _ (.same _)
  · exact .of_alike (g := id) (fun _ => rfl) fun _ _ h => h

/-- **Rules see nothing of the text.** -/
theorem mirrored_applyFirst {rules : List SpecialCase} (hrules : rules ⊆ all) (id : String)
    (ctx : SpecialCaseContext) (program : Tree) :
    Draft.Mirrored source source' (applyFirst rules id ctx program) := by
  unfold applyFirst
  dsimp only
  split
  · rename_i rule hfind
    have hrule := hrules (List.mem_of_find?_eq_some hfind)
    rw [all] at hrule
    simp only [List.mem_cons, List.not_mem_nil, or_false] at hrule
    obtain rfl | rfl | rfl | rfl := hrule
    · exact mirrored_ofStatement (fun statement => (effect_googleGaxRule ctx statement).mirrored) program
    · exact mirrored_ofStatement (fun statement => (effect_socketIoRule ctx statement).mirrored) program
    · exact mirrored_oracleDbApply ctx program
    · exact mirrored_ofStatement (fun statement => (effect_ffmpegRule ctx statement).mirrored) program
  · exact fun d d' h _ => ⟨rfl, h⟩

end SpecialCase

theorem Wrapper.mirrored_unwrap (grammar : Grammar) (program : Tree) (scopes : ScopeTree) :
    Draft.Mirrored source source' (unwrap grammar program scopes) := by
  unfold unwrap
  dsimp only
  split
  · rename_i loader id _
    intro d d' h hskipped
    have haccepted : (d.overwrite loader.span parameterName).skipped = [] := by
      dsimp only at hskipped
      rw [Draft.overwrite]
      cases hq : d.patch.overwrite loader.span parameterName with
      | error refusal =>
        rw [hq] at hskipped
        exact hskipped
      | ok q =>
        rw [hq] at hskipped
        exact hskipped
    obtain ⟨q, q', hq, hq', hskipped', halike⟩ := h.accepted (.same _) haccepted
    dsimp only
    rw [hq, hq']
    exact ⟨rfl, h.plan, fun _ => ⟨hskipped', halike⟩⟩
  · exact fun d d' h _ => ⟨rfl, h⟩

end

/-! ## Analyses -/

namespace Build

theorem alike_walkProgram (w : WalkSetting) (program : Tree) {source' : String} {d d' : Draft}
    (h : d.Alike w.source source' d') :
    (walkProgram w program d).Alike w.source source'
      (walkProgram (w.withSource source') program d') :=
  have hmirrors := Walk.parallel_mirrors w source'
  (Walk.parallel_visitAll hmirrors (fun part _ => Walk.together hmirrors part) ⟨_, d, false⟩
    ⟨_, d', false⟩ ⟨rfl, h, rfl⟩).2.draft

section

variable {b : Build} {files : FileTree} {registry : Registry} {id source source' : String}
  {parsed : Parsed}

/-- What an analysis prepares for a longer text with the same tree differs in the text only. -/
theorem alike_prepare (h : b.specialCases ⊆ SpecialCase.all) (files : FileTree)
    (registry : Registry) (id : String) (hlaid : parsed.tree.Laid)
    (hbounded : parsed.tree.span.stop ≤ Text.byteLength source.toList)
    (hlength : Text.byteLength source.toList ≤ Text.byteLength source'.toList) :
    ∃ w program d d', b.prepare files registry id source parsed = (w, program, d) ∧
      b.prepare files registry id source' parsed = (w.withSource source', program, d') ∧
      w.source = source ∧ d.Alike source source' d' := by
  let ctx : SpecialCaseContext :=
    ⟨(b.context files id).directory, b.options, Referent.naming (b.context files id), files⟩
  obtain ⟨hopen, hskipped⟩ :=
    SpecialCase.leavesOpen_applyFirst ctx h id (open_start registry hlaid hbounded) rfl
  obtain ⟨hprogram, hdraft⟩ := SpecialCase.mirrored_applyFirst h id ctx parsed.tree _ _
    (.start hlength registry) hskipped
  unfold prepare
  dsimp only
  rw [hprogram]
  split
  · obtain ⟨-, hskipped'⟩ :=
      Wrapper.leavesOpen_unwrap hopen parsed.grammar (ScopeTree.ofTree _)
    obtain ⟨hscopes, hdraft'⟩ := Wrapper.mirrored_unwrap parsed.grammar _ (ScopeTree.ofTree _) _ _
      hdraft (hskipped'.trans hskipped)
    rw [hscopes]
    exact ⟨_, _, _, _, rfl, rfl, rfl, hdraft'⟩
  · exact ⟨_, _, _, _, rfl, rfl, rfl, hdraft⟩

/-- **The analysis of a longer text with the same tree** plans the same, and makes its edits in
the same places. -/
theorem alike_analyze (h : b.specialCases ⊆ SpecialCase.all) (files : FileTree)
    (registry : Registry) (id : String) (hparse : parse source = .ok parsed)
    (hparse' : parse source' = .ok parsed) (hlaid : parsed.tree.Laid)
    (hbounded : parsed.tree.span.stop ≤ Text.byteLength source.toList)
    (hlength : Text.byteLength source.toList ≤ Text.byteLength source'.toList) :
    ∃ registry' patch patch' tasks,
      b.analyze files registry id source = .ok (registry', ⟨id, source, patch, tasks⟩) ∧
      b.analyze files registry id source' = .ok (registry', ⟨id, source', patch', tasks⟩) ∧
      patch.Alike source source' patch' := by
  obtain ⟨w, program, d, d', hprepare, hprepare', hsource, halike⟩ :=
    alike_prepare h files registry id hlaid hbounded hlength
  have hskipped : (b.drafted files registry id source parsed).skipped = [] :=
    (edits_accepted h files registry id hparse hlaid hbounded).2.1
  have hdraft : (walkProgram w program d).Alike source source'
      (walkProgram (w.withSource source') program d') := by
    subst hsource
    exact alike_walkProgram w program halike
  unfold drafted at hskipped
  rw [hprepare] at hskipped
  rw [analyze_eq hparse, analyze_eq hparse', hprepare, hprepare']
  dsimp only
  rw [hdraft.plan]
  exact ⟨_, _, _, _, rfl, rfl, (hdraft.patch hskipped).2⟩

end

end Build

/-! ## Marks -/

/-- A text with a byte order mark in front. -/
def Text.marked (text : String) : String :=
  "\uFEFF" ++ text

/-- **A text parses the same with a mark in front.** -/
theorem parse_marked {source : String} (h : withoutByteOrderMark source.toList = source.toList) :
    parse (Text.marked source) = parse source := by
  have hdrop : withoutByteOrderMark (Text.marked source).toList = source.toList := by
    rw [Text.marked, String.toList_append]
    rfl
  unfold parse
  rw [hdrop, h]

theorem byteLength_marked (source : String) :
    Text.byteLength (Text.marked source).toList = 3 + Text.byteLength source.toList := by
  rw [Text.marked, String.toList_append]
  rfl

namespace Build

/-- **A mark in front changes neither the plan nor the places of the edits.** With the mark a
module is refused for the same reason, or its analysis asks for the same assets and has its edits
in the same places; their texts differ in what they copy from there. The same happens to the
assets. A module that is not edited keeps its mark. -/
theorem relocateCode_marked {b : Build} (h : b.specialCases ⊆ SpecialCase.all) (files : FileTree)
    (host : Host) (id : String) {source : String} (o : Output)
    (hmark : withoutByteOrderMark source.toList = source.toList)
    (hlaid : ∀ parsed, parse source = .ok parsed → parsed.tree.Laid ∧
      parsed.tree.span.stop ≤ Text.byteLength source.toList) :
    let plain := b.relocateCode files host id source o
    let marked := b.relocateCode files host id (Text.marked source) o
    marked.output = plain.output ∧
      ((∃ e, plain.result = .error (.refused e) ∧ marked.result = .error (.refused e)) ∨
        ∃ registry' a a', b.analyze files o.registry id source = .ok (registry', a) ∧
          b.analyze files o.registry id (Text.marked source) = .ok (registry', a') ∧
          a'.tasks = a.tasks ∧ a.patch.Alike source (Text.marked source) a'.patch ∧
          ((∃ e, plain.result = .error e ∧ marked.result = .error e) ∨
            plain.result = .ok a.relocated ∧ marked.result = .ok a'.relocated) ∧
          (a.isTransformed = false → a'.relocated.code = Text.marked a.relocated.code)) := by
  have hparse' := parse_marked hmark
  unfold relocateCode
  cases hparse : parse source with
  | error e =>
    rw [hparse] at hparse'
    rw [analyze_eq_error hparse, analyze_eq_error hparse']
    exact ⟨rfl, .inl ⟨e, rfl, rfl⟩⟩
  | ok parsed =>
    rw [hparse] at hparse'
    obtain ⟨hlaid, hbounded⟩ := hlaid parsed hparse
    have hlength : Text.byteLength source.toList ≤ Text.byteLength (Text.marked source).toList := by
      rw [byteLength_marked]
      omega
    obtain ⟨registry', patch, patch', tasks, ha, ha', halike⟩ :=
      alike_analyze h files o.registry id hparse hparse' hlaid hbounded hlength
    rw [ha, ha']
    dsimp only [commit]
    generalize runTasks files host b.options.assetBase tasks _ = done
    have hcode : (⟨id, source, patch, tasks⟩ : Analysis).isTransformed = false →
        (⟨id, Text.marked source, patch', tasks⟩ : Analysis).relocated.code =
          Text.marked (⟨id, source, patch, tasks⟩ : Analysis).relocated.code := by
      intro hnone
      have hnone' : (⟨id, Text.marked source, patch', tasks⟩ : Analysis).isTransformed = false := by
        rw [Analysis.isTransformed, halike.isEmpty]
        exact hnone
      rw [Analysis.relocated, Analysis.relocated, hnone, hnone']
      rfl
    cases done.failure with
    | some e => exact ⟨rfl, .inr ⟨_, _, _, rfl, rfl, rfl, halike, .inl ⟨_, rfl, rfl⟩, hcode⟩⟩
    | none => exact ⟨rfl, .inr ⟨_, _, _, rfl, rfl, rfl, halike, .inr ⟨rfl, rfl⟩, hcode⟩⟩

/-- The test of the choice is copied. With the mark in front there is nothing at its place, which
lies within the mark. -/
theorem relocateCode_marked_choice :
    let b := Build.ofOptions default
    let source := "x(y ? __dirname + '/a.txt' : __dirname + '/a.txt')"
    let overwrites (source : String) :=
      (b.analyze onlyAsset b.start.registry "/pkg/m.js" source).toOption.map fun done =>
        done.2.patch.overwrites
    b.specialCases ⊆ SpecialCase.all ∧ withoutByteOrderMark source.toList = source.toList ∧
      (∀ parsed, parse source = .ok parsed → parsed.tree.Laid ∧
        parsed.tree.span.stop ≤ Text.byteLength source.toList) ∧
      overwrites source = some [⟨⟨2, 49⟩, "y ? __dirname + '/a.txt' : __dirname + '/a.txt'"⟩] ∧
      overwrites (Text.marked source) =
        some [⟨⟨2, 49⟩, " ? __dirname + '/a.txt' : __dirname + '/a.txt'"⟩] ∧
      ∃ plain marked, b.relocateCode onlyAsset .open_ "/pkg/m.js" source b.start = plain ∧
        b.relocateCode onlyAsset .open_ "/pkg/m.js" (Text.marked source) b.start = marked ∧
        marked.output = plain.output ∧
        ((∃ e, plain.result = .error (.refused e) ∧ marked.result = .error (.refused e)) ∨
          ∃ registry' a a',
            b.analyze onlyAsset b.start.registry "/pkg/m.js" source = .ok (registry', a) ∧
            b.analyze onlyAsset b.start.registry "/pkg/m.js" (Text.marked source) =
              .ok (registry', a') ∧
            a'.tasks = a.tasks ∧ a.patch.Alike source (Text.marked source) a'.patch ∧
            ((∃ e, plain.result = .error e ∧ marked.result = .error e) ∨
              plain.result = .ok a.relocated ∧ marked.result = .ok a'.relocated) ∧
            (a.isTransformed = false → a'.relocated.code = Text.marked a.relocated.code)) := by
  intro b source overwrites
  have hrules : b.specialCases ⊆ SpecialCase.all := List.Subset.refl _
  have hmark : withoutByteOrderMark source.toList = source.toList := by decide +kernel
  obtain ⟨parsed, hparse, hlaid⟩ : ∃ parsed, parse source = .ok parsed ∧
      parsed.tree.Laid ∧ parsed.tree.span.stop ≤ Text.byteLength source.toList :=
    exists_ok_of_any (by decide +kernel)
  have hlaid : ∀ parsed, parse source = .ok parsed → parsed.tree.Laid ∧
      parsed.tree.span.stop ≤ Text.byteLength source.toList := by
    intro parsed' hparse'
    obtain rfl := Except.ok.inj (hparse.symm.trans hparse')
    exact hlaid
  exact ⟨hrules, hmark, hlaid, by decide +kernel, by decide +kernel, _, _, rfl, rfl,
    relocateCode_marked hrules onlyAsset .open_ "/pkg/m.js" b.start hmark hlaid⟩

/-- **With a mark in front the edits stand three bytes beside their parts.** Here the expression
for the asset cuts the mark and the start of the call off, and leaves the end of the path. -/
theorem edits_beside_marked :
    let b := Build.ofOptions default
    let source := "x(__dirname + '/a.txt')"
    let code (source : String) :=
      (b.analyze onlyAsset (.ofExisting []) "/pkg/m.js" source).toOption.map fun done =>
        (done.2.tasks, done.2.relocated.code)
    code source = some ([.file "/pkg/a.txt" "a.txt"], source) ∧
      code (Text.marked source) =
        some ([.file "/pkg/a.txt" "a.txt"], "__dirname + '/a.txt'xt')") ∧
      "__dirname + '/a.txt'xt')" ≠ Text.marked source := by
  decide +kernel

end Build

end ModuleAssets
