import ModuleAssets.Proofs.Asset.Inside
import ModuleAssets.Proofs.Relocation.Issued
/-!
# The module itself — what a module does not refer to

No module becomes an asset of its own, and the name of its directory by itself does not
become a reference to the directory (`Build.analyze_spares_itself`). Both are recognized by
their looks: a path that is worked out is compared with the name of the module as it is
given, and the name of the directory counts only where nothing stands around it. So a
module whose name is not worked out does become its own asset, and so does a directory
whose name is put into parentheses (`Build.itself_relocated`).
-/

namespace ModuleAssets

open Syntax

theorem IsRooted.resolve_eq {path : String} (h : IsRooted path) :
    Path.resolve [path] = some path := by
  obtain ⟨names, hnames, rfl⟩ := h
  exact Path.resolve_self hnames

/-! ## Values that denote a place -/

/-- The value is a path that leads to the place, however it is spelled. -/
def Value.Denotes (place : String) (v : Value) : Prop :=
  ∃ text, v = .text text ∧ Path.resolve [text] = some place

/-- One of the values that an expression may have leads to the place. -/
def Outcome.Denotes (place : String) : Outcome → Prop
  | .single v => v.Denotes place
  | .either _ first second => first.Denotes place ∨ second.Denotes place

section

variable {ctx : ModuleContext}

theorem Referent.ofValue?_itself {v : Value} (h : v.Denotes ctx.id) : ofValue? ctx v = none := by
  obtain ⟨text, rfl, hresolve⟩ := h
  rw [ofValue?, hresolve, Option.bind_some, if_pos (.inr rfl)]

/-- **Nothing takes the place of an expression that leads to the module.** -/
theorem Candidate.replacement_itself {c : Candidate} (h : c.outcome.Denotes ctx.id)
    (source : String) (d : Draft) : c.replacement ctx source d = (d, none) := by
  rw [replacement]
  split
  · rfl
  · cases houtcome : c.outcome with
    | single v =>
      rw [houtcome] at h
      dsimp only
      rw [Referent.ofValue?_itself h]
    | either test first second =>
      rw [houtcome] at h
      dsimp only
      obtain hfirst | hsecond := h
      · rw [Referent.ofValue?_itself hfirst]
      · rw [Referent.ofValue?_itself hsecond]
        split
        · rename_i heq
          cases heq
        · rfl

theorem Referent.file_ne_itself {v : Value} {path : String}
    (h : ofValue? ctx v = some (.file path)) : path ≠ ctx.id := by
  rintro rfl
  unfold ofValue? at h
  split at h
  · cases h
  · obtain ⟨found, -, hfound⟩ := Option.bind_eq_some_iff.1 h
    split at hfound
    · cases hfound
    · rename_i hother
      split at hfound
      · cases hfound
        exact hother (.inr rfl)
      · split at hfound
        · split at hfound
          · cases hfound
          · cases hfound
        · cases hfound
      · cases hfound
  · cases h

end

/-! ## Addons -/

namespace Walk

/-- What a specifier names as an addon ends like one. -/
theorem isAddon_of_nativeBinary? {ctx : ModuleContext} {specifier path : String}
    (h : nativeBinary? ctx specifier = some path) : Text.endsWith path Addon.ending = true := by
  unfold nativeBinary? at h
  split at h
  · rename_i hending
    have hsuffix := List.isSuffixOf_iff_suffix.1 hending
    obtain ⟨found, hpath, hfound⟩ := Option.bind_eq_some_iff.1 h
    split at hfound
    · cases hfound
      refine List.isSuffixOf_iff_suffix.2 ?_
      split at hpath
      · rename_i habsolute
        cases hpath
        exact Path.isSuffix_normalize habsolute hsuffix (by decide) (by decide)
      · split at hpath
        · rename_i hstarts
          refine Path.isSuffix_resolve ?_ hsuffix (by decide) (by decide) hpath
          have hbegins : "./".toList <+: specifier.toList ∨ "../".toList <+: specifier.toList :=
            (Bool.or_eq_true_iff.1 hstarts).imp List.isPrefixOf_iff_prefix.1
              List.isPrefixOf_iff_prefix.1
          obtain hhere | hup := hbegins
          · exact hhere.subset (by decide)
          · exact hup.subset (by decide)
        · cases hpath
    · cases hfound
  · cases h

variable {w : WalkSetting}

/-- **No file that a walk plans is the module**, unless the module is an addon. -/
theorem ne_itself_of_finds (hkind : Text.endsWith w.ctx.id Addon.ending = false) {path : String}
    (h : Finds w path) : path ≠ w.ctx.id := by
  obtain ⟨v, hvalue⟩ | ⟨specifier, hbinary⟩ := h
  · exact Referent.file_ne_itself hvalue
  · rintro rfl
    exact Bool.false_ne_true (hkind.symm.trans (isAddon_of_nativeBinary? hbinary))

/-- A walk does not plan the module. -/
theorem itself_of_edits {may : Writing} (hkind : Text.endsWith w.ctx.id Addon.ending = false)
    {d d' : Draft} (h : d.Edits w may d') {name : String}
    (htask : .file w.ctx.id name ∈ d'.plan.tasks) : .file w.ctx.id name ∈ d.plan.tasks := by
  induction h with
  | refl => exact htask
  | overwrite _ _ ih => exact ih (Draft.plan_overwrite _ _ _ ▸ htask)
  | appendRight _ _ ih => exact ih (Draft.plan_appendRight _ _ _ ▸ htask)
  | addFile _ hpath ih =>
    obtain hbefore | heq := Plan.file_of_mem_addFile htask
    · exact ih hbefore
    · exact absurd heq.symm (ne_itself_of_finds hkind hpath)
  | addDirectory _ _ ih => exact ih (Plan.file_of_mem_addDirectory (Referent.naming w.ctx) _ htask)

/-! ## The name of the directory -/

theorem loaderAlias?_directoryName (env : Environment) (site : Site) :
    loaderAlias? w env "__dirname" site = none := by
  unfold loaderAlias?
  split
  · rfl
  · simp [Environment.loaderName, Loader.dynamicName]

/-- Reading the name of the directory is a silent candidate, if it is one. -/
theorem run_identifier_directoryName (site : Site) (span : Span) (s : WalkState) :
    ∃ candidate, (identifier w site "__dirname" span).run s = (candidate, s) ∧
      ∀ c, candidate = some c → c.IsSilent := by
  cases hname : Candidate.ofName? s.env "__dirname" span with
  | some c =>
    refine ⟨some c, ?_, fun _ heq => ?_⟩
    · simp only [identifier, env, StateT.run_bind, StateT.run_get, StateT.run_pure, pure_bind, hname]
      rfl
    · obtain rfl := Option.some.inj heq
      exact (Candidate.span_ofName? hname).2 rfl
  | none =>
    refine ⟨none, ?_, fun _ heq => absurd heq.symm (Option.some_ne_none _)⟩
    simp only [identifier, env, StateT.run_bind, StateT.run_get, StateT.run_pure, pure_bind, hname,
      loaderAlias?_directoryName]
    rfl

/-- **The name of the directory by itself** changes nothing as an expression. -/
theorem settle_directoryName (site : Site) (span : Span) (parts : List Tree) (s : WalkState) :
    (settle w (walk w site (.node (.identifier "__dirname") span parts))).run s = ((), s) := by
  obtain ⟨candidate, hrun, hsilent⟩ := run_identifier_directoryName (w := w) site span s
  rw [settle, walk, StateT.run_bind, hrun]
  cases candidate with
  | none => rfl
  | some c =>
    have hsame : c.relocate w.ctx w.source s.draft = s.draft := by
      rw [Candidate.relocate, (hsilent c rfl).replacement_eq]
    show ((), { s with draft := c.relocate w.ctx w.source s.draft }) = _
    rw [hsame]

/-- Nor does it as a property. -/
theorem walk_directoryProperty (site : Site) (span : Span) (parts : List Tree) (s : WalkState) :
    (walk w site (.node (.shorthand "__dirname") span parts)).run s = (none, s) := by
  have hshorthand : (shorthand w "__dirname" span).run s = ((), s) := by
    cases hname : Candidate.ofName? s.env "__dirname" span with
    | some c =>
      have hsilent : c.IsSilent := (Candidate.span_ofName? hname).2 rfl
      simp only [shorthand, env, StateT.run_bind, StateT.run_get, StateT.run_pure, pure_bind, hname,
        hsilent.replacement_eq]
      rfl
    | none =>
      simp only [shorthand, env, StateT.run_bind, StateT.run_get, StateT.run_pure, pure_bind, hname,
        loaderAlias?_directoryName]
      rfl
  rw [walk, StateT.run_bind, hshorthand]
  rfl

end Walk

namespace Build

/-- **A module does not relocate itself**, if its name is worked out and it is no addon. No task
copies the module's own file. If a value of an expression leads to the module, nothing takes the
place of the expression and nothing is planned for it; and no value and no specifier lets a walk
find the module as a file. The name of the module's directory by itself changes nothing, as an
expression and as a property. -/
theorem analyze_spares_itself {b : Build} (h : b.specialCases ⊆ SpecialCase.all) {files : FileTree}
    {registry registry' : Registry} {id source : String} {a : Analysis}
    (hid : Path.resolve [id] = some id) (hkind : Text.endsWith id Addon.ending = false)
    (ha : b.analyze files registry id source = .ok (registry', a)) :
    (∀ path name, .file path name ∈ a.tasks → Path.resolve [path] ≠ some id) ∧
      ∀ w : WalkSetting, w.ctx = b.context files id →
        (∀ c : Candidate, c.outcome.Denotes id → ∀ d, c.replacement w.ctx source d = (d, none)) ∧
        (∀ path, Walk.Finds w path → Path.resolve [path] ≠ some id) ∧
        ∀ site span parts s,
          (Walk.settle w (Walk.walk w site (.node (.identifier "__dirname") span parts))).run s =
              ((), s) ∧
            (Walk.walk w site (.node (.shorthand "__dirname") span parts)).run s = (none, s) := by
  refine ⟨fun path name htask hself => ?_, fun w hw =>
    ⟨fun c hc d => ?_, fun path hpath hself => ?_, fun site span parts s =>
      ⟨Walk.settle_directoryName site span parts s, Walk.walk_directoryProperty site span parts s⟩⟩⟩
  · obtain ⟨-, hrooted⟩ := isFile_of_task h ha htask
    obtain rfl := Option.some.inj (hrooted.resolve_eq.symm.trans hself)
    obtain ⟨parsed, draft, -, rfl, rfl, rfl⟩ := exists_draft_of_analyze ha
    have hprepared : ∀ name,
        .file path name ∉ (b.prepare files registry path source parsed).2.2.plan.tasks :=
      keeps_prepare (P := fun d => ∀ name, .file path name ∉ d.plan.tasks)
        (fun d span text hd name => Draft.plan_overwrite d span text ▸ hd name)
        (fun d n _ protos _ hd name hmem => hd name (Plan.file_of_mem_addDirectory n protos hmem))
        h files registry path source parsed fun _ => List.not_mem_nil
    have hedits := edits_walkProgram (b.prepare files registry path source parsed).1
      (b.prepare files registry path source parsed).2.1
      (b.prepare files registry path source parsed).2.2
    have hctx : (b.prepare files registry path source parsed).1.ctx.id = path := rfl
    rw [← hctx] at hkind htask
    exact hprepared name (Walk.itself_of_edits hkind hedits htask)
  · exact Candidate.replacement_itself (hw ▸ hc) source d
  · obtain ⟨-, hrooted⟩ := Walk.isFile_of_finds hpath
    obtain rfl := Option.some.inj (hrooted.resolve_eq.symm.trans hself)
    have hctx : w.ctx.id = path := by
      rw [hw]
      rfl
    rw [← hctx] at hkind
    exact Walk.ne_itself_of_finds hkind hpath hctx.symm

/-- A directory with one module. -/
def onlyModule : FileTree :=
  ⟨.directory [("p", .directory [("m.js", .file ByteArray.empty 0o644)])]⟩

/-- A module that names itself and its directory stays as it is. -/
theorem analyze_spares_itself_named :
    let b := Build.ofOptions default
    let source := "x(__filename, __dirname)"
    ∃ registry' a, b.specialCases ⊆ SpecialCase.all ∧ Path.resolve ["/p/m.js"] = some "/p/m.js" ∧
      Text.endsWith "/p/m.js" Addon.ending = false ∧
      b.analyze onlyModule (.ofExisting []) "/p/m.js" source = .ok (registry', a) ∧
      a.relocated.code = source ∧
      ∀ path name, .file path name ∈ a.tasks → Path.resolve [path] ≠ some "/p/m.js" := by
  intro b source
  have hrules : b.specialCases ⊆ SpecialCase.all := List.Subset.refl _
  have hid : Path.resolve ["/p/m.js"] = some "/p/m.js" := by decide +kernel
  have hkind : Text.endsWith "/p/m.js" Addon.ending = false := by decide +kernel
  obtain ⟨⟨registry', a⟩, ha, hcode⟩ :
      ∃ done, b.analyze onlyModule (.ofExisting []) "/p/m.js" source = .ok done ∧
        done.2.relocated.code = source :=
    exists_ok_of_any (by decide +kernel)
  exact ⟨registry', a, hrules, hid, hkind, ha, hcode, (analyze_spares_itself hrules hid hkind ha).1⟩

/-- **A module whose name is not worked out relocates itself**, and the name of the directory in
parentheses is a reference to the directory. -/
theorem itself_relocated :
    let b := Build.ofOptions default
    let analyzed (id source : String) :=
      (b.analyze onlyModule (.ofExisting []) id source).toOption.map fun done =>
        (done.2.tasks, done.2.relocated.code)
    Path.resolve ["/p/./m.js"] = some "/p/m.js" ∧
      analyzed "/p/./m.js" "x(__filename)" =
        some ([.file "/p/m.js" "m.js"], "x(__dirname + '/m.js')") ∧
      analyzed "/p/m.js" "x((__dirname))" =
        some ([.directory "/p" "p"], "x(__dirname + '/p')") := by
  decide +kernel

end Build

end ModuleAssets
