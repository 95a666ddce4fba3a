import ModuleAssets.Proofs.Asset.Planned
/-!
# Sketches — what an analysis does, whatever names assets have

The texts of a module's edits hold the names of assets, and so do its tasks. A
sketch is a draft without them: its texts and its needs speak of assets by their
paths. A draft spells a sketch if it is the sketch with the names of its registry
put in (`Draft.Spells`). What happens to a draft happens to its sketch: edits and
requests are decided by spans and paths, and a name, once given, stays
(`Spells.overwrite`, `Spells.appendRight`, `Spells.addFile`, `Spells.addDirectory`).
-/

namespace ModuleAssets

/-- The name of an asset, as far as it has one. -/
def Registry.called (r : Registry) (path : String) : String :=
  (r.nameOf? path).getD ""

namespace Registry

variable {r r' : Registry} {path : String}

theorem isSome_of_continues (h : r.Continues r') (hpath : (r.nameOf? path).isSome) :
    (r'.nameOf? path).isSome := by
  obtain ⟨name, hname⟩ := Option.isSome_iff_exists.1 hpath
  exact Option.isSome_iff_exists.2 ⟨name, h.kept hname⟩

/-- A name, once given, stays. -/
theorem called_of_continues (h : r.Continues r') (hpath : (r.nameOf? path).isSome) :
    r'.called path = r.called path := by
  obtain ⟨name, hname⟩ := Option.isSome_iff_exists.1 hpath
  rw [called, called, hname, h.kept hname]

theorem called_of_register {preferred name : String}
    (h : r.register path preferred = (r', name)) : r'.called path = name := by
  have hname := nameOf?_register_self r path preferred
  rw [h] at hname
  rw [called, hname, Option.getD_some]

end Registry

/-! ## Texts -/

/-- A part of a text that is written. -/
inductive Word where
  /-- It reads the same whatever names assets have. -/
  | plain (text : String)
  /-- The expression for the asset of a path. -/
  | reference (path : String)
deriving DecidableEq

/-- A text that speaks of assets by their paths. -/
abbrev Wording := List Word

namespace Wording

/-- The text, once assets have names. -/
def spelled (n : Naming) (name : String → String) : Wording → String
  | [] => ""
  | .plain text :: rest => text ++ spelled n name rest
  | .reference path :: rest => n.reference (name path) ++ spelled n name rest

/-- The assets that the text speaks of. -/
def paths : Wording → List String
  | [] => []
  | .plain _ :: rest => paths rest
  | .reference path :: rest => path :: paths rest

/-- The text is the wording with the names of a registry, which has them all. -/
structure Spells (n : Naming) (r : Registry) (t : Wording) (text : String) : Prop where
  text_eq : text = t.spelled n r.called
  named : ∀ path ∈ t.paths, (r.nameOf? path).isSome

section

variable {n : Naming} {r r' : Registry} {name name' : String → String} {t t' : Wording}
  {text text' path : String}

theorem spelled_append (t t' : Wording) :
    spelled n name (t ++ t') = spelled n name t ++ spelled n name t' := by
  induction t with
  | nil => exact String.empty_append.symm
  | cons word rest ih => cases word <;> rw [List.cons_append, spelled, spelled, ih, String.append_assoc]

theorem paths_append (t t' : Wording) : paths (t ++ t') = paths t ++ paths t' := by
  induction t with
  | nil => rfl
  | cons word rest ih =>
    cases word with
    | plain text => rw [List.cons_append, paths, paths, ih]
    | reference path => rw [List.cons_append, paths, paths, ih, List.cons_append]

/-- A text depends on the names of the assets that it speaks of only. -/
theorem spelled_congr (h : ∀ path ∈ t.paths, name path = name' path) :
    t.spelled n name = t.spelled n name' := by
  induction t with
  | nil => rfl
  | cons word rest ih =>
    cases word with
    | plain text => rw [spelled, spelled, ih h]
    | reference path =>
      rw [spelled, spelled, h path List.mem_cons_self, ih fun p hp => h p (List.mem_cons_of_mem _ hp)]

theorem spells_plain (text : String) : Spells n r [.plain text] text :=
  ⟨String.append_empty.symm, fun _ => nofun⟩

theorem spells_reference (h : r.nameOf? path = some text) :
    Spells n r [.reference path] (n.reference text) := by
  refine ⟨?_, fun p hp => ?_⟩
  · rw [spelled, spelled, String.append_empty, Registry.called, h, Option.getD_some]
  · rw [List.mem_singleton.1 hp, h, Option.isSome_some]

theorem Spells.append (h : Spells n r t text) (h' : Spells n r t' text') :
    Spells n r (t ++ t') (text ++ text') := by
  refine ⟨by rw [h.text_eq, h'.text_eq, spelled_append], fun path hpath => ?_⟩
  rw [paths_append] at hpath
  obtain hpath | hpath := List.mem_append.1 hpath
  · exact h.named path hpath
  · exact h'.named path hpath

theorem Spells.continues (h : Spells n r t text) (hr : r.Continues r') : Spells n r' t text := by
  refine ⟨h.text_eq.trans (spelled_congr fun path hpath => ?_), fun path hpath => ?_⟩
  · exact (Registry.called_of_continues hr (h.named path hpath)).symm
  · exact Registry.isSome_of_continues hr (h.named path hpath)

end

end Wording

/-! ## Needs -/

/-- Something to be copied, whatever its name. -/
inductive Need where
  | file (source : String)
  | directory (source : String)
  | sharedLibraries (packageBase : String)
deriving DecidableEq

namespace Need

/-- The task, once assets have names. -/
def task (name : String → String) : Need → AssetTask
  | file source => .file source (name source)
  | directory source => .directory source (name source)
  | sharedLibraries packageBase => .sharedLibraries packageBase

/-- The path that needs a name. -/
def paths : Need → List String
  | file source | directory source => [source]
  | sharedLibraries _ => []

variable {name name' : String → String} {need need' : Need}

/-- Names do not tell tasks apart that are one without them. -/
theorem task_inj : need.task name = need'.task name ↔ need = need' := by
  refine ⟨fun h => ?_, fun h => h ▸ rfl⟩
  cases need <;> cases need' <;> cases h <;> rfl

theorem task_congr (h : ∀ path ∈ need.paths, name path = name' path) :
    need.task name = need.task name' := by
  cases need with
  | file source => rw [task, task, h source List.mem_cons_self]
  | directory source => rw [task, task, h source List.mem_cons_self]
  | sharedLibraries packageBase => rfl

end Need

/-! ## Sketches -/

/-- A wording in the place of a span. -/
structure Replacing where
  span : Span
  wording : Wording
deriving DecidableEq

/-- A wording at a position, with its rank among those of the position. -/
structure Adding where
  position : Nat
  wording : Wording
  rank : Nat
deriving DecidableEq

/-- A draft that speaks of assets by their paths. -/
structure Sketch where
  length : Nat
  overwrites : List Replacing
  insertions : List Adding
  needs : List Need
  skipped : List PatchError
deriving DecidableEq

namespace Sketch

/-- The edits, once assets have names. -/
def patch (k : Sketch) (n : Naming) (name : String → String) : Patch where
  length := k.length
  overwrites := k.overwrites.map fun o => ⟨o.span, o.wording.spelled n name⟩
  insertions := k.insertions.map fun i => ⟨i.position, i.wording.spelled n name, i.rank⟩

/-- The tasks, once assets have names. -/
def tasks (k : Sketch) (name : String → String) : List AssetTask :=
  k.needs.map (·.task name)

/-- The asset is spoken of or needed. -/
inductive Mentions (k : Sketch) (path : String) : Prop
  | overwrite {o : Replacing} (ho : o ∈ k.overwrites) (hpath : path ∈ o.wording.paths)
  | insertion {i : Adding} (hi : i ∈ k.insertions) (hpath : path ∈ i.wording.paths)
  | need {need : Need} (hneed : need ∈ k.needs) (hpath : path ∈ need.paths)

/-! ### What happens to a sketch -/

/-- No edits and no needs yet. -/
def start (source : String) : Sketch :=
  ⟨Text.byteLength source.toList, [], [], [], []⟩

/-- An edit is left out. -/
def skip (k : Sketch) (refusal : PatchError) : Sketch :=
  { k with skipped := k.skipped ++ [refusal] }

/-- Why an overwrite of `span` is refused, if it is. -/
def refusal? (k : Sketch) (span : Span) : Option PatchError :=
  if k.length < span.stop ∨ span.stop < span.start then
    some (.outOfBounds span.start span.stop k.length)
  else if span.isEmpty then
    some (.emptySpan span.start)
  else
    k.overwrites.findSome? (Patch.conflict? span ·.span)

/-- Puts a wording in the place of `span`. -/
def overwrite (k : Sketch) (span : Span) (t : Wording) : Sketch :=
  match k.refusal? span with
  | some refusal => k.skip refusal
  | none =>
    { k with
      overwrites := k.overwrites.filter (!span.containsSpan ·.span) ++ [⟨span, t⟩]
      insertions := k.insertions.filter (!span.containsInner ·.position) }

/-- Puts a wording in at `position`. -/
def appendRight (k : Sketch) (position : Nat) (t : Wording) : Sketch :=
  if k.length < position then
    k.skip (.outOfBounds position position k.length)
  else
    match k.overwrites.find? (·.span.containsInner position) with
    | some o => k.skip (.insideEdit (Span.empty position) o.span)
    | none => { k with insertions := k.insertions ++ [⟨position, t, k.insertions.length⟩] }

/-- One more need, unless it is there. -/
def addNeed (k : Sketch) (need : Need) : Sketch :=
  if need ∈ k.needs then k else { k with needs := k.needs ++ [need] }

/-- A file is needed, and the shared libraries of its package with an addon. -/
def addFile (k : Sketch) (n : Naming) (path : String) : Sketch :=
  let k :=
    match n.packageBase with
    | some base => if Text.endsWith path ".node" then k.addNeed (.sharedLibraries base) else k
    | none => k
  k.addNeed (.file path)

/-- A directory is needed. -/
def addDirectory (k : Sketch) (path : String) : Sketch :=
  k.addNeed (.directory path)

variable {k : Sketch} {n : Naming} {name name' : String → String}

theorem patch_congr (h : ∀ path, k.Mentions path → name path = name' path) :
    k.patch n name = k.patch n name' := by
  rw [patch, patch, Patch.mk.injEq]
  refine ⟨rfl, List.map_congr_left fun o ho => ?_, List.map_congr_left fun i hi => ?_⟩
  · rw [Wording.spelled_congr fun path hpath => h path (.overwrite ho hpath)]
  · rw [Wording.spelled_congr fun path hpath => h path (.insertion hi hpath)]

theorem tasks_congr (h : ∀ path, k.Mentions path → name path = name' path) :
    k.tasks name = k.tasks name' :=
  List.map_congr_left fun _ hneed => Need.task_congr fun path hpath => h path (.need hneed hpath)

end Sketch

/-! ## Drafts that spell a sketch -/

namespace Draft

/-- The draft is the sketch with the names of its registry, which has them all. -/
structure Spells (n : Naming) (k : Sketch) (d : Draft) : Prop where
  patch : d.patch = k.patch n d.plan.registry.called
  tasks : d.plan.tasks = k.tasks d.plan.registry.called
  skipped : d.skipped = k.skipped
  named : ∀ path, k.Mentions path → (d.plan.registry.nameOf? path).isSome

namespace Spells

variable {n : Naming} {k : Sketch} {d : Draft}

theorem start (n : Naming) (source : String) (registry : Registry) :
    Spells n (.start source) (.start source registry) := by
  refine ⟨rfl, rfl, rfl, fun path hpath => ?_⟩
  cases hpath with
  | overwrite ho _ => cases ho
  | insertion hi _ => cases hi
  | need hneed _ => cases hneed

theorem skip (h : d.Spells n k) (refusal : PatchError) : (d.skip refusal).Spells n (k.skip refusal) := by
  refine ⟨h.patch, h.tasks, congrArg (· ++ [refusal]) h.skipped, fun path hpath => h.named path ?_⟩
  cases hpath with
  | overwrite ho hpath => exact .overwrite ho hpath
  | insertion hi hpath => exact .insertion hi hpath
  | need hneed hpath => exact .need hneed hpath

/-! ### Edits -/

/-- **Whether an overwrite is refused is no matter of names.** -/
theorem patch_overwrite (h : d.Spells n k) (span : Span) (text : String) :
    d.patch.overwrite span text =
      match k.refusal? span with
      | some refusal => .error refusal
      | none => .ok { d.patch with
          overwrites := d.patch.overwrites.filter (!span.containsSpan ·.span) ++ [⟨span, text⟩]
          insertions := d.patch.insertions.filter (!span.containsInner ·.position) } := by
  have hconflict : d.patch.overwrites.findSome? (Patch.conflict? span ·.span) =
      k.overwrites.findSome? (Patch.conflict? span ·.span) := by
    rw [h.patch, Sketch.patch, List.findSome?_map]
    rfl
  have hlength : k.length = d.patch.length := by
    rw [h.patch]
    rfl
  rw [Patch.overwrite, hconflict, Sketch.refusal?, hlength]
  split
  · rfl
  · split
    · rfl
    · rfl

/-- An overwrite that is not refused. -/
theorem replace (h : d.Spells n k) {span : Span} (hspan : k.refusal? span = none) {t : Wording}
    {text : String} (ht : t.Spells n d.plan.registry text) :
    Spells n (k.overwrite span t) { d with patch := { d.patch with
      overwrites := d.patch.overwrites.filter (!span.containsSpan ·.span) ++ [⟨span, text⟩]
      insertions := d.patch.insertions.filter (!span.containsInner ·.position) } } := by
  rw [Sketch.overwrite, hspan]
  refine ⟨?_, h.tasks, h.skipped, fun path hpath => ?_⟩
  · rw [h.patch, ht.text_eq, Sketch.patch, Sketch.patch]
    simp only [List.filter_map, List.map_append, List.map_cons, List.map_nil]
    rfl
  · cases hpath with
    | overwrite ho hpath =>
      obtain hold | hnew := List.mem_append.1 ho
      · exact h.named path (.overwrite (List.mem_filter.1 hold).1 hpath)
      · obtain rfl := List.mem_singleton.1 hnew
        exact ht.named path hpath
    | insertion hi hpath => exact h.named path (.insertion (List.mem_filter.1 hi).1 hpath)
    | need hneed hpath => exact h.named path (.need hneed hpath)

theorem overwrite (h : d.Spells n k) (span : Span) {t : Wording} {text : String}
    (ht : t.Spells n d.plan.registry text) :
    (d.overwrite span text).Spells n (k.overwrite span t) := by
  have hpatch := h.patch_overwrite span text
  rw [Draft.overwrite]
  cases hspan : k.refusal? span with
  | some refusal =>
    rw [hspan] at hpatch
    rw [hpatch, Sketch.overwrite, hspan]
    exact h.skip refusal
  | none =>
    rw [hspan] at hpatch
    rw [hpatch]
    exact h.replace hspan ht

theorem appendRight (h : d.Spells n k) (position : Nat) {t : Wording} {text : String}
    (ht : t.Spells n d.plan.registry text) :
    (d.appendRight position text).Spells n (k.appendRight position t) := by
  have hskip {refusal : PatchError} (hpatch : d.patch.appendRight position text = .error refusal) :
      (d.appendRight position text).Spells n (k.skip refusal) := by
    rw [Draft.appendRight, hpatch]
    exact h.skip refusal
  unfold Sketch.appendRight
  split
  · rename_i hout
    exact hskip (by rw [Patch.appendRight, h.patch]; exact if_pos hout)
  rename_i hout
  have hpatch : d.patch.appendRight position text =
      match k.overwrites.find? (·.span.containsInner position) with
      | some o => .error (.insideEdit (Span.empty position) o.span)
      | none => .ok { d.patch with
          insertions := d.patch.insertions ++ [⟨position, text, k.insertions.length⟩] } := by
    rw [Patch.appendRight, h.patch]
    refine (if_neg hout).trans ?_
    rw [Sketch.patch, List.find?_map, List.length_map, Function.comp_def]
    dsimp only
    cases k.overwrites.find? (·.span.containsInner position) with
    | none => rfl
    | some o => rfl
  split
  · rename_i hfound
    rw [hfound] at hpatch
    exact hskip hpatch
  · rename_i hfound
    rw [hfound] at hpatch
    rw [Draft.appendRight, hpatch]
    refine ⟨?_, h.tasks, h.skipped, fun path hpath => ?_⟩
    · rw [h.patch, ht.text_eq, Sketch.patch, Sketch.patch]
      simp only [List.map_append, List.map_cons, List.map_nil]
    · cases hpath with
      | overwrite ho hpath => exact h.named path (.overwrite ho hpath)
      | insertion hi hpath =>
        obtain hold | hnew := List.mem_append.1 hi
        · exact h.named path (.insertion hold hpath)
        · obtain rfl := List.mem_singleton.1 hnew
          exact ht.named path hpath
      | need hneed hpath => exact h.named path (.need hneed hpath)

/-! ### Requests -/

/-- More names make no difference. -/
theorem continues (h : d.Spells n k) {r : Registry} (hr : d.plan.registry.Continues r) :
    Spells n k { d with plan := { d.plan with registry := r } } := by
  have hcalled (path : String) (hpath : k.Mentions path) :
      d.plan.registry.called path = r.called path :=
    (Registry.called_of_continues hr (h.named path hpath)).symm
  exact ⟨h.patch.trans (Sketch.patch_congr hcalled), h.tasks.trans (Sketch.tasks_congr hcalled),
    h.skipped, fun path hpath => Registry.isSome_of_continues hr (h.named path hpath)⟩

/-- Whether a task is there already is no matter of names. -/
theorem addNeed (h : d.Spells n k) (need : Need)
    (hneed : ∀ path ∈ need.paths, (d.plan.registry.nameOf? path).isSome) :
    Spells n (k.addNeed need)
      { d with plan := d.plan.addTask (need.task d.plan.registry.called) } := by
  have hmem : need.task d.plan.registry.called ∈ d.plan.tasks ↔ need ∈ k.needs := by
    rw [h.tasks, Sketch.tasks, List.mem_map]
    exact ⟨fun ⟨other, hother, heq⟩ => Need.task_inj.1 heq ▸ hother, fun hin => ⟨need, hin, rfl⟩⟩
  unfold Sketch.addNeed Plan.addTask
  split
  · rename_i hin
    rw [if_pos (hmem.2 hin)]
    exact h
  · rename_i hin
    rw [if_neg fun htask => hin (hmem.1 htask)]
    refine ⟨h.patch, ?_, h.skipped, fun path hpath => ?_⟩
    · rw [Sketch.tasks, List.map_append]
      exact congrArg (· ++ [need.task d.plan.registry.called]) h.tasks
    · cases hpath with
      | overwrite ho hpath => exact h.named path (.overwrite ho hpath)
      | insertion hi hpath => exact h.named path (.insertion hi hpath)
      | need hin hpath =>
        obtain hold | hnew := List.mem_append.1 hin
        · exact h.named path (.need hold hpath)
        · obtain rfl := List.mem_singleton.1 hnew
          exact hneed path hpath

/-- An asset gets a name, and a task for it. -/
theorem register (h : d.Spells n k) (path preferred : String) (need : Need)
    (hpaths : need.paths = [path]) {registry : Registry} {name : String}
    (hregister : d.plan.registry.register path preferred = (registry, name)) :
    Spells n (k.addNeed need)
        { d with plan := Plan.addTask ⟨registry, d.plan.tasks⟩ (need.task registry.called) } ∧
      Wording.Spells n registry [.reference path] (n.reference name) := by
  obtain rfl := congrArg Prod.fst hregister
  obtain rfl := congrArg Prod.snd hregister
  have hname := Registry.nameOf?_register_self d.plan.registry path preferred
  refine ⟨(h.continues (.register d.plan.registry path preferred)).addNeed need fun p hp => ?_,
    Wording.spells_reference hname⟩
  rw [hpaths, List.mem_singleton] at hp
  rw [hp]
  exact Option.isSome_iff_exists.2 ⟨_, hname⟩

/-- **What asking for a file does and answers is no matter of names.** -/
theorem addFile (h : d.Spells n k) (path : String) :
    (d.addFile n path).1.Spells n (k.addFile n path) ∧
      Wording.Spells n (d.addFile n path).1.plan.registry [.reference path] (d.addFile n path).2 := by
  unfold Draft.addFile Plan.addFile Sketch.addFile
  cases hregister : d.plan.registry.register path (n.preferred path) with
  | mk registry name =>
    have hname := Registry.called_of_register hregister
    have hfile {d' : Draft} {k' : Sketch} (h' : d'.Spells n k')
        (hsame : d'.plan.registry = d.plan.registry) :
        Spells n (k'.addNeed (.file path))
            { d' with plan := Plan.addTask ⟨registry, d'.plan.tasks⟩ (.file path name) } ∧
          Wording.Spells n registry [.reference path] (n.reference name) := by
      rw [← hname]
      exact h'.register path (n.preferred path) (.file path) rfl
        (by rw [hsame, hregister, hname])
    cases n.packageBase with
    | none =>
      simp only [hregister, Plan.registry_addTask]
      exact hfile h rfl
    | some base =>
      dsimp only
      split
      · simp only [Plan.addSharedLibraries, Plan.registry_addTask, hregister]
        exact hfile (h.addNeed (.sharedLibraries base) nofun) (Plan.registry_addTask _ _)
      · simp only [hregister, Plan.registry_addTask]
        exact hfile h rfl

theorem addDirectory (h : d.Spells n k) (path : String) :
    (d.addDirectory n path).1.Spells n (k.addDirectory path) ∧
      Wording.Spells n (d.addDirectory n path).1.plan.registry [.reference path]
        (d.addDirectory n path).2 := by
  unfold Draft.addDirectory Plan.addDirectory Sketch.addDirectory
  cases hregister : d.plan.registry.register path (Path.basename path none) with
  | mk registry name =>
    have hname := Registry.called_of_register hregister
    simp only [Plan.registry_addTask]
    rw [← hname]
    exact h.register path _ (.directory path) rfl (by rw [hregister, hname])

end Spells

end Draft

end ModuleAssets
