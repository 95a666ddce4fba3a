import ModuleAssets.Proofs.Asset.Names
import ModuleAssets.Proofs.Relocation.Spelling
/-!
# Requests — which names an analysis asks for

The tasks of an analysis tell which names it asked its registry for (`Draft.Asks`), and its
tasks are the same for all registries that have the same names (`Draft.Spells`). So it asks
them all for the same names, and does not read their tables (`Build.analyze_of_sameNames`).
-/

namespace ModuleAssets

open Syntax

/-! ## Registries with the same names -/

namespace Registry

/-- The two give the same names, whatever their tables are. -/
structure SameNames (r r' : Registry) : Prop where
  given : r.given = r'.given
  names : r.names = r'.names

namespace SameNames

variable {r r' : Registry}

theorem nameOf? (h : r.SameNames r') (path : String) : r.nameOf? path = r'.nameOf? path := by
  rw [Registry.nameOf?, Registry.nameOf?, h.given]

theorem called (h : r.SameNames r') : r.called = r'.called := by
  funext path
  rw [Registry.called, Registry.called, h.nameOf?]

theorem assign (h : r.SameNames r') (path name : String) :
    (r.assign path name).SameNames (r'.assign path name) :=
  ⟨congrArg (Json.setMember · path name) h.given,
    congrArg (Json.setMember · name (some path)) h.names⟩

theorem openName (h : r.SameNames r') (path preferred : String) :
    r.openName path preferred = r'.openName path preferred := by
  have hopen (name : String) : r.isOpenTo path name = r'.isOpenTo path name := by
    rw [isOpenTo, isOpenTo, owner?, owner?, h.names]
  have hfirst (tries number : Nat) :
      r.firstOpen path preferred tries number = r'.firstOpen path preferred tries number := by
    induction tries generalizing number with
    | zero => rfl
    | succ tries ih => rw [firstOpen, firstOpen, hopen, ih]
  rw [Registry.openName, Registry.openName, hopen, hfirst, h.names]

/-- **One more name.** -/
theorem register (h : r.SameNames r') (path preferred : String) :
    (r.register path preferred).2 = (r'.register path preferred).2 ∧
      (r.register path preferred).1.SameNames (r'.register path preferred).1 := by
  have hname := h.nameOf? path
  cases hpath : r'.nameOf? path with
  | some name =>
    rw [register_of_eq_some (hname.trans hpath), register_of_eq_some hpath]
    exact ⟨rfl, h⟩
  | none =>
    rw [register_of_eq_none (hname.trans hpath), register_of_eq_none hpath]
    exact ⟨h.openName path preferred, h.openName path preferred ▸ h.assign path _⟩

theorem registerAll (h : r.SameNames r') (calls : List (String × String)) :
    (r.registerAll calls).SameNames (r'.registerAll calls) := by
  induction calls generalizing r r' with
  | nil => exact h
  | cons c calls ih => exact ih (h.register c.1 c.2).2

end SameNames

theorem registerAll_append (r : Registry) (calls more : List (String × String)) :
    r.registerAll (calls ++ more) = (r.registerAll calls).registerAll more :=
  List.foldl_append

/-- A path that was asked for has a name. -/
theorem isSome_nameOf?_registerAll {r : Registry} {c : String × String}
    {calls : List (String × String)} (hc : c ∈ calls) :
    ((r.registerAll calls).nameOf? c.1).isSome := by
  obtain ⟨before, after, rfl⟩ := List.append_of_mem hc
  rw [registerAll_append, registerAll_cons]
  have hname := nameOf?_register_self (r.registerAll before) c.1 c.2
  rw [nameOf?_registerAll hname after]
  rfl

end Registry

/-! ## What tasks ask for -/

/-- The name that a task asks for: of which path, and which would be best. -/
def AssetTask.request? (n : Naming) : AssetTask → Option (String × String)
  | .file source _ => some (source, n.preferred source)
  | .directory source _ => some (source, Path.basename source none)
  | .sharedLibraries _ => none

/-- What tasks ask for, in order. -/
def requests (n : Naming) (tasks : List AssetTask) : List (String × String) :=
  tasks.filterMap (·.request? n)

/-- The names of its own tasks do not matter to what a sketch asks for. -/
theorem Sketch.requests_tasks (k : Sketch) (n : Naming) (name name' : String → String) :
    requests n (k.tasks name) = requests n (k.tasks name') := by
  have hneed (need : Need) : (need.task name).request? n = (need.task name').request? n := by
    cases need <;> rfl
  rw [requests, requests, tasks, tasks, List.filterMap_map, List.filterMap_map]
  exact congrArg (List.filterMap · k.needs) (funext hneed)

/-- The plan has the names of a registry and those that its tasks ask for. -/
def Plan.Asks (n : Naming) (r : Registry) (p : Plan) : Prop :=
  p.registry = r.registerAll (requests n p.tasks)

namespace Plan.Asks

variable {n : Naming} {r : Registry} {p : Plan}

/-- A task that asks for nothing. -/
theorem addSharedLibraries (h : p.Asks n r) (packageBase : String) :
    (p.addSharedLibraries packageBase).Asks n r := by
  unfold Plan.addSharedLibraries addTask
  split
  · exact h
  · rw [Asks, requests, List.filterMap_append]
    exact h.trans (congrArg r.registerAll (List.append_nil _).symm)

/-- **A task with the name that it asks for.** -/
theorem request (h : p.Asks n r) {task : AssetTask} {path preferred : String}
    (htask : task.request? n = some (path, preferred)) :
    (addTask { p with registry := (p.registry.register path preferred).1 } task).Asks n r := by
  unfold addTask
  dsimp only
  split
  · rename_i hmem
    -- it was asked for before, so nothing changes
    have hasked : (path, preferred) ∈ requests n p.tasks :=
      List.mem_filterMap.2 ⟨task, hmem, htask⟩
    have hnamed := Registry.isSome_nameOf?_registerAll (r := r) hasked
    rw [← show p.registry = _ from h] at hnamed
    obtain ⟨name, hname⟩ := Option.isSome_iff_exists.1 hnamed
    rw [Registry.register_of_eq_some hname]
    exact h
  · rw [Asks, requests, List.filterMap_append, Registry.registerAll_append]
    have hlast : [task].filterMap (·.request? n) = [(path, preferred)] := by
      rw [List.filterMap_cons, htask]
      rfl
    rw [hlast]
    exact congrArg (fun r => (Registry.register r path preferred).1) h

theorem addFile (h : p.Asks n r) (path : String) : (p.addFile n path).1.Asks n r := by
  unfold Plan.addFile
  dsimp only
  split
  · split
    · exact (h.addSharedLibraries _).request rfl
    · exact h.request rfl
  · exact h.request rfl

theorem addDirectory (h : p.Asks n r) (n' : Naming) (path : String) :
    (p.addDirectory n' path).1.Asks n r :=
  h.request rfl

end Plan.Asks

/-- **A walk asks for the names of its tasks.** -/
theorem Draft.Edits.asks {w : WalkSetting} {may : Walk.Writing} {r : Registry} {d d' : Draft}
    (h : d.Edits w may d') (hd : d.plan.Asks (Referent.naming w.ctx) r) :
    d'.plan.Asks (Referent.naming w.ctx) r := by
  induction h with
  | refl => exact hd
  | overwrite _ _ ih => rwa [plan_overwrite]
  | appendRight _ _ ih => rwa [plan_appendRight]
  | addFile _ _ ih => exact ih.addFile _
  | addDirectory _ _ ih => exact ih.addDirectory (Referent.naming w.ctx) _

namespace Build

variable {b : Build} {r r' : Registry}

theorem asks_prepare (hb : b.specialCases ⊆ SpecialCase.all) (files : FileTree) (r : Registry)
    (id source : String) (parsed : Parsed) (n : Naming) :
    (b.prepare files r id source parsed).2.2.plan.Asks n r :=
  keeps_prepare (P := fun d => d.plan.Asks n r)
    (fun d span text hd => by rwa [Draft.plan_overwrite])
    (fun _ n' _ path _ hd => hd.addDirectory n' path) hb files r id source parsed rfl

/-- **An analysis asks for the names of its tasks**, and gives no others. -/
theorem asks_analyze (hb : b.specialCases ⊆ SpecialCase.all) {files : FileTree}
    {id source : String} {a : Analysis} (ha : b.analyze files r id source = .ok (r', a)) :
    ∃ n, r' = r.registerAll (requests n a.tasks) := by
  obtain ⟨parsed, d, -, rfl, rfl, rfl⟩ := exists_draft_of_analyze ha
  exact ⟨_, (edits_walkProgram _ _ _).asks (asks_prepare hb files r id source parsed _)⟩

/-- **An analysis reads names and no tables.** With registries that have the same names it
gives the same names to the same assets, and does the same. -/
theorem analyze_of_sameNames (hb : b.specialCases ⊆ SpecialCase.all) (h : r.SameNames r')
    (files : FileTree) (id source : String) :
    (∃ e, b.analyze files r id source = .error e ∧ b.analyze files r' id source = .error e) ∨
      ∃ calls a, b.analyze files r id source = .ok (r.registerAll calls, a) ∧
        b.analyze files r' id source = .ok (r'.registerAll calls, a) := by
  cases hparse : parse source with
  | error e =>
    left
    refine ⟨e, ?_, ?_⟩
    · rw [analyze, hparse]
      rfl
    · rw [analyze, hparse]
      rfl
  | ok parsed =>
    right
    obtain ⟨w, program, k, hctx, hprepare⟩ := blind_prepare hb files id source parsed
    obtain ⟨k', hwalk⟩ := blind_walkProgram w program k
    let n := Referent.naming w.ctx
    let walked (r : Registry) := walkProgram w program (b.prepare files r id source parsed).2.2
    have hdraft (r : Registry) : (walked r).Spells n k' ∧ (walked r).plan.Asks n r ∧
        b.analyze files r id source = .ok ((walked r).plan.registry,
          ⟨id, source, (walked r).patch, (walked r).plan.tasks⟩) := by
      obtain ⟨d, hd, hspells⟩ := hprepare r
      have hasks := asks_prepare hb files r id source parsed n
      rw [← hctx] at hspells
      rw [analyze_eq hparse]
      dsimp only [walked]
      rw [hd] at hasks ⊢
      exact ⟨hwalk d hspells, (edits_walkProgram w program d).asks hasks, rfl⟩
    obtain ⟨hspells, hasks, hanalysis⟩ := hdraft r
    obtain ⟨hspells', hasks', hanalysis'⟩ := hdraft r'
    -- both ask for what the sketch asks for, and so get the same names
    let calls := requests n (walked r').plan.tasks
    have hcalls : requests n (walked r).plan.tasks = calls := by
      dsimp only [calls]
      rw [hspells.tasks, hspells'.tasks]
      exact k'.requests_tasks n _ _
    have hregistry : (walked r).plan.registry = r.registerAll calls := hcalls ▸ hasks
    have hregistry' : (walked r').plan.registry = r'.registerAll calls := hasks'
    have hcalled : (walked r).plan.registry.called = (walked r').plan.registry.called := by
      rw [hregistry, hregistry']
      exact (h.registerAll calls).called
    refine ⟨calls, ⟨id, source, (walked r').patch, (walked r').plan.tasks⟩, ?_, ?_⟩
    · rw [hanalysis, hspells.patch, hspells.tasks, hcalled, ← hspells'.patch, ← hspells'.tasks,
        hregistry]
    · rw [hanalysis', hregistry']

end Build

end ModuleAssets
