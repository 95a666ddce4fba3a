import ModuleAssets.Proofs.Asset.Names
import ModuleAssets.Proofs.Relocation.Analysis
/-!
# Plans — the tasks of a module have the names of their assets

Names are only ever added to a registry. So a task that was planned with the
name its asset had then is, at any later time, a task with the name its asset
has.
-/

namespace ModuleAssets

/-! ## Registries over time -/

namespace Registry

/-- The second registry comes from the first by giving names, and by what does
not concern names. -/
structure Continues (r r' : Registry) : Prop where
  kept : ∀ {path name}, r.nameOf? path = some name → r'.nameOf? path = some name
  consistent : ∀ {seeds paths}, Consistent seeds paths r → ∃ paths', Consistent seeds paths' r'

/-- Names do not concern links. -/
theorem symlinks_register (r : Registry) (path preferred : String) :
    (r.register path preferred).1.symlinks = r.symlinks := by
  rw [register]
  split
  · rfl
  · rfl

namespace Continues

variable {r r' r'' : Registry}

theorem refl (r : Registry) : Continues r r :=
  ⟨fun h => h, fun h => ⟨_, h⟩⟩

theorem trans (h : Continues r r') (h' : Continues r' r'') : Continues r r'' := by
  refine ⟨fun hname => h'.kept (h.kept hname), fun hr => ?_⟩
  obtain ⟨paths, hr'⟩ := h.consistent hr
  exact h'.consistent hr'

theorem register (r : Registry) (path preferred : String) :
    Continues r (r.register path preferred).1 :=
  ⟨fun h => nameOf?_register h path preferred, fun h => ⟨_, h.register path preferred⟩⟩

/-- What is known of files and links does not concern names. -/
theorem of_eq (hgiven : r'.given = r.given) (hnames : r'.names = r.names) : Continues r r' := by
  obtain ⟨given, names, _, _⟩ := r
  obtain ⟨_, _, _, _⟩ := r'
  subst hgiven hnames
  exact ⟨fun h => h, fun h => ⟨_, h.nodup, h.inverse, h.seeded, h.ordered⟩⟩

theorem recordPermissions (r : Registry) (name : String) (mode : Nat) :
    Continues r (r.recordPermissions name mode) :=
  of_eq rfl rfl

theorem recordSymlink (r : Registry) (name target : String) :
    Continues r (r.recordSymlink name target) :=
  of_eq rfl rfl

end Continues

end Registry

/-! ## Plans -/

/-- The task has the name of its asset. -/
def AssetTask.IsNamed (r : Registry) : AssetTask → Prop
  | .file source name => r.nameOf? source = some name
  | .directory source name => r.nameOf? source = some name
  | .sharedLibraries _ => True

theorem AssetTask.IsNamed.mono {r r' : Registry} (h : r.Continues r') {task : AssetTask}
    (htask : task.IsNamed r) : task.IsNamed r' := by
  cases task with
  | file source name => exact h.kept htask
  | directory source name => exact h.kept htask
  | sharedLibraries base => trivial

namespace Plan

/-- All tasks of a plan have the names of their assets. -/
def IsNamed (p : Plan) : Prop :=
  ∀ task ∈ p.tasks, task.IsNamed p.registry

/-- The registry goes on, and tasks keep having the names of their assets. -/
structure Advances (p p' : Plan) : Prop where
  registry : p.registry.Continues p'.registry
  symlinks : p'.registry.symlinks = p.registry.symlinks
  isNamed : p.IsNamed → p'.IsNamed

namespace Advances

variable {p p' p'' : Plan}

theorem refl (p : Plan) : Advances p p :=
  ⟨.refl _, rfl, fun h => h⟩

theorem trans (h : Advances p p') (h' : Advances p' p'') : Advances p p'' :=
  ⟨h.registry.trans h'.registry, h'.symlinks.trans h.symlinks, fun hp => h'.isNamed (h.isNamed hp)⟩

theorem addTask (task : AssetTask) (htask : task.IsNamed p.registry) :
    Advances p (p.addTask task) := by
  rw [Plan.addTask]
  split
  · exact refl p
  · refine ⟨.refl _, rfl, fun h t ht => ?_⟩
    obtain ht | ht := List.mem_append.1 ht
    · exact h t ht
    · exact List.mem_singleton.1 ht ▸ htask

theorem register (p : Plan) (path preferred : String) :
    Advances p { p with registry := (p.registry.register path preferred).1 } :=
  ⟨.register _ path preferred, Registry.symlinks_register _ path preferred, fun h task htask =>
    (h task htask).mono (.register p.registry path preferred)⟩

theorem addFile (p : Plan) (n : Naming) (path : String) : Advances p (p.addFile n path).1 := by
  have hnamed (p : Plan) : Advances p
      (Plan.addTask { p with registry := (p.registry.register path (n.preferred path)).1 }
        (.file path (p.registry.register path (n.preferred path)).2)) :=
    (register p path _).trans (addTask _ (Registry.nameOf?_register_self p.registry path _))
  unfold Plan.addFile
  dsimp only
  split
  · split
    · exact (addTask (p := p) (.sharedLibraries _) trivial).trans (hnamed _)
    · exact hnamed p
  · exact hnamed p

theorem addDirectory (p : Plan) (n : Naming) (path : String) :
    Advances p (p.addDirectory n path).1 :=
  (register p path _).trans (addTask _ (Registry.nameOf?_register_self p.registry path _))

end Advances

end Plan

theorem Draft.Grows.advances {d d' : Draft} (h : d.Grows d') : d.plan.Advances d'.plan := by
  induction h with
  | refl => exact .refl d.plan
  | overwrite _ _ _ ih => rwa [plan_overwrite]
  | appendRight _ _ _ ih => rwa [plan_appendRight]
  | addFile _ n path ih => exact ih.trans (.addFile _ n path)
  | addDirectory _ n path ih => exact ih.trans (.addDirectory _ n path)

/-- **The tasks of an analysis have the names of their assets**, and the
registry goes on with the same links. -/
theorem Build.isNamed_analyze {b : Build} (h : b.specialCases ⊆ SpecialCase.all)
    {files : FileTree} {r r' : Registry} {id source : String} {a : Analysis}
    (ha : b.analyze files r id source = .ok (r', a)) :
    r.Continues r' ∧ r'.symlinks = r.symlinks ∧ ∀ task ∈ a.tasks, task.IsNamed r' := by
  obtain ⟨draft, hgrows, rfl, rfl⟩ := grows_analyze h ha
  have hadvances := hgrows.advances
  exact ⟨hadvances.registry, hadvances.symlinks, hadvances.isNamed fun _ => nofun⟩

end ModuleAssets
