import ModuleAssets.Environment
import Mathlib.Logic.Function.Iterate
/-!
# Environments — the layers of one name

Every operation on an environment changes the layers of some names, each by
itself. `layers_write` to `layers_leave` say how, and later proofs look at
environments through `layers` only. The last section follows the layers of a
name through a scope: whatever is written inside, leaving it gives the layers
back that were there before.
-/

namespace ModuleAssets

namespace Environment

/-- Names are changed one by one. -/
theorem layers_modify (env : Environment) (name : String) (change : List Layer → List Layer)
    (n : String) :
    (env.modify name change).layers n = if n = name then change (env.layers n) else env.layers n := by
  simp only [layers, modify]
  induction env.entries with
  | nil =>
    rw [modifyEntries]
    cases hnew : change [] with
    | nil => split <;> simp [hnew]
    | cons top below =>
      by_cases h : name = n
      · simp [h, hnew]
      · simp [h, Ne.symm h]
  | cons entry rest ih =>
    obtain ⟨k, ls⟩ := entry
    rw [modifyEntries]
    by_cases hk : k = name
    · subst hk
      by_cases h : k = n
      · simp [h]
      · simp [h, Ne.symm h]
    · rw [if_neg hk]
      by_cases h : k = n
      · subst h
        simp [hk]
      · simpa [h] using ih

/-- A change of several names changes a name as often as it is listed. -/
theorem layers_foldl_modify (change : List Layer → List Layer) (names : List String)
    (env : Environment) (n : String) :
    (names.foldl (fun env name => env.modify name change) env).layers n =
      change^[names.count n] (env.layers n) := by
  induction names generalizing env with
  | nil => rfl
  | cons name names ih =>
    rw [List.foldl_cons, ih, layers_modify]
    by_cases h : n = name
    · rw [if_pos h, ← h, List.count_cons_self, Function.iterate_succ_apply]
    · rw [if_neg h, List.count_cons_of_ne (Ne.symm h)]

theorem layers_write {env : Environment} {name : String} (hname : name ≠ loaderName)
    (value : Option Value) (n : String) :
    (env.write name value).layers n =
      if n = name then Layer.write value (env.layers n) else env.layers n := by
  rw [write, if_neg hname, layers_modify]

/-- The loader is never written to. -/
theorem write_loaderName (env : Environment) (value : Option Value) :
    env.write loaderName value = env := if_pos rfl

theorem layers_installLoader (env : Environment) (n : String) :
    env.installLoader.layers n =
      if n = loaderName then [⟨0, some (.builtin .require)⟩] else env.layers n :=
  layers_modify _ _ _ n

theorem layers_enter (env : Environment) (scope : Syntax.Scope) (n : String) :
    (env.enter scope).layers n = Layer.cover^[scope.names.count n] (env.layers n) :=
  layers_foldl_modify _ _ _ n

theorem layers_leave (env : Environment) (scope : Syntax.Scope) (n : String) :
    (env.leave scope).layers n = Layer.uncover^[scope.names.count n] (env.layers n) :=
  layers_foldl_modify _ _ _ n

end Environment

/-! ## Through a scope and back -/

namespace Layer

/-- The later value counts. -/
theorem write_write (v w : Option Value) (ls : List Layer) :
    write v (write w ls) = write v ls := by
  cases ls with
  | nil => rfl
  | cons top below =>
    by_cases h : 0 < top.depth <;> simp [write, h]

theorem uncover_cover : Function.LeftInverse uncover cover := by
  intro ls
  cases ls <;> simp [cover, uncover]

/-- What was written inside a scope is gone when it is left. -/
theorem uncover_write_cover (v : Option Value) (ls : List Layer) :
    uncover (write v (cover ls)) = ls := by
  cases ls <;> simp [cover, write, uncover]

/-- Layers that may have been written to since they were `base`. -/
def Touched (base ls : List Layer) : Prop :=
  ls = base ∨ ∃ v, ls = write v base

theorem Touched.refl (base : List Layer) : Touched base base := .inl rfl

theorem Touched.write {base ls : List Layer} (h : Touched base ls) (v : Option Value) :
    Touched base (Layer.write v ls) := by
  rcases h with rfl | ⟨w, rfl⟩
  · exact .inr ⟨v, rfl⟩
  · exact .inr ⟨v, write_write v w base⟩

theorem Touched.trans {base mid ls : List Layer} (h : Touched base mid) (h' : Touched mid ls) :
    Touched base ls := by
  rcases h' with rfl | ⟨v, rfl⟩
  · exact h
  · exact h.write v

/-- **Leaving gives back what was there.** Inside a scope that declares a name
`k + 1` times, whatever was written on top of the covered layers is dropped. -/
theorem Touched.uncover {base ls : List Layer} {k : Nat} (h : Touched (cover^[k + 1] base) ls) :
    uncover^[k + 1] ls = base := by
  rw [Function.iterate_succ_apply'] at h
  rw [Function.iterate_succ_apply]
  rcases h with rfl | ⟨v, rfl⟩
  · rw [uncover_cover, uncover_cover.iterate k]
  · rw [uncover_write_cover, uncover_cover.iterate k]

end Layer

end ModuleAssets
