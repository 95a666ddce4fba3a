import ModuleAssets.Proofs.Environment.Layers
import Mathlib.Data.List.Forall2
/-!
# Environments — what is known, and what holds

An environment is used in two ways: as what is known of the names of a module,
and as the store of a run, which tells what the names hold. `Agrees` says that
what is known holds. `Changes` says which names a stretch of a walk or of a run
may have written. The two together are what loops and branches need: where none
of the names that were written is known, what is known still holds.
-/

namespace ModuleAssets

namespace Environment

/-- Every value that the first environment has for a name the second has too. -/
def KnownBy (ρ σ : Environment) : Prop :=
  ∀ name v, ρ.lookup? name = some v → σ.lookup? name = some v

/-- What the first environment knows of names holds by the second, and the two
see the loader alike. -/
structure Agrees (ρ σ : Environment) : Prop where
  value : ∀ {name v}, ρ.lookup? name = some v → σ.lookup? name = some v
  loader : σ.layers loaderName = ρ.layers loaderName

/-- Since the first environment scopes were entered and left in a nested way,
and nothing was written but the given names. -/
structure Changes (names : List String) (ρ ρ' : Environment) : Prop where
  touched : ∀ n, Layer.Touched (ρ.layers n) (ρ'.layers n)
  /-- The loader is never written to, even where it is given. -/
  kept : ∀ n, (n ∈ names → n = loaderName) → ρ'.layers n = ρ.layers n

/-- The name now holds the value, or something unknown. -/
def learn (env : Environment) (name : String) (known : Option Value) : Environment :=
  match known with
  | some v => env.define name v
  | none => env.invalidate name

/-- The names now hold the values, or something unknown. -/
def learnAll (env : Environment) (known : List (String × Option Value)) : Environment :=
  known.foldl (fun env entry => env.learn entry.1 entry.2) env

/-- Two entries for one name, of which the second knows no less. -/
def Confirms (a b : String × Option Value) : Prop :=
  b.1 = a.1 ∧ ∀ v, a.2 = some v → b.2 = some v

/-- In a run the names get some values. Where a value is known, it is this. -/
inductive Stores : List (String × Option Value) → Environment → Environment → Prop
  | nil {σ : Environment} : Stores [] σ σ
  | cons {name : String} {known held : Option Value} {rest : List (String × Option Value)}
      {σ σ' : Environment} (hheld : ∀ v, known = some v → held = some v)
      (h : Stores rest (σ.write name held) σ') : Stores ((name, known) :: rest) σ σ'

/-! ## Lookups -/

theorem lookup?_congr {ρ σ : Environment} {name : String} (h : ρ.layers name = σ.layers name) :
    ρ.lookup? name = σ.lookup? name := by
  rw [lookup?, lookup?, h]

theorem lookup?_write_self {env : Environment} {name : String} (hname : name ≠ loaderName)
    (value : Option Value) : (env.write name value).lookup? name = value := by
  have htop (ls : List Layer) : ∃ below, Layer.write value ls = ⟨0, value⟩ :: below := by
    cases ls with
    | nil => exact ⟨[], rfl⟩
    | cons top below =>
      rw [Layer.write]
      split
      · exact ⟨_, rfl⟩
      · exact ⟨_, rfl⟩
  obtain ⟨below, hbelow⟩ := htop (env.layers name)
  rw [lookup?, layers_write hname, if_pos rfl, hbelow]
  exact if_pos rfl

theorem lookup?_of_layers_eq_nil {env : Environment} {name : String} (h : env.layers name = []) :
    env.lookup? name = none := by
  rw [lookup?, h]

theorem lookup?_learn_self {env : Environment} {name : String} (hname : name ≠ loaderName)
    (known : Option Value) : (env.learn name known).lookup? name = known := by
  cases known with
  | some v => exact lookup?_write_self hname _
  | none =>
    rw [learn, invalidate]
    split
    · rename_i hempty
      exact lookup?_of_layers_eq_nil (List.isEmpty_iff.1 hempty)
    · exact lookup?_write_self hname none

/-- Inside of a scope nothing is known of its names at first. -/
theorem lookup?_enter {scope : Syntax.Scope} {name : String} (h : name ∈ scope.names)
    (env : Environment) : (env.enter scope).lookup? name = none := by
  obtain ⟨k, hk⟩ : ∃ k, scope.names.count name = k + 1 :=
    Nat.exists_eq_add_one.2 (List.count_pos_iff.2 h)
  rw [lookup?, layers_enter, hk, Function.iterate_succ_apply']
  cases Layer.cover^[k] (env.layers name) with
  | nil => rfl
  | cons top below => exact if_neg (Nat.succ_ne_zero _)

theorem layers_enter_of_not_mem {scope : Syntax.Scope} {name : String} (h : name ∉ scope.names)
    (env : Environment) : (env.enter scope).layers name = env.layers name := by
  rw [layers_enter, List.count_eq_zero.2 h, Function.iterate_zero, id]

theorem layers_leave_of_not_mem {scope : Syntax.Scope} {name : String} (h : name ∉ scope.names)
    (env : Environment) : (env.leave scope).layers name = env.layers name := by
  rw [layers_leave, List.count_eq_zero.2 h, Function.iterate_zero, id]

/-- After a scope its names have again the layers they had before. -/
theorem layers_leave_of_touched {scope : Syntax.Scope} {name : String} (h : name ∈ scope.names)
    {ρ ρ' : Environment} (htouched : Layer.Touched ((ρ.enter scope).layers name) (ρ'.layers name)) :
    (ρ'.leave scope).layers name = ρ.layers name := by
  obtain ⟨k, hk⟩ : ∃ k, scope.names.count name = k + 1 :=
    Nat.exists_eq_add_one.2 (List.count_pos_iff.2 h)
  rw [layers_enter, hk] at htouched
  rw [layers_leave, hk]
  exact htouched.uncover

/-! ## Changes -/

namespace Changes

variable {names names' : List String} {ρ ρ' ρ'' : Environment}

theorem refl (names : List String) (ρ : Environment) : Changes names ρ ρ :=
  ⟨fun _ => .refl _, fun _ _ => rfl⟩

theorem trans (h : Changes names ρ ρ') (h' : Changes names ρ' ρ'') : Changes names ρ ρ'' :=
  ⟨fun n => (h.touched n).trans (h'.touched n),
    fun n hn => (h'.kept n hn).trans (h.kept n hn)⟩

theorem mono (h : Changes names ρ ρ') (hsub : names ⊆ names') : Changes names' ρ ρ' :=
  ⟨h.touched, fun n hn => h.kept n fun hmem => hn (hsub hmem)⟩

theorem write (name : String) (value : Option Value) (ρ : Environment) :
    Changes [name] ρ (ρ.write name value) := by
  by_cases hname : name = loaderName
  · rw [hname, write_loaderName]
    exact refl _ ρ
  · refine ⟨fun n => ?_, fun n hn => ?_⟩
    · rw [layers_write hname]
      split
      · exact (Layer.Touched.refl _).write value
      · exact .refl _
    · rw [layers_write hname, if_neg]
      rintro rfl
      exact hname (hn List.mem_cons_self)

theorem learn (name : String) (known : Option Value) (ρ : Environment) :
    Changes [name] ρ (ρ.learn name known) := by
  cases known with
  | some v => exact write name (some v) ρ
  | none =>
    rw [Environment.learn, invalidate]
    split
    · exact refl _ ρ
    · exact write name none ρ

theorem learnAll (known : List (String × Option Value)) (ρ : Environment) :
    Changes (known.map Prod.fst) ρ (ρ.learnAll known) := by
  induction known generalizing ρ with
  | nil => exact refl _ ρ
  | cons entry rest ih =>
    exact ((learn entry.1 entry.2 ρ).mono (by simp)).trans ((ih _).mono (List.subset_cons_self _ _))

theorem stores {known : List (String × Option Value)} {σ σ' : Environment}
    (h : Stores known σ σ') : Changes (known.map Prod.fst) σ σ' := by
  induction h with
  | nil => exact refl _ _
  | cons _ _ ih =>
    exact ((write _ _ _).mono (by simp)).trans (ih.mono (List.subset_cons_self _ _))

/-- What is written in a scope to its own names is gone when it is left. -/
theorem leave {scope : Syntax.Scope} (h : Changes names (ρ.enter scope) ρ') :
    Changes (names.filter fun name => !scope.declares name) ρ (ρ'.leave scope) := by
  have hlayers (n : String) (hn : n ∉ scope.names) : (ρ'.leave scope).layers n = ρ'.layers n ∧
      (ρ.enter scope).layers n = ρ.layers n :=
    ⟨layers_leave_of_not_mem hn ρ', layers_enter_of_not_mem hn ρ⟩
  refine ⟨fun n => ?_, fun n hn => ?_⟩
  · by_cases hmem : n ∈ scope.names
    · rw [layers_leave_of_touched hmem (h.touched n)]
      exact .refl _
    · obtain ⟨hleft, hentered⟩ := hlayers n hmem
      rw [hleft, ← hentered]
      exact h.touched n
  · by_cases hmem : n ∈ scope.names
    · exact layers_leave_of_touched hmem (h.touched n)
    · obtain ⟨hleft, hentered⟩ := hlayers n hmem
      rw [hleft, h.kept n, hentered]
      intro hnames
      refine hn (List.mem_filter.2 ⟨hnames, ?_⟩)
      simp [Syntax.Scope.declares, hmem]

end Changes

/-! ## Agreement -/

namespace Agrees

variable {ρ ρ' σ σ' : Environment}

theorem refl (ρ : Environment) : Agrees ρ ρ :=
  ⟨fun h => h, rfl⟩

theorem knownBy (h : Agrees ρ σ) : ρ.KnownBy σ :=
  fun _ _ => h.value

/-- What is known still holds after changes on both sides, if none of the names
that were written is known. -/
theorem of_unknown (h : Agrees ρ σ) {names : List String} (hρ : Changes names ρ ρ')
    (hσ : Changes names σ σ') (hunknown : ∀ n ∈ names, ρ'.lookup? n = none) : Agrees ρ' σ' := by
  refine ⟨fun {n v} hv => ?_, ?_⟩
  · have hn : n ∉ names := fun hmem => by
      rw [hunknown n hmem] at hv
      cases hv
    have hkept : n ∈ names → n = loaderName := fun hmem => absurd hmem hn
    rw [lookup?_congr (hρ.kept n hkept)] at hv
    rw [lookup?_congr (hσ.kept n hkept)]
    exact h.value hv
  · rw [hσ.kept _ fun _ => rfl, hρ.kept _ fun _ => rfl]
    exact h.loader

/-- A name that gets a value, on both sides. -/
theorem learn (h : Agrees ρ σ) (name : String) {known held : Option Value}
    (hheld : ∀ v, known = some v → held = some v) :
    Agrees (ρ.learn name known) (σ.write name held) := by
  have hρ := Changes.learn name known ρ
  have hσ := Changes.write name held σ
  refine ⟨fun {n v} hv => ?_, ?_⟩
  · by_cases hn : n ∈ [name] → n = loaderName
    · rw [lookup?_congr (hρ.kept n hn)] at hv
      rw [lookup?_congr (hσ.kept n hn)]
      exact h.value hv
    · rw [Classical.not_imp, List.mem_singleton] at hn
      obtain ⟨rfl, hloader⟩ := hn
      rw [lookup?_learn_self hloader] at hv
      rw [lookup?_write_self hloader]
      exact hheld v hv
  · rw [hσ.kept _ fun _ => rfl, hρ.kept _ fun _ => rfl]
    exact h.loader

/-- Several names that get values. -/
theorem stores (h : Agrees ρ σ) {known held : List (String × Option Value)}
    (hheld : List.Forall₂ Confirms known held) (hstores : Stores held σ σ') :
    Agrees (ρ.learnAll known) σ' := by
  induction hheld generalizing ρ σ with
  | nil =>
    cases hstores
    exact h
  | cons hentry _ ih =>
    obtain ⟨hname, hvalue⟩ := hentry
    cases hstores with
    | cons hstored hrest =>
      obtain rfl : _ = _ := hname
      exact ih (h.learn _ fun v hv => hstored v (hvalue v hv)) hrest

/-- Names that are not known any more, while they hold what they held. -/
theorem forget (h : Agrees ρ σ) (names : List String) :
    Agrees (ρ.learnAll (names.map (·, none))) σ := by
  induction names generalizing ρ with
  | nil => exact h
  | cons name names ih =>
    refine ih ⟨fun {n v} hv => h.value ?_, ?_⟩
    · have hρ := Changes.learn name none ρ
      by_cases hn : n ∈ [name] → n = loaderName
      · rwa [← lookup?_congr (hρ.kept n hn)]
      · rw [Classical.not_imp, List.mem_singleton] at hn
        obtain ⟨rfl, hloader⟩ := hn
        rw [lookup?_learn_self hloader] at hv
        cases hv
    · rw [(Changes.learn name none ρ).kept _ fun _ => rfl]
      exact h.loader

theorem enter (h : Agrees ρ σ) (scope : Syntax.Scope) : Agrees (ρ.enter scope) (σ.enter scope) := by
  refine ⟨fun {n v} hv => ?_, ?_⟩
  · by_cases hn : n ∈ scope.names
    · rw [lookup?_enter hn] at hv
      cases hv
    · rw [lookup?_congr (layers_enter_of_not_mem hn ρ)] at hv
      rw [lookup?_congr (layers_enter_of_not_mem hn σ)]
      exact h.value hv
  · rw [layers_enter, layers_enter, h.loader]

theorem leave (h : Agrees ρ σ) {scope : Syntax.Scope} {names names' : List String}
    (hρ : Changes names (ρ.enter scope) ρ') (hσ : Changes names' (σ.enter scope) σ')
    (hinner : Agrees ρ' σ') : Agrees (ρ'.leave scope) (σ'.leave scope) := by
  refine ⟨fun {n v} hv => ?_, ?_⟩
  · by_cases hn : n ∈ scope.names
    · rw [lookup?_congr (layers_leave_of_touched hn (hρ.touched n))] at hv
      rw [lookup?_congr (layers_leave_of_touched hn (hσ.touched n))]
      exact h.value hv
    · rw [lookup?_congr (layers_leave_of_not_mem hn ρ')] at hv
      rw [lookup?_congr (layers_leave_of_not_mem hn σ')]
      exact hinner.value hv
  · rw [layers_leave, layers_leave, hinner.loader]

end Agrees

end Environment

end ModuleAssets
