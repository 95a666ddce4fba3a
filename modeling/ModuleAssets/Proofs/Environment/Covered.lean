import Mathlib.Logic.Function.Iterate
import ModuleAssets.Proofs.Environment.Layers
/-!
# Environments — names that are covered

An environment keeps count of the open scopes that declare a name, if the name has a value
from the start. The count is spread over the layers of the name: what is written inside of a
scope goes on top, and counts the scopes that are entered after it. `Layer.Covers` says how
often the layers are covered in all, which is what writing keeps, and what entering and leaving
a scope adds to and takes from.
-/

namespace ModuleAssets

namespace Layer

/-- How often the layers are covered in all. -/
def totalDepth : List Layer → Nat
  | [] => 0
  | layer :: rest => layer.depth + totalDepth rest

/-- A name with these layers is covered so often. Only its topmost layer may stand uncovered, as
others lie below what was written in a scope. -/
structure Covers (n : Nat) (ls : List Layer) : Prop where
  exists_top : ls ≠ []
  total_eq : totalDepth ls = n
  below : ∀ layer ∈ ls.tail, 0 < layer.depth

namespace Covers

variable {n k : Nat} {ls : List Layer}

theorem start (value : Option Value) : Covers 0 [⟨0, value⟩] :=
  ⟨List.cons_ne_nil _ _, rfl, nofun⟩

theorem write (h : Covers n ls) (value : Option Value) : Covers n (Layer.write value ls) := by
  obtain ⟨htop, htotal, hbelow⟩ := h
  cases ls with
  | nil => exact absurd rfl htop
  | cons top rest =>
    rw [totalDepth] at htotal
    rw [Layer.write]
    split
    · rename_i hdepth
      refine ⟨List.cons_ne_nil _ _, ?_, List.forall_mem_cons.2 ⟨hdepth, hbelow⟩⟩
      rw [totalDepth, totalDepth, Nat.zero_add, htotal]
    · refine ⟨List.cons_ne_nil _ _, ?_, hbelow⟩
      rw [totalDepth]
      dsimp only
      omega

theorem cover (h : Covers n ls) : Covers (n + 1) (Layer.cover ls) := by
  obtain ⟨htop, htotal, hbelow⟩ := h
  cases ls with
  | nil => exact absurd rfl htop
  | cons top rest =>
    rw [totalDepth] at htotal
    refine ⟨List.cons_ne_nil _ _, ?_, hbelow⟩
    rw [Layer.cover, totalDepth]
    dsimp only
    omega

/-- Where the topmost layer is covered itself, it is covered once less; else it goes, and the one
below, which is covered, comes up. -/
theorem uncover (h : Covers (n + 1) ls) : Covers n (Layer.uncover ls) := by
  obtain ⟨htop, htotal, hbelow⟩ := h
  cases ls with
  | nil => exact absurd rfl htop
  | cons top rest =>
    rw [totalDepth] at htotal
    unfold Layer.uncover
    dsimp only
    split
    · refine ⟨List.cons_ne_nil _ _, ?_, hbelow⟩
      rw [totalDepth]
      dsimp only
      omega
    · cases rest with
      | nil =>
        rw [totalDepth] at htotal
        omega
      | cons next rest =>
        -- the layer that comes up is covered, and takes what is left to uncover
        have hnext : 0 < next.depth := hbelow next List.mem_cons_self
        rw [totalDepth] at htotal
        refine ⟨List.cons_ne_nil _ _, ?_, fun layer h => hbelow layer (List.mem_cons_of_mem _ h)⟩
        rw [totalDepth]
        dsimp only
        omega

theorem iterate_cover (h : Covers n ls) (k : Nat) : Covers (k + n) (Layer.cover^[k] ls) := by
  induction k with
  | zero =>
    rw [Nat.zero_add]
    exact h
  | succ k ih =>
    rw [Function.iterate_succ_apply', Nat.add_right_comm]
    exact ih.cover

theorem iterate_uncover (h : Covers (k + n) ls) : Covers n (Layer.uncover^[k] ls) := by
  induction k generalizing ls with
  | zero => exact Nat.zero_add n ▸ h
  | succ k ih =>
    rw [Function.iterate_succ_apply]
    exact ih (Nat.add_right_comm k 1 n ▸ h).uncover

end Covers

end Layer

namespace Environment

/-- How often the scopes declare the name. -/
def timesDeclared (name : String) (around : List Syntax.Scope) : Nat :=
  (around.flatMap fun scope => scope.names).count name

/-- The environment keeps count of the open scopes that declare one of the names. -/
def Counts (names : List String) (around : List Syntax.Scope) (env : Environment) : Prop :=
  ∀ name ∈ names, Layer.Covers (timesDeclared name around) (env.layers name)

namespace Counts

variable {names : List String} {around : List Syntax.Scope} {env : Environment}

theorem write (h : Counts names around env) (name : String) (value : Option Value) :
    Counts names around (env.write name value) := by
  by_cases hloader : name = loaderName
  · rw [hloader, write_loaderName]
    exact h
  · intro n hn
    rw [layers_write hloader]
    split
    · exact (h n hn).write value
    · exact h n hn

theorem define (h : Counts names around env) (name : String) (v : Value) :
    Counts names around (env.define name v) :=
  h.write name (some v)

theorem invalidate (h : Counts names around env) (name : String) :
    Counts names around (env.invalidate name) := by
  rw [Environment.invalidate]
  split
  · exact h
  · exact h.write name none

theorem enter (h : Counts names around env) (scope : Syntax.Scope) :
    Counts names (scope :: around) (env.enter scope) := by
  intro n hn
  rw [layers_enter, timesDeclared, List.flatMap_cons, List.count_append]
  exact (h n hn).iterate_cover _

theorem leave {scope : Syntax.Scope} (h : Counts names (scope :: around) env) :
    Counts names around (env.leave scope) := by
  intro n hn
  rw [layers_leave]
  have hcovers := h n hn
  rw [timesDeclared, List.flatMap_cons, List.count_append] at hcovers
  exact hcovers.iterate_uncover

end Counts

end Environment

end ModuleAssets
