import ModuleAssets.Asset.Plan
import ModuleAssets.Files.Tree
import ModuleAssets.Text.Patch
/-!
# Drafts — the edits and assets of a module so far

While a module is looked through, its edits are collected in a patch and its
assets in a plan. An edit that the patch refuses is left out; that it was is all
that stays of it.
-/

namespace ModuleAssets

/-- The edits of a module and the assets it needs. -/
structure Draft where
  patch : Patch
  plan : Plan
  /-- The refusals of the edits that were left out. -/
  skipped : List PatchError

namespace Draft

/-- No edits and no assets yet. -/
def start (source : String) (registry : Registry) : Draft :=
  ⟨Patch.ofText source, Plan.ofRegistry registry, []⟩

/-- An edit is left out. -/
def skip (d : Draft) (refusal : PatchError) : Draft :=
  { d with skipped := d.skipped ++ [refusal] }

/-- Puts `text` in the place of `span`. -/
def overwrite (d : Draft) (span : Span) (text : String) : Draft :=
  match d.patch.overwrite span text with
  | .ok patch => { d with patch }
  | .error refusal => d.skip refusal

/-- Puts `text` in at `position`. -/
def appendRight (d : Draft) (position : Nat) (text : String) : Draft :=
  match d.patch.appendRight position text with
  | .ok patch => { d with patch }
  | .error refusal => d.skip refusal

/-- A file is needed. The answer has the expression for it. -/
def addFile (d : Draft) (n : Naming) (path : String) : Draft × String :=
  let (plan, reference) := d.plan.addFile n path
  ({ d with plan }, reference)

/-- A directory is needed. The answer has the expression for it. -/
def addDirectory (d : Draft) (n : Naming) (path : String) : Draft × String :=
  let (plan, reference) := d.plan.addDirectory n path
  ({ d with plan }, reference)

end Draft

end ModuleAssets
