import ModuleAssets.Asset.Transfer
import ModuleAssets.Relocation.Walk
/-!
# Builds — from modules to modules and assets

A module is first analyzed, which names its assets and collects its edits,
and then committed, which copies the assets and makes the edits. Between the
two nothing is written. All modules of a build share the names of assets.
-/

namespace ModuleAssets

open Syntax

/-- What all modules of a build share. -/
structure Build where
  options : Options
  specialCases : List SpecialCase
  /-- The path of the module that the program starts with. -/
  entryId : Option String

/-- The edits of a module and what has to be copied for it. -/
structure Analysis where
  id : String
  source : String
  patch : Patch
  tasks : List AssetTask
deriving DecidableEq

/-- A module that is done. -/
structure Relocated where
  code : String
  /-- Where the code comes from, if it was edited in places. -/
  map : Option PositionMap
  transformed : Bool
deriving DecidableEq

/-- Why a module cannot be done. -/
inductive ModuleError where
  /-- It is no module. -/
  | refused (cause : SyntaxError)
  /-- One of its assets cannot be copied. -/
  | notCopied (cause : TransferError)
deriving Inhabited

/-- What a build leaves after a module, and the module. -/
structure Committed where
  output : Output
  result : Except ModuleError Relocated

namespace Relocated

/-- A module as it was. -/
def unchanged (code : String) : Relocated :=
  ⟨code, none, false⟩

end Relocated

namespace Analysis

/-- The module is edited. -/
def isTransformed (a : Analysis) : Bool :=
  !a.patch.isEmpty

/-- The module with its edits. -/
def relocated (a : Analysis) : Relocated :=
  if a.isTransformed then
    let patched := a.patch.apply a.source
    ⟨patched.code, some patched.map, true⟩
  else .unchanged a.source

end Analysis

namespace Build

/-- A build with some options and all rules for special cases. -/
def ofOptions (options : Options) : Build :=
  ⟨options, SpecialCase.all, none⟩

/-- The output of a build that has done nothing yet. -/
def start (b : Build) : Output :=
  .ofRegistry (.ofExisting b.options.existingAssetNames)

/-- Takes over what an earlier build with the same entry handed on, if there
is such a build. -/
def restore {σ : Type} (b : Build) (cache : Cache σ) (stored : σ) (r : Registry) :
    Except CacheError (Option Registry) :=
  r.restore cache stored (b.entryId.getD "")

/-- Hands on the files and links to the next build. -/
def persist {σ : Type} (b : Build) (cache : Cache σ) (stored : σ) (r : Registry) : Stored σ :=
  r.persist cache stored (b.entryId.getD "")

/-! ## Analysis -/

/-- The module of a path and the files around it. -/
def context (b : Build) (files : FileTree) (id : String) : ModuleContext where
  id := id
  directory := Path.dirname id
  packageBase := Package.base? id
  packageScope := Package.scope? files id
  options := b.options
  files := files

/-- The names that imports bring in and that are known. -/
def importedValues (imports : List Import) (m : KnownModule) : List (String × Value) :=
  imports.filterMap fun i =>
    match i with
    | .default binding => m.defaultExport.map (binding, ·)
    | .namespace_ binding => some (binding, m.exports)
    | .named binding exported => (exported.bind m.export?).map (binding, ·)

/-- Imports are known before anything else of a module. -/
def defineImports (program : Tree) (env : Environment) : Environment :=
  let values :=
    program.parts.flatMap fun statement =>
      match statement.kind with
      | .import_ (some specifier) imports =>
        ((Catalogue.module? specifier).map (importedValues imports)).getD []
      | _ => []
  values.foldl (fun env (name, value) => env.define name value) env

/-- Walks through a whole program. -/
def walkProgram (w : WalkSetting) (program : Tree) (draft : Draft) : Draft :=
  let env :=
    Environment.ofModule w.ctx.id w.ctx.directory w.ctx.options.nodeEnv (w.grammar == .script)
  let root := (w.scopes.get? ScopeTree.root).getD default
  let env := defineImports program (env.enter root)
  (((Walk.visitAll w program.parts).run ⟨env, draft, false⟩).2).draft

/-- Reads one module: names its assets and collects its edits. -/
def analyze (b : Build) (files : FileTree) (registry : Registry) (id source : String) :
    Except SyntaxError (Registry × Analysis) := do
  let parsed ← parse source
  let ctx := b.context files id
  let (program, draft) :=
    SpecialCase.applyFirst b.specialCases id
      ⟨ctx.directory, b.options, Referent.naming ctx, files⟩ parsed.tree
      (.start source registry)
  let scopes := ScopeTree.ofTree program
  let (scopes, draft) :=
    if b.options.wrapperCompatibility then Wrapper.unwrap parsed.grammar program scopes draft
    else (scopes, draft)
  let w : WalkSetting := ⟨ctx, source, parsed.grammar, scopes, b.entryId == some id⟩
  let draft := walkProgram w program draft
  return (draft.plan.registry, ⟨id, source, draft.patch, draft.plan.tasks⟩)

/-! ## Commit -/

/-- Copies what a module needs, and then makes its edits. -/
def commit (b : Build) (files : FileTree) (host : Host) (a : Analysis) (o : Output) : Committed :=
  let done := runTasks files host b.options.assetBase a.tasks o
  match done.failure with
  | some e => ⟨done.output, .error (.notCopied e)⟩
  | none => ⟨done.output, .ok a.relocated⟩

/-- Does one module that is code. -/
def relocateCode (b : Build) (files : FileTree) (host : Host) (id source : String) (o : Output) :
    Committed :=
  match b.analyze files o.registry id source with
  | .error e => ⟨o, .error (.refused e)⟩
  | .ok (registry, a) => b.commit files host a { o with registry }

/-- Does one native addon: it becomes an asset itself, and the module loads
it from there. -/
def relocateAddon (b : Build) (files : FileTree) (host : Host) (id : String) (content : ByteArray)
    (o : Output) : Committed :=
  let assetBase := b.options.assetBase
  let base := (Package.base? id).getD (Path.dirname id)
  let done :=
    (transferSharedLibraries files host assetBase base o).andThen fun o =>
      let preferred := (Naming.below? id base).getD (Path.basename id none)
      let (registry, name) := o.registry.register id preferred
      let key := assetBase ++ name
      let registry :=
        match files.target id with
        | .ok node => registry.recordPermissions key node.fullMode
        | .error _ => registry
      Output.emit host { o with registry } key content
  match done.failure with
  | some e => ⟨done.output, .error (.notCopied e)⟩
  | none =>
    let name := (done.output.registry.nameOf? id).getD ""
    let specifier := "./" ++ b.options.relativeAssetPrefix ++ name
    ⟨done.output,
      .ok ⟨"module.exports = " ++ Loader.dynamicLoad (Json.quote specifier) ++ ";", none, true⟩⟩

/-- Does one module of any kind: an addon, data, which stays as it is, or
code. -/
def relocate (b : Build) (files : FileTree) (host : Host) (id : String) (content : ByteArray)
    (o : Output) : Committed :=
  if Text.endsWith id Addon.ending then b.relocateAddon files host id content o
  else
    let source := Text.ofBytes content
    if Text.endsWith id ".json" then ⟨o, .ok (.unchanged source)⟩
    else b.relocateCode files host id source o

end Build

end ModuleAssets
