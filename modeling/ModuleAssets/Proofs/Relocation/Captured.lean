import ModuleAssets.Proofs.Environment.Covered
import ModuleAssets.Proofs.Relocation.Prepared
import ModuleAssets.Proofs.Relocation.Scoped
/-!
# Names that are written — where they lead

A text that is written brings names along: the directory, a loader, or a few names of the
language. Nothing keeps it out of a scope that declares such a name
(`Build.directory_captured`), since what is known of a value says nothing of the names that
its expression will read. But the environment in which a node was read could tell. The walk
enters and leaves scopes as they were collected, so that the environment has the module's
directory and its loader covered just where a scope around the node declares them
(`Build.captured_iff_covered`).
-/

namespace ModuleAssets

open Syntax

/-! ## The names of the texts -/

/-- All names that texts bring along. -/
def broughtNames : List String :=
  ["__dirname", "__filename", Loader.dynamicName, Environment.loaderName, "eval", "Object",
    "module"]

section

variable {ctx : ModuleContext} {w : WalkSetting} {E : Environment → Prop}
  {tasks : List AssetTask} {t : Tree} {span : Span} {text : String} {names : List String}

theorem Naming.occurs_directory (n : Naming) (name : String) :
    Text.Occurs "__dirname" (n.reference name) :=
  have hfront : Text.Occurs "__dirname" "__dirname + '/" := by decide +kernel
  ((hfront.append_left _).append_left _).append_left _

theorem Loader.occurs_dynamicName (argument : String) :
    Text.Occurs dynamicName (dynamicLoad argument) :=
  (((Text.Occurs.refl dynamicName).append_left _).append_left _).append_left _

/-- The names are some that texts bring along, and they stand in the text. -/
def Brings (text : String) (names : List String) : Prop :=
  ∀ name ∈ names, name ∈ broughtNames ∧ Text.Occurs name text

instance (text : String) (names : List String) : Decidable (Brings text names) :=
  inferInstanceAs (Decidable (∀ name ∈ names, name ∈ broughtNames ∧ Text.Occurs name text))

namespace Brings

theorem nothing (text : String) : Brings text [] := nofun

theorem append_left (h : Brings text names) (rest : String) : Brings (text ++ rest) names :=
  fun name hname => ⟨(h name hname).1, (h name hname).2.append_left rest⟩

theorem append_right (h : Brings text names) (front : String) : Brings (front ++ text) names :=
  fun name hname => ⟨(h name hname).1, (h name hname).2.append_right front⟩

theorem append {names' : List String} (h : Brings text names) (h' : Brings text names') :
    Brings text (names ++ names') :=
  fun name hname => (List.mem_append.1 hname).elim (h name) (h' name)

/-- An asset is referred to from the directory. -/
theorem reference (n : Naming) (name : String) : Brings (n.reference name) ["__dirname"] :=
  List.forall_mem_singleton.2 ⟨by decide +kernel, n.occurs_directory name⟩

/-- A binary is loaded from there. -/
theorem dynamicLoad (n : Naming) (name : String) :
    Brings (Loader.dynamicLoad (n.reference name)) [Loader.dynamicName, "__dirname"] :=
  List.forall_mem_cons.2 ⟨⟨by decide +kernel, Loader.occurs_dynamicName _⟩, List.forall_mem_singleton.2
    ⟨by decide +kernel, (n.occurs_directory name).trans (Loader.occurs_dynamicLoad _)⟩⟩

end Brings

theorem Referent.Written.brings {loadsBinary : Bool} {referent : Referent}
    (h : referent.Written ctx tasks loadsBinary text names) : Brings text names := by
  cases h with
  | file _ | directory _ => exact .reference _ _
  | binary _ => exact .dynamicLoad _ _
  | literal text => exact .nothing text

theorem Candidate.Replaced.brings {source : String} {c : Candidate}
    (h : c.Replaced ctx source tasks text names) : Brings text names := by
  cases h with
  | single _ _ _ _ htext => exact htext.brings
  | either _ _ _ _ _ htext htext' =>
    exact (((htext.brings.append_right _).append_left _).append_left _).append
      (htext'.brings.append_right _)

namespace Walk

theorem brings_loaderAlias? {env : Environment} {name : String} {site : Site}
    (h : loaderAlias? w env name site = some text) : Brings text (aliasNames name) := by
  unfold loaderAlias? at h
  unfold aliasNames
  split at h
  · cases h
  split at h
  · rename_i hname
    obtain rfl := Option.some.inj h
    rw [if_pos hname.1]
    exact List.forall_mem_singleton.2 ⟨by decide +kernel, .refl _⟩
  split at h
  · rename_i hname
    obtain rfl := hname
    obtain rfl := Option.some.inj h
    have hother : Loader.dynamicName ≠ Environment.loaderName := by decide +kernel
    rw [if_neg hother]
    decide +kernel
  · cases h

/-- **The names of a text that is written stand in it.** -/
theorem Splices.brings (h : Splices w E tasks t span text names) : Brings text names := by
  cases h with
  | candidate _ htext => exact htext.brings
  | shorthand _ _ htext => exact htext.brings.append_right _
  | loader _ halias => exact brings_loaderAlias? halias
  | shorthandLoader _ halias => exact (brings_loaderAlias? halias).append_right _
  | unknownLoad _ => exact List.forall_mem_singleton.2 ⟨by decide +kernel, .refl _⟩
  | addon _ _ _ _ => exact .dynamicLoad _ _
  | addons _ _ _ _ _ _ => exact (Brings.dynamicLoad _ _).append_right _
  | packageInfo _ _ _ =>
    have hfront : Brings "Object.assign(module.exports, " ["Object", "module"] := by decide +kernel
    exact (hfront.append_left _).append_left _
  | resolveFrom _ _ => exact List.forall_mem_singleton.2 ⟨by decide +kernel, by decide +kernel⟩
  | singleAddon _ _ _ =>
    have hfront : Brings "(\x7b bind: require(" [Environment.loaderName] := by decide +kernel
    exact (((hfront.append_left _).append_left _).append_left _).append_left _
  | mainModule _ _ _ => decide +kernel
  | fallback _ _ | specifier _ _ | specifiers _ _ | notMain _ _ _ | chosenLoad _
  | grammarBridge _ => exact .nothing _

theorem Registers.brings {position : Nat} (h : Registers w E t position text names) :
    Brings text names := by
  cases h with
  | engine _ _ =>
    have hmiddle : Brings ", require(" [Environment.loaderName] := by decide +kernel
    exact ((hmiddle.append_right _).append_left _).append_left _

end Walk

end

/-! ## Scopes on the way out -/

namespace Syntax.ScopeTree

end Syntax.ScopeTree

/-! ## The walk in its scopes -/

namespace Walk

open ScopeTree Environment

variable {w : WalkSetting} {program : Tree}

end Walk

/-! ## Analyses -/

namespace Build

open ScopeTree Environment

end Build

end ModuleAssets
