import ModuleAssets.Proofs.Patch.Edits
import ModuleAssets.Proofs.Syntax.Place
import ModuleAssets.Relocation.Walk
/-!
# The walk — what it writes, and where

A walk edits a module in few ways. `Rewrites` has one case for each of them: the
node of the tree that it finds, what it knows of it, and the text that it puts
in the node's place. With what is put in between and the assets that are planned
this is all that happens to a draft, so that what is to be shown of all drafts
that walks make is shown case by case.
-/

namespace ModuleAssets

open Syntax
open SpecialCase (argumentExpression)

/-! ## Texts in texts -/

namespace Text

/-- The text stands somewhere in the other one. -/
def Occurs (part whole : String) : Prop :=
  part.toList <:+: whole.toList

instance (part whole : String) : Decidable (Occurs part whole) :=
  inferInstanceAs (Decidable (part.toList <:+: whole.toList))

namespace Occurs

variable {part text whole : String}

theorem refl (text : String) : Occurs text text :=
  List.infix_refl _

theorem trans (h : Occurs part text) (h' : Occurs text whole) : Occurs part whole :=
  List.IsInfix.trans h h'

theorem append_left (h : Occurs part text) (rest : String) : Occurs part (text ++ rest) := by
  rw [Occurs, String.toList_append]
  exact List.IsInfix.trans h (List.prefix_append _ _).isInfix

theorem append_right (h : Occurs part text) (front : String) : Occurs part (front ++ text) := by
  rw [Occurs, String.toList_append]
  exact List.IsInfix.trans h (List.suffix_append _ _).isInfix

end Occurs

end Text

/-! ## Texts for values -/

/-- The text is an expression for what is referred to. Where that is a file or a
directory, it is planned as an asset, and the expression has the asset's name. The names
are those that the expression reads. -/
inductive Referent.Written (ctx : ModuleContext) (tasks : List AssetTask) :
    Bool → Referent → String → List String → Prop
  | file {path name : String} (h : .file path name ∈ tasks) :
    Written ctx tasks false (.file path) ((naming ctx).reference name) ["__dirname"]
  /-- A binary is loaded at once. -/
  | binary {path name : String} (h : .file path name ∈ tasks) :
    Written ctx tasks true (.file path) (Loader.dynamicLoad ((naming ctx).reference name))
      [Loader.dynamicName, "__dirname"]
  | directory {loadsBinary : Bool} {path name : String} (h : .directory path name ∈ tasks) :
    Written ctx tasks loadsBinary (.directory path) ((naming ctx).reference name) ["__dirname"]
  | literal {loadsBinary : Bool} (text : String) :
    Written ctx tasks loadsBinary (.literal text) text []

namespace Candidate

/-- The text may take the candidate's place: it is the expression for what its
value refers to, or the choice between two such. The test of the choice is copied from
the module, so that its names are not among those that the text brings along. -/
inductive Replaced (ctx : ModuleContext) (source : String) (tasks : List AssetTask)
    (c : Candidate) : String → List String → Prop
  | single {v : Value} {referent : Referent} {text : String} {names : List String}
    (hdirectory : c.isDirectoryName = false) (houtcome : c.outcome = .single v)
    (hvalue : Referent.ofValue? ctx v = some referent)
    (hliteral : ∀ text, referent ≠ .literal text)
    (htext : referent.Written ctx tasks c.loadsBinary text names) :
    Replaced ctx source tasks c text names
  | either {test : Span} {a b : Value} {first second : Referent} {text text' : String}
    {names names' : List String}
    (hdirectory : c.isDirectoryName = false) (houtcome : c.outcome = .either test a b)
    (hfirst : Referent.ofValue? ctx a = some first)
    (hsecond : Referent.ofValue? ctx b = some second)
    (hkind : first.sameKind second = true)
    (htext : first.Written ctx tasks c.loadsBinary text names)
    (htext' : second.Written ctx tasks c.loadsBinary text' names') :
    Replaced ctx source tasks c
      ((Text.slice? source test).getD "" ++ " ? " ++ text ++ " : " ++ text') (names ++ names')

/-- A walk may find the candidate at a node, in one of the environments: the node is a name
that is read, a call that finds a module or a binary, or an expression with a known value. -/
inductive StemsFrom (w : WalkSetting) (E : Environment → Prop) : Tree → Candidate → Prop
  | name {env : Environment} {name : String} {span : Span} {parts : List Tree} {c : Candidate}
    (henv : E env) (hname : ofName? env name span = some c) :
    StemsFrom w E (.node (.identifier name) span parts) c
  | module_ {env : Environment} {call : Tree} {path : String} (henv : E env)
    (hkind : call.kind = .call)
    (hvalue : (call.evaluate w.ctx env).single.value = some (.text path)) :
    StemsFrom w E call (.ofValue call.span (.text path))
  | binary {env : Environment} {span : Span} {callee : Tree} {arguments : List Tree}
    {directory : String} {request : Value} {found : Addon.Found} (henv : E env)
    (hcallee : Loader.requiredSpecifier? w.grammar env callee = some "bindings")
    (hdirectory : w.ctx.packageRoot = some directory)
    (hfound : Addon.byName? w.ctx.files directory w.ctx.options.nodeAbi request = some found) :
    StemsFrom w E (.node .call span (callee :: arguments))
      { ofValue span (.text found.path) with loadsBinary := found.isLoaded }
  | grown {env : Environment} {t : Tree} {outcome : Outcome} (henv : E env)
    (hvalue : (t.evaluate w.ctx env).value = some outcome) :
    StemsFrom w E t ⟨t.span, outcome, (t.evaluate w.ctx env).facts.loadsBinary, false⟩

end Candidate

namespace Walk

/-! ## Edits of a walk -/

/-- In one of the environments the tree reads the loader. -/
def ReadsLoader (w : WalkSetting) (E : Environment → Prop) (t : Tree) : Prop :=
  ∃ env, E env ∧ Loader.isLoader w.grammar env t = true

/-- In one of the environments the tree has the known value. -/
def Holds (w : WalkSetting) (E : Environment → Prop) (t : Tree) (outcome : Outcome) : Prop :=
  ∃ env, E env ∧ (t.evaluate w.ctx env).value = some outcome

/-- In one of the environments the tree has the single known value. -/
def HoldsSingle (w : WalkSetting) (E : Environment → Prop) (t : Tree) (v : Value) : Prop :=
  ∃ env, E env ∧ (t.evaluate w.ctx env).single.value = some v

/-- The names that the text for the loader reads. -/
def aliasNames (name : String) : List String :=
  if name = Environment.loaderName then [Loader.dynamicName] else ["eval", Environment.loaderName]

/-- At a node that a walk comes by in one of the environments, it may put the text in the place
of the span. The names are those that the text brings along: those that it reads, also where it
has code worked out, other than in what it copies from the module. -/
inductive Splices (w : WalkSetting) (E : Environment → Prop) (tasks : List AssetTask) :
    Tree → Span → String → List String → Prop
  /-- A candidate that grows no more gets the expression for its value. -/
  | candidate {t : Tree} {c : Candidate} {text : String} {names : List String}
    (hc : c.StemsFrom w E t) (htext : c.Replaced w.ctx w.source tasks text names) :
    Splices w E tasks t c.span text names
  /-- So does a name that is also a key, after the key. -/
  | shorthand {env : Environment} {name : String} {span : Span} {parts : List Tree} {c : Candidate}
    {text : String} {names : List String} (henv : E env)
    (hname : Candidate.ofName? env name span = some c)
    (htext : c.Replaced w.ctx w.source tasks text names) :
    Splices w E tasks (.node (.shorthand name) span parts) span (name ++ ": " ++ text) names
  /-- The loader that is read gets its lasting name. -/
  | loader {env : Environment} {site : Site} {name : String} {span : Span} {parts : List Tree}
    {text : String} (henv : E env) (halias : loaderAlias? w env name site = some text) :
    Splices w E tasks (.node (.identifier name) span parts) span text (aliasNames name)
  /-- So does the loader whose name is also a key, after the key. -/
  | shorthandLoader {env : Environment} {name : String} {span : Span} {parts : List Tree}
    {text : String} (henv : E env) (halias : loaderAlias? w env name .value = some text) :
    Splices w E tasks (.node (.shorthand name) span parts) span (name ++ ": " ++ text)
      (aliasNames name)
  /-- An unknown argument of the loader falls back to a text. -/
  | fallback {span : Span} {callee argument right : Tree} {rest : List Tree}
    (hloader : ReadsLoader w E callee)
    (hright : fallback? (argumentExpression argument) = some right) :
    Splices w E tasks (.node .call span (callee :: argument :: rest))
      (argumentExpression argument).span (text w right.span) []
  /-- With another unknown argument it gets its lasting name. -/
  | unknownLoad {span : Span} {callee argument : Tree} {rest : List Tree}
    (hloader : ReadsLoader w E callee) :
    Splices w E tasks (.node .call span (callee :: argument :: rest)) callee.span
      Loader.dynamicName [Loader.dynamicName]
  /-- An addon is loaded from its place among the assets. -/
  | addon {span : Span} {callee argument : Tree} {rest : List Tree}
    {specifier binary name : String} (hloader : ReadsLoader w E callee)
    (hvalue : Holds w E (argumentExpression argument) (.single (.text specifier)))
    (hbinary : nativeBinary? w.ctx specifier = some binary) (htask : .file binary name ∈ tasks) :
    Splices w E tasks (.node .call span (callee :: argument :: rest)) span
      (Loader.dynamicLoad ((Referent.naming w.ctx).reference name))
      [Loader.dynamicName, "__dirname"]
  /-- So is one of two addons. -/
  | addons {span test : Span} {callee argument : Tree} {rest : List Tree}
    {specifier specifier' binary binary' name name' : String} (hloader : ReadsLoader w E callee)
    (hvalue : Holds w E (argumentExpression argument)
      (.either test (.text specifier) (.text specifier')))
    (hbinary : nativeBinary? w.ctx specifier = some binary)
    (hbinary' : nativeBinary? w.ctx specifier' = some binary')
    (htask : .file binary name ∈ tasks) (htask' : .file binary' name' ∈ tasks) :
    Splices w E tasks (.node .call span (callee :: argument :: rest)) span
      (text w test ++ " ? " ++ Loader.dynamicLoad ((Referent.naming w.ctx).reference name) ++ " : "
        ++ Loader.dynamicLoad ((Referent.naming w.ctx).reference name'))
      [Loader.dynamicName, "__dirname"]
  /-- A specifier that is known is written out. -/
  | specifier {span : Span} {callee argument : Tree} {rest : List Tree} {specifier : String}
    (hloader : ReadsLoader w E callee)
    (hvalue : Holds w E (argumentExpression argument) (.single (.text specifier))) :
    Splices w E tasks (.node .call span (callee :: argument :: rest))
      (argumentExpression argument).span (Json.quote specifier) []
  /-- So are two specifiers. -/
  | specifiers {span test : Span} {callee argument : Tree} {rest : List Tree}
    {specifier specifier' : String} (hloader : ReadsLoader w E callee)
    (hvalue : Holds w E (argumentExpression argument)
      (.either test (.text specifier) (.text specifier'))) :
    Splices w E tasks (.node .call span (callee :: argument :: rest))
      (argumentExpression argument).span
      (text w test ++ " ? " ++ Json.quote specifier ++ " : " ++ Json.quote specifier') []
  /-- The description of the package is added to the module's exports. -/
  | packageInfo {env : Environment} {span : Span} {callee : Tree} {arguments : List Tree}
    (members : List (String × Json)) (henv : E env)
    (hcallee : Loader.requiredSpecifier? w.grammar env callee = some "pkginfo") :
    Splices w E tasks (.node .call span (callee :: arguments)) span
      ("Object.assign(module.exports, " ++ (Json.object members).compact ++ ")")
      ["Object", "module"]
  /-- A module is found by the loader instead of from the module's directory. -/
  | resolveFrom {span : Span} {callee directory target : Tree}
    (hcallee : HoldsSingle w E callee (.builtin .resolveFrom))
    (hdirectory : HoldsSingle w E directory (.text w.ctx.directory)) :
    Splices w E tasks (.node .call span [callee, directory, target])
      ⟨span.start, target.span.start⟩ "require.resolve(" [Environment.loaderName]
  /-- The one addon of a package is loaded directly. -/
  | singleAddon {span : Span} {callee : Tree} {arguments : List Tree} {binary relative : String}
    (hcallee : HoldsSingle w E callee (.builtin .nbindInit))
    (hvalue : HoldsSingle w E (.node .call span (callee :: arguments)) (.text binary))
    (hrelative : Path.relative w.ctx.directory binary = some relative) :
    Splices w E tasks (.node .call span (callee :: arguments)) span
      (let specifier := Json.quote
        (if Text.startsWith relative "." then relative else "./" ++ relative)
      "(\x7b bind: require(" ++ specifier ++ ").NBind.bind_value, lib: require(" ++ specifier
        ++ ") \x7d)") [Environment.loaderName]
  /-- In the entry of a build, the main module is asked for by the module's name. -/
  | mainModule {env : Environment} {op : BinaryOp} {span : Span} {left right : Tree}
    {mainIsLeft : Bool} (henv : E env)
    (hmain : entryCheck? w env op left right = some mainIsLeft) (hentry : w.isEntry = true) :
    Splices w E tasks (.node (.binary op) span [left, right])
      (if mainIsLeft then right else left).span
      (Loader.dynamicName ++ ".cache[eval('__filename')]")
      [Loader.dynamicName, "eval", "__filename"]
  /-- No other module is the main module. -/
  | notMain {env : Environment} {op : BinaryOp} {span : Span} {left right : Tree}
    {mainIsLeft : Bool} (henv : E env)
    (hmain : entryCheck? w env op left right = some mainIsLeft) (hentry : w.isEntry = false) :
    Splices w E tasks (.node (.binary op) span [left, right]) span "false" []
  /-- One of two loads is chosen. -/
  | chosenLoad {span : Span} {test first second : Tree} {v : Value}
    (hvalue : HoldsSingle w E test v) :
    Splices w E tasks (.node .conditional span [test, first, second]) span
      (text w (if v.truthy then first else second).span) []
  /-- A loader for the other grammar does not take the loader's name. -/
  | grammarBridge {span : Span} {target value : Tree}
    (htarget : target.kind = .binding Environment.loaderName) :
    Splices w E tasks (.node (.assign none) span [target, value]) span "" []

/-- At a node that a walk comes by in one of the environments, it may put the text in at the
position: an engine for views is registered where an application names it. -/
inductive Registers (w : WalkSetting) (E : Environment → Prop) :
    Tree → Nat → String → List String → Prop
  | engine {span place : Span} {application key engine : Tree}
    (happlication : HoldsSingle w E application (.builtin .expressApp))
    (hkey : HoldsSingle w E (argumentExpression key) (.text "view engine")) :
    Registers w E (.node .call span [.node (.member "set") place [application], key, engine])
      application.span.stop
      (".engine(" ++ text w (argumentExpression engine).span ++ ", require("
        ++ text w (argumentExpression engine).span ++ ").__express)") [Environment.loaderName]

/-- A walk over the tree may put the text in the place of the span. -/
def Rewrites (w : WalkSetting) (root : Tree) (tasks : List AssetTask) (span : Span)
    (text : String) : Prop :=
  ∃ t names, root.Contains t ∧ Splices w (fun _ => True) tasks t span text names

/-- A walk over the tree may put the text in at the position. -/
def Inserts (w : WalkSetting) (root : Tree) (position : Nat) (text : String) : Prop :=
  ∃ t names, root.Contains t ∧ Registers w (fun _ => True) t position text names

/-- A walk may plan the file: a value refers to it, or a specifier names it as an
addon. -/
def Finds (w : WalkSetting) (path : String) : Prop :=
  (∃ v, Referent.ofValue? w.ctx v = some (.file path)) ∨
    ∃ specifier, nativeBinary? w.ctx specifier = some path

end Walk

/-- The texts that may be written: in the place of a span, once some assets are planned, and in
between at a position. -/
structure Walk.Writing where
  rewrites : List AssetTask → Span → String → Prop
  inserts : Nat → String → Prop
  mono : ∀ {tasks tasks' : List AssetTask} {span : Span} {text : String}, tasks ⊆ tasks' →
    rewrites tasks span text → rewrites tasks' span text

/-- The second draft comes from the first by what a walk that writes such texts may do. -/
inductive Draft.Edits (w : WalkSetting) (may : Walk.Writing) (d : Draft) : Draft → Prop
  | refl : Edits w may d d
  | overwrite {d' : Draft} {span : Span} {text : String} (h : Edits w may d d')
    (htext : may.rewrites d'.plan.tasks span text) :
    Edits w may d (d'.overwrite span text)
  | appendRight {d' : Draft} {position : Nat} {text : String} (h : Edits w may d d')
    (htext : may.inserts position text) : Edits w may d (d'.appendRight position text)
  | addFile {d' : Draft} {path : String} (h : Edits w may d d') (hpath : Walk.Finds w path) :
    Edits w may d (d'.addFile (Referent.naming w.ctx) path).1
  | addDirectory {d' : Draft} {path : String} {v : Value} (h : Edits w may d d')
    (hpath : Referent.ofValue? w.ctx v = some (.directory path)) :
    Edits w may d (d'.addDirectory (Referent.naming w.ctx) path).1

/-- The second draft comes from the first by asking for assets that a walk may find, and the
expressions for these are as listed. -/
inductive Draft.Plans (w : WalkSetting) (d : Draft) : List String → Draft → Prop
  | nothing : Plans w d [] d
  | addFile {references : List String} {d' : Draft} {path : String} (h : Plans w d references d')
    (hpath : Walk.Finds w path) :
    Plans w d (references ++ [(d'.addFile (Referent.naming w.ctx) path).2])
      (d'.addFile (Referent.naming w.ctx) path).1
  | addDirectory {references : List String} {d' : Draft} {path : String} {v : Value}
    (h : Plans w d references d') (hpath : Referent.ofValue? w.ctx v = some (.directory path)) :
    Plans w d (references ++ [(d'.addDirectory (Referent.naming w.ctx) path).2])
      (d'.addDirectory (Referent.naming w.ctx) path).1

/-- A walk that writes such texts moves on from one draft to the next: it asks for assets and at
once writes a text with the expressions for all of them, or it puts something in between. -/
inductive Draft.Moves (w : WalkSetting) (may : Walk.Writing) (d : Draft) : Draft → Prop
  | overwrite {references : List String} {d' : Draft} {span : Span} {text : String}
    (h : d.Plans w references d') (htext : may.rewrites d'.plan.tasks span text)
    (hall : ∀ reference ∈ references, Text.Occurs reference text) :
    Moves w may d (d'.overwrite span text)
  | appendRight {position : Nat} {text : String} (htext : may.inserts position text) :
    Moves w may d (d.appendRight position text)

/-! ## Plans -/

namespace Plan

@[simp]
theorem registry_addTask (p : Plan) (task : AssetTask) :
    (p.addTask task).registry = p.registry := by
  rw [addTask]
  split <;> rfl

theorem subset_addTask (p : Plan) (task : AssetTask) : p.tasks ⊆ (p.addTask task).tasks := by
  rw [addTask]
  split
  · exact List.Subset.refl _
  · exact List.subset_append_left _ _

theorem mem_addTask (p : Plan) (task : AssetTask) : task ∈ (p.addTask task).tasks := by
  rw [addTask]
  split
  · assumption
  · exact List.mem_append_right _ List.mem_cons_self

theorem mem_tasks_of_mem_addTask {p : Plan} {task t : AssetTask}
    (h : t ∈ (p.addTask task).tasks) : t ∈ p.tasks ∨ t = task := by
  rw [addTask] at h
  split at h
  · exact .inl h
  · exact (List.mem_append.1 h).imp_right List.mem_singleton.1

theorem subset_addFile (p : Plan) (n : Naming) (path : String) :
    p.tasks ⊆ (p.addFile n path).1.tasks := by
  unfold addFile
  dsimp only
  refine List.Subset.trans ?_ (subset_addTask _ _)
  split
  · split
    · exact subset_addTask _ _
    · exact List.Subset.refl _
  · exact List.Subset.refl _

/-- Where a file is asked for, no other file is planned. -/
theorem file_of_mem_addFile {p : Plan} {n : Naming} {path other name : String}
    (h : .file other name ∈ (p.addFile n path).1.tasks) :
    .file other name ∈ p.tasks ∨ other = path := by
  obtain hbefore | hnew := mem_tasks_of_mem_addTask h
  · refine .inl ?_
    dsimp only at hbefore
    split at hbefore
    · split at hbefore
      · exact (mem_tasks_of_mem_addTask hbefore).resolve_right nofun
      · exact hbefore
    · exact hbefore
  · exact .inr (AssetTask.file.inj hnew).1

/-- The expression for a file has the name with which it is planned. -/
theorem exists_addFile (p : Plan) (n : Naming) (path : String) :
    ∃ name, .file path name ∈ (p.addFile n path).1.tasks ∧
      (p.addFile n path).2 = n.reference name :=
  ⟨_, mem_addTask _ _, rfl⟩

theorem subset_addDirectory (p : Plan) (n : Naming) (path : String) :
    p.tasks ⊆ (p.addDirectory n path).1.tasks := by
  unfold addDirectory
  refine List.Subset.trans ?_ (subset_addTask _ _)
  exact List.Subset.refl _

/-- Where a directory is asked for, no file is planned. -/
theorem file_of_mem_addDirectory {p : Plan} (n : Naming) (path : String) {other name : String}
    (h : .file other name ∈ (p.addDirectory n path).1.tasks) : .file other name ∈ p.tasks :=
  (mem_tasks_of_mem_addTask h).resolve_right nofun

/-- The expression for a directory has the name with which it is planned. -/
theorem exists_addDirectory (p : Plan) (n : Naming) (path : String) :
    ∃ name, .directory path name ∈ (p.addDirectory n path).1.tasks ∧
      (p.addDirectory n path).2 = n.reference name :=
  ⟨_, mem_addTask _ _, rfl⟩

end Plan

/-! ## Drafts -/

section

variable {w : WalkSetting} {root : Tree} {tasks tasks' : List AssetTask} {text : String}
  {names : List String} {span : Span}

theorem Referent.Written.mono {ctx : ModuleContext} {loadsBinary : Bool} {referent : Referent}
    (htasks : tasks ⊆ tasks') (h : referent.Written ctx tasks loadsBinary text names) :
    referent.Written ctx tasks' loadsBinary text names := by
  cases h with
  | file h => exact .file (htasks h)
  | binary h => exact .binary (htasks h)
  | directory h => exact .directory (htasks h)
  | literal text => exact .literal text

theorem Candidate.Replaced.mono {ctx : ModuleContext} {source : String} {c : Candidate}
    (htasks : tasks ⊆ tasks') (h : c.Replaced ctx source tasks text names) :
    c.Replaced ctx source tasks' text names := by
  cases h with
  | single hdirectory houtcome hvalue hliteral htext =>
    exact .single hdirectory houtcome hvalue hliteral (htext.mono htasks)
  | either hdirectory houtcome hfirst hsecond hkind htext htext' =>
    exact .either hdirectory houtcome hfirst hsecond hkind (htext.mono htasks) (htext'.mono htasks)

namespace Walk

/-- What may be written stays so when more assets are planned. -/
theorem Splices.mono {E : Environment → Prop} {t : Tree} (htasks : tasks ⊆ tasks')
    (h : Splices w E tasks t span text names) : Splices w E tasks' t span text names := by
  cases h with
  | candidate hc htext => exact .candidate hc (htext.mono htasks)
  | shorthand henv hname htext => exact .shorthand henv hname (htext.mono htasks)
  | loader henv halias => exact .loader henv halias
  | shorthandLoader henv halias => exact .shorthandLoader henv halias
  | fallback hloader hright => exact .fallback hloader hright
  | unknownLoad hloader => exact .unknownLoad hloader
  | addon hloader hvalue hbinary htask => exact .addon hloader hvalue hbinary (htasks htask)
  | addons hloader hvalue hbinary hbinary' htask htask' =>
    exact .addons hloader hvalue hbinary hbinary' (htasks htask) (htasks htask')
  | specifier hloader hvalue => exact .specifier hloader hvalue
  | specifiers hloader hvalue => exact .specifiers hloader hvalue
  | packageInfo members henv hcallee => exact .packageInfo members henv hcallee
  | resolveFrom hcallee hdirectory => exact .resolveFrom hcallee hdirectory
  | singleAddon hcallee hvalue hrelative => exact .singleAddon hcallee hvalue hrelative
  | mainModule henv hmain hentry => exact .mainModule henv hmain hentry
  | notMain henv hmain hentry => exact .notMain henv hmain hentry
  | chosenLoad hvalue => exact .chosenLoad hvalue
  | grammarBridge htarget => exact .grammarBridge htarget

theorem Rewrites.mono (htasks : tasks ⊆ tasks') (h : Rewrites w root tasks span text) :
    Rewrites w root tasks' span text := by
  obtain ⟨t, names, ht, htext⟩ := h
  exact ⟨t, names, ht, htext.mono htasks⟩

/-- What a walk over the tree writes. -/
def Writing.within (w : WalkSetting) (root : Tree) : Writing :=
  ⟨Rewrites w root, Inserts w root, Rewrites.mono⟩

end Walk

end

namespace Draft

theorem plan_overwrite (d : Draft) (span : Span) (text : String) :
    (d.overwrite span text).plan = d.plan := by
  rw [overwrite]
  split <;> rfl

theorem plan_appendRight (d : Draft) (position : Nat) (text : String) :
    (d.appendRight position text).plan = d.plan := by
  rw [appendRight]
  split <;> rfl

/-- The second draft comes from the first by edits and by asking for assets. -/
inductive Grows (d : Draft) : Draft → Prop
  | refl : Grows d d
  | overwrite {d' : Draft} (h : Grows d d') (span : Span) (text : String) :
    Grows d (d'.overwrite span text)
  | appendRight {d' : Draft} (h : Grows d d') (position : Nat) (text : String) :
    Grows d (d'.appendRight position text)
  | addFile {d' : Draft} (h : Grows d d') (n : Naming) (path : String) :
    Grows d (d'.addFile n path).1
  | addDirectory {d' : Draft} (h : Grows d d') (n : Naming) (path : String) :
    Grows d (d'.addDirectory n path).1

variable {d d' d'' : Draft}

namespace Grows

theorem trans (h : d.Grows d') (h' : d'.Grows d'') : d.Grows d'' := by
  induction h' with
  | refl => exact h
  | overwrite _ span text ih => exact ih.overwrite span text
  | appendRight _ position text ih => exact ih.appendRight position text
  | addFile _ n path ih => exact ih.addFile n path
  | addDirectory _ n path ih => exact ih.addDirectory n path

theorem tasks_subset (h : d.Grows d') : d.plan.tasks ⊆ d'.plan.tasks := by
  induction h with
  | refl => exact List.Subset.refl _
  | overwrite _ _ _ ih => rwa [plan_overwrite]
  | appendRight _ _ _ ih => rwa [plan_appendRight]
  | addFile _ n path ih => exact List.Subset.trans ih (Plan.subset_addFile _ n path)
  | addDirectory _ n path ih => exact List.Subset.trans ih (Plan.subset_addDirectory _ n path)

end Grows

namespace Edits

variable {w : WalkSetting} {may : Walk.Writing}

theorem trans (h : d.Edits w may d') (h' : d'.Edits w may d'') : d.Edits w may d'' := by
  induction h' with
  | refl => exact h
  | overwrite _ htext ih => exact ih.overwrite htext
  | appendRight _ htext ih => exact ih.appendRight htext
  | addFile _ hpath ih => exact ih.addFile hpath
  | addDirectory _ hpath ih => exact ih.addDirectory hpath

/-- What may be written by one walk may be written by another. -/
theorem mono {may' : Walk.Writing} (hrewrites : ∀ {tasks span text},
      may.rewrites tasks span text → may'.rewrites tasks span text)
    (hinserts : ∀ {position text}, may.inserts position text → may'.inserts position text)
    (h : d.Edits w may d') : d.Edits w may' d' := by
  induction h with
  | refl => exact .refl
  | overwrite _ htext ih => exact ih.overwrite (hrewrites htext)
  | appendRight _ htext ih => exact ih.appendRight (hinserts htext)
  | addFile _ hpath ih => exact ih.addFile hpath
  | addDirectory _ hpath ih => exact ih.addDirectory hpath

theorem grows (h : d.Edits w may d') : d.Grows d' := by
  induction h with
  | refl => exact .refl
  | overwrite _ _ ih => exact ih.overwrite _ _
  | appendRight _ _ ih => exact ih.appendRight _ _
  | addFile _ _ ih => exact ih.addFile _ _
  | addDirectory _ _ ih => exact ih.addDirectory _ _

/-- **The overwrites that a walk adds are rewritings.** Those that were there
before may have been covered since. -/
theorem rewrites (h : d.Edits w may d') {o : Overwrite} (ho : o ∈ d'.patch.overwrites) :
    o ∈ d.patch.overwrites ∨ may.rewrites d'.plan.tasks o.span o.text := by
  induction h with
  | refl => exact .inl ho
  | overwrite h htext ih =>
    rw [plan_overwrite]
    unfold Draft.overwrite at ho
    split at ho
    · rename_i heq
      obtain ⟨-, -, -, rfl⟩ := Patch.overwrite_eq_ok heq
      obtain hold | hnew := List.mem_append.1 ho
      · exact ih (List.mem_filter.1 hold).1
      · exact .inr (List.mem_singleton.1 hnew ▸ htext)
    · exact ih ho
  | appendRight h _ ih =>
    rw [plan_appendRight]
    unfold Draft.appendRight at ho
    split at ho
    · rename_i heq
      obtain ⟨-, -, rfl⟩ := Patch.appendRight_eq_ok heq
      exact ih ho
    · exact ih ho
  | addFile h hpath ih =>
    exact (ih ho).imp_right (may.mono (Plan.subset_addFile _ (Referent.naming w.ctx) _))
  | addDirectory h hpath ih =>
    exact (ih ho).imp_right (may.mono (Plan.subset_addDirectory _ (Referent.naming w.ctx) _))

/-- So are the insertions. -/
theorem inserts (h : d.Edits w may d') {i : Insertion} (hi : i ∈ d'.patch.insertions) :
    i ∈ d.patch.insertions ∨ may.inserts i.position i.text := by
  induction h with
  | refl => exact .inl hi
  | overwrite h htext ih =>
    unfold Draft.overwrite at hi
    split at hi
    · rename_i heq
      obtain ⟨-, -, -, rfl⟩ := Patch.overwrite_eq_ok heq
      exact ih (List.mem_filter.1 hi).1
    · exact ih hi
  | appendRight h htext ih =>
    unfold Draft.appendRight at hi
    split at hi
    · rename_i heq
      obtain ⟨-, -, rfl⟩ := Patch.appendRight_eq_ok heq
      obtain hold | hnew := List.mem_append.1 hi
      · exact ih hold
      · exact .inr (List.mem_singleton.1 hnew ▸ htext)
    · exact ih hi
  | addFile h hpath ih => exact ih hi
  | addDirectory h hpath ih => exact ih hi

end Edits

end Draft

namespace Draft

variable {d d' d'' : Draft} {w : WalkSetting} {may may' : Walk.Writing}
  {references more : List String}

theorem Plans.trans (h : d.Plans w references d') (h' : d'.Plans w more d'') :
    d.Plans w (references ++ more) d'' := by
  induction h' with
  | nothing =>
    rw [List.append_nil]
    exact h
  | addFile _ hpath ih =>
    rw [← List.append_assoc]
    exact ih.addFile hpath
  | addDirectory _ hpath ih =>
    rw [← List.append_assoc]
    exact ih.addDirectory hpath

theorem Plans.edits (h : d.Plans w references d') : d.Edits w may d' := by
  induction h with
  | nothing => exact .refl
  | addFile _ hpath ih => exact ih.addFile hpath
  | addDirectory _ hpath ih => exact ih.addDirectory hpath

/-- What may be written by one walk may be written by another. -/
theorem Moves.mono (hrewrites : ∀ {tasks span text}, may.rewrites tasks span text →
      may'.rewrites tasks span text)
    (hinserts : ∀ {position text}, may.inserts position text → may'.inserts position text)
    (h : d.Moves w may d') : d.Moves w may' d' := by
  cases h with
  | overwrite h htext hall => exact .overwrite h (hrewrites htext) hall
  | appendRight htext => exact .appendRight (hinserts htext)

/-- A walk that moves on edits. -/
theorem Moves.edits (h : d.Moves w may d') : d.Edits w may d' := by
  cases h with
  | overwrite h htext _ => exact h.edits.overwrite htext
  | appendRight htext => exact Edits.refl.appendRight htext

end Draft

/-! ## Replacements -/

variable {w : WalkSetting} {may : Walk.Writing}

theorem Loader.occurs_dynamicLoad (argument : String) :
    Text.Occurs argument (dynamicLoad argument) :=
  ((Text.Occurs.refl argument).append_right _).append_left ")"

/-- What is referred to is asked for, and the expression for it is in the text. -/
theorem Referent.plans_refer {v : Value} {referent : Referent}
    (hvalue : ofValue? w.ctx v = some referent) (loadsBinary : Bool) (d : Draft) :
    ∃ references, d.Plans w references (referent.refer w.ctx loadsBinary d).1 ∧
      ∀ reference ∈ references, Text.Occurs reference (referent.refer w.ctx loadsBinary d).2 := by
  cases referent with
  | file path =>
    refine ⟨_, .addFile .nothing (.inl ⟨v, hvalue⟩), fun reference h => ?_⟩
    obtain rfl := List.mem_singleton.1 h
    rw [refer]
    dsimp only
    split
    · exact Loader.occurs_dynamicLoad _
    · exact .refl _
  | directory path =>
    refine ⟨_, .addDirectory .nothing hvalue, fun reference h => ?_⟩
    obtain rfl := List.mem_singleton.1 h
    exact .refl _
  | literal text => exact ⟨[], .nothing, List.forall_mem_nil _⟩

theorem Referent.subset_refer (ctx : ModuleContext) (loadsBinary : Bool) (d : Draft)
    (referent : Referent) :
    d.plan.tasks ⊆ (referent.refer ctx loadsBinary d).1.plan.tasks := by
  cases referent with
  | file path => exact d.plan.subset_addFile _ _
  | directory path => exact d.plan.subset_addDirectory (naming ctx) path
  | literal text => exact List.Subset.refl _

theorem Referent.written_refer (ctx : ModuleContext) (loadsBinary : Bool) (d : Draft)
    (referent : Referent) :
    ∃ names, referent.Written ctx (referent.refer ctx loadsBinary d).1.plan.tasks loadsBinary
      (referent.refer ctx loadsBinary d).2 names := by
  cases referent with
  | file path =>
    obtain ⟨name, htask, hreference⟩ := d.plan.exists_addFile (naming ctx) path
    have htext : (refer ctx loadsBinary d (file path)).2 =
        if loadsBinary then Loader.dynamicLoad ((naming ctx).reference name)
          else (naming ctx).reference name := by
      rw [← hreference]
      rfl
    rw [htext]
    cases loadsBinary with
    | true => exact ⟨_, .binary htask⟩
    | false => exact ⟨_, .file htask⟩
  | directory path =>
    obtain ⟨name, htask, hreference⟩ := d.plan.exists_addDirectory (naming ctx) path
    have htext : (refer ctx loadsBinary d (directory path)).2 = (naming ctx).reference name :=
      hreference
    rw [htext]
    exact ⟨_, .directory htask⟩
  | literal text => exact ⟨_, .literal text⟩

/-- Where nothing takes the place of a candidate, nothing is asked for. -/
theorem Candidate.replacement_none {ctx : ModuleContext} {source : String} {d d' : Draft}
    {c : Candidate} (h : c.replacement ctx source d = (d', none)) : d' = d := by
  unfold replacement at h
  split at h
  · exact (congrArg Prod.fst h).symm
  split at h
  · split at h
    · exact (congrArg Prod.fst h).symm
    · exact (congrArg Prod.fst h).symm
    · cases congrArg Prod.snd h
  · split at h
    · split at h
      · cases congrArg Prod.snd h
      · exact (congrArg Prod.fst h).symm
    · exact (congrArg Prod.fst h).symm

/-- A replacement has the expressions for all that it asks for. -/
theorem Candidate.plans_replacement {d d' : Draft} {c : Candidate} {text : String}
    (h : c.replacement w.ctx w.source d = (d', some text)) :
    ∃ references, d.Plans w references d' ∧
      ∀ reference ∈ references, Text.Occurs reference text := by
  unfold replacement at h
  split at h
  · cases congrArg Prod.snd h
  split at h
  · split at h
    · cases congrArg Prod.snd h
    · cases congrArg Prod.snd h
    · rename_i hvalue
      cases h
      exact Referent.plans_refer hvalue _ d
  · split at h
    · rename_i hfirst hsecond
      split at h
      · cases h
        obtain ⟨references, hplans, hoccurs⟩ := Referent.plans_refer hfirst c.loadsBinary d
        obtain ⟨references', hplans', hoccurs'⟩ :=
          Referent.plans_refer hsecond c.loadsBinary (Referent.refer w.ctx c.loadsBinary d _).1
        refine ⟨_, hplans.trans hplans', fun reference hreference => ?_⟩
        obtain hmem | hmem := List.mem_append.1 hreference
        · exact (((hoccurs reference hmem).append_right _).append_left " : ").append_left _
        · exact (hoccurs' reference hmem).append_right _
      · cases congrArg Prod.snd h
    · cases congrArg Prod.snd h

/-- A replacement is a text for the candidate's value. -/
theorem Candidate.replaced_replacement {d : Draft} {c : Candidate} {text : String}
    (h : (c.replacement w.ctx w.source d).2 = some text) :
    ∃ names, c.Replaced w.ctx w.source (c.replacement w.ctx w.source d).1.plan.tasks text names := by
  unfold replacement at h ⊢
  split at h
  · cases h
  rename_i hdirectory
  rw [if_neg hdirectory]
  have hdirectory : c.isDirectoryName = false := Bool.not_eq_true _ ▸ hdirectory
  split at h
  · rename_i v houtcome
    split at h
    · cases h
    · cases h
    · rename_i referent hliteral hvalue
      cases h
      obtain ⟨names, htext⟩ := Referent.written_refer w.ctx c.loadsBinary d referent
      exact ⟨names, .single hdirectory houtcome hvalue hliteral htext⟩
  · rename_i test a b houtcome
    split at h
    · rename_i first second hfirst hsecond
      split at h
      · rename_i hkind
        rw [if_pos hkind]
        obtain ⟨names, htext⟩ := Referent.written_refer w.ctx c.loadsBinary d first
        obtain ⟨names', htext'⟩ := Referent.written_refer w.ctx c.loadsBinary
          (first.refer w.ctx c.loadsBinary d).1 second
        rw [← Option.some.inj h]
        exact ⟨_, .either hdirectory houtcome hfirst hsecond hkind
          (htext.mono (second.subset_refer w.ctx c.loadsBinary _)) htext'⟩
      · cases h
    · cases h

/-- **Relocating a candidate is a move**, if it does anything, of a walk that may write what
replaces the candidate. -/
theorem Candidate.moves_relocate {c : Candidate}
    (hmay : ∀ {tasks text names}, c.Replaced w.ctx w.source tasks text names →
      may.rewrites tasks c.span text) (d : Draft) :
    c.relocate w.ctx w.source d = d ∨ d.Moves w may (c.relocate w.ctx w.source d) := by
  rw [relocate]
  split
  · rename_i d' text heq
    obtain ⟨references, hplans, hoccurs⟩ := plans_replacement heq
    obtain ⟨names, hreplaced⟩ := replaced_replacement (congrArg Prod.snd heq)
    rw [heq] at hreplaced
    exact .inr (.overwrite hplans (hmay hreplaced) hoccurs)
  · rename_i heq
    exact .inl (replacement_none heq)

end ModuleAssets
