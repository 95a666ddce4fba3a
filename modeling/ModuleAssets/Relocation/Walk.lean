import ModuleAssets.Relocation.Candidate
import ModuleAssets.Relocation.Wrapper
/-!
# The walk — a module from its start to its end

The walk visits every part of a module in order. It keeps the environment up
to date, recognizes the forms in which modules and binaries are loaded, and
lets candidates grow from the inside out. An expression that turned into a
candidate is visited no further.

`walk` gives the candidate that an expression is, for the expression around
it to grow. `settle` ends the growth: it puts the candidate's replacement into
the draft.
-/

namespace ModuleAssets

open Syntax
open SpecialCase (argumentExpression)

/-- What stays the same during a walk. -/
structure WalkSetting where
  ctx : ModuleContext
  /-- The text of the module. -/
  source : String
  grammar : Grammar
  scopes : ScopeTree
  /-- The module is the entry of the build. -/
  isEntry : Bool

/-- What the walk has learnt so far. -/
structure WalkState where
  env : Environment
  draft : Draft
  /-- The program sets the engine for its views itself. -/
  engineIsSet : Bool

/-- A step of a walk. -/
abbrev Walk (α : Type) := StateM WalkState α

/-- Where an expression stands in the one around it. -/
inductive Site where
  | value
  /-- It is called. -/
  | callee
  /-- It is the operand of an operator. -/
  | operand
deriving DecidableEq, Inhabited

/-- How the walk goes on with a call. -/
inductive CallStep where
  /-- Nothing in it needs a visit. -/
  | done
  /-- The call is a candidate. -/
  | leaf (candidate : Candidate)
  /-- Only the arguments need a visit. -/
  | visitArguments
  /-- Only the last argument needs a visit. -/
  | visitLast
  /-- It is an expression like others. -/
  | descend

namespace Walk

/-! ## Single steps -/

/-- Changes the environment. -/
def modifyEnv (f : Environment → Environment) : Walk Unit :=
  modify fun s => { s with env := f s.env }

/-- Changes the draft. -/
def modifyDraft (f : Draft → Draft) : Walk Unit :=
  modify fun s => { s with draft := f s.draft }

/-- Puts `text` in the place of `span`. -/
def overwrite (span : Span) (text : String) : Walk Unit :=
  modifyDraft (·.overwrite span text)

/-- The environment. -/
def env : Walk Environment := do
  return (← get).env

/-- A file is needed. The answer is the expression for it. -/
def addFile (w : WalkSetting) (path : String) : Walk String := fun s =>
  let (draft, reference) := s.draft.addFile (Referent.naming w.ctx) path
  (reference, { s with draft })

/-- The text of a span. -/
def text (w : WalkSetting) (span : Span) : String :=
  (Text.slice? w.source span).getD ""

/-- Evaluates an expression. -/
def evaluate (w : WalkSetting) (t : Tree) : Walk (Evaluation Outcome) := do
  return t.evaluate w.ctx (← env)

/-- The single value that an expression is known to have. -/
def known? (w : WalkSetting) (t : Tree) : Walk (Option Value) := do
  return (← evaluate w t).single.value

/-- The expression reads the loader. -/
def isLoader (w : WalkSetting) (t : Tree) : Walk Bool := do
  return Loader.isLoader w.grammar (← env) t

/-- The expression is a member of the loader. -/
def isLoaderMember (w : WalkSetting) (name : String) (t : Tree) : Walk Bool := do
  return Loader.isLoaderMember w.grammar (← env) name t

/-- The specifier of a call that loads a module by its literal name. -/
def requiredSpecifier? (w : WalkSetting) (t : Tree) : Walk (Option String) := do
  return Loader.requiredSpecifier? w.grammar (← env) t

/-- The known module that an expression loads. -/
def requiredModule? (w : WalkSetting) (t : Tree) : Walk (Option KnownModule) := do
  return Loader.requiredModule? w.grammar (← env) t

/-- The candidate grows no more. -/
def relocate (w : WalkSetting) (c : Candidate) : Walk Unit :=
  modifyDraft (c.relocate w.ctx w.source)

/-- Runs a step inside the scope that a node opens. -/
def withScope {α : Type} (w : WalkSetting) (kind : ScopeKind) (span : Span) (step : Walk α) :
    Walk α := do
  match w.scopes.lookup kind span with
  | some scope =>
    modifyEnv (·.enter scope)
    let answer ← step
    modifyEnv (·.leave scope)
    return answer
  | none => step

/-! ## Names -/

/-- What reading the loader becomes, unless it is called or only its type is
asked for. A program that has a dynamic loader already gets the loader. -/
def loaderAlias? (w : WalkSetting) (env : Environment) (name : String) (site : Site) :
    Option String :=
  if w.grammar = .module_ ∨ site = .operand then none
  else if name = Environment.loaderName ∧ site = .value ∧ env.loaderVisible then
    some Loader.dynamicName
  else if name = Loader.dynamicName then some "eval(\"require\")"
  else none

/-- Reads a name. -/
def identifier (w : WalkSetting) (site : Site) (name : String) (span : Span) :
    Walk (Option Candidate) := do
  match Candidate.ofName? (← env) name span with
  | some c => return some c
  | none =>
    match loaderAlias? w (← env) name site with
    | some loader => overwrite span loader
    | none => pure ()
    return none

/-- Reads a name that is also the key of a property, which has to stay. -/
def shorthand (w : WalkSetting) (name : String) (span : Span) : Walk Unit := do
  match Candidate.ofName? (← env) name span with
  | some c =>
    match c.replacement w.ctx w.source (← get).draft with
    | (draft, some text) => modifyDraft fun _ => draft.overwrite span (name ++ ": " ++ text)
    | (draft, none) => modifyDraft fun _ => draft
  | none =>
    match loaderAlias? w (← env) name .value with
    | some loader => overwrite span (name ++ ": " ++ loader)
    | none => pure ()

/-- The names now hold something unknown. -/
def invalidateAll (names : List String) : Walk Unit :=
  modifyEnv fun env => names.foldl Environment.invalidate env

/-- The name now holds the value, or something unknown. -/
def assign (name : String) (value : Option Value) : Walk Unit :=
  modifyEnv fun env =>
    match value with
    | some v => env.define name v
    | none => env.invalidate name

/-- The names of one member of a pattern now hold the members of an object, as
far as these are known. -/
def assignMember (member? : String → Option Value) : Tree → Walk Unit
  | .node (.propertyPattern key) _ parts =>
    let target := parts.getLast?.getD default
    let names := target.boundNames
    match key with
    | .name k | .text (some k) =>
      match target.kind with
      | .binding name => assign name (member? k)
      | _ => invalidateAll names
    | .text none => pure ()
    | _ => invalidateAll names
  | .node (.shorthandPattern name) _ [] => assign name (member? name)
  | t => invalidateAll t.boundNames

/-- The names of a pattern now hold the members of an object, as far as these
are known. -/
def assignMembers (member? : String → Option Value) : List Tree → Walk Unit
  | [] => pure ()
  | t :: rest => do
    assignMember member? t
    assignMembers member? rest

/-- The names of a pattern now hold parts of a module that was loaded. -/
def assignModule (m : KnownModule) (pattern : Tree) : Walk Unit :=
  match pattern with
  | .node (.binding name) _ _ => assign name m.defaultExport
  | .node .objectPattern _ members => assignMembers m.export? members
  | t => invalidateAll t.boundNames

/-! ## Calls -/

/-- The addon that a specifier names, if it is there. -/
def nativeBinary? (ctx : ModuleContext) (specifier : String) : Option String :=
  if Text.endsWith specifier Addon.ending then
    let path? :=
      if Path.isAbsolute specifier then some (Path.normalize specifier)
      else if Text.startsWith specifier "./" || Text.startsWith specifier "../" then
        Path.resolve [ctx.directory, specifier]
      else none
    path?.bind fun path => if ctx.files.isFile path then some path else none
  else none

/-- The text that an unknown argument of the loader falls back to: a literal
after `||`. -/
def fallback? (argument : Tree) : Option Tree :=
  match argument with
  | .node (.binary .or) _ [left, right] =>
    match left.kind, right.kind with
    | .identifier _, .text _ => some right
    | _, _ => none
  | _ => none

/-- A call of the loader with an unknown argument is left to the run. -/
def unknownLoad (w : WalkSetting) (callee argument : Tree) : Walk CallStep :=
  match fallback? argument with
  | some right => do
    overwrite argument.span (text w right.span)
    return .done
  | none => do
    overwrite callee.span Loader.dynamicName
    return .visitArguments

/-- A call of the loader. A known specifier is written out, and a native
addon is loaded from its place among the assets. -/
def loaderCall (w : WalkSetting) (span : Span) (callee argument : Tree) : Walk CallStep := do
  let expression := argumentExpression argument
  let evaluation ←
    if argument.kind = .spread then pure .unknown else evaluate w expression
  match evaluation.value with
  | none => unknownLoad w callee expression
  | some (.single (.text specifier)) =>
    match nativeBinary? w.ctx specifier with
    | some binary => overwrite span (Loader.dynamicLoad (← addFile w binary))
    | none =>
      if evaluation.facts.readsName then overwrite expression.span (Json.quote specifier)
    return .done
  | some (.either test (.text first) (.text second)) =>
    let guard := text w test
    match nativeBinary? w.ctx first, nativeBinary? w.ctx second with
    | some a, some b =>
      let a ← addFile w a
      let b ← addFile w b
      overwrite span (guard ++ " ? " ++ Loader.dynamicLoad a ++ " : " ++ Loader.dynamicLoad b)
    | _, _ =>
      if evaluation.facts.readsName then
        overwrite expression.span (guard ++ " ? " ++ Json.quote first ++ " : " ++ Json.quote second)
    return .done
  | some _ => return .done

/-- The binary that a call of the finder by name gives. -/
def bindingsCall? (w : WalkSetting) (span : Span) (arguments : List Tree) :
    Walk (Option Candidate) := do
  let request ←
    match arguments with
    | [] => pure (some (Value.text "bindings"))
    | first :: _ => if first.kind = .spread then pure none else known? w first
  let found :=
    w.ctx.packageRoot.bind fun root =>
      request.bind (Addon.byName? w.ctx.files root w.ctx.options.nodeAbi)
  return found.map fun f => { Candidate.ofValue span (.text f.path) with loadsBinary := f.isLoaded }

/-- The texts that an argument gives: one, or the items of an array. -/
def keysOf? : Option Value → Option (List String)
  | some (.text key) => some [key]
  | some (.array items) => items.mapM Value.text?
  | _ => none

/-- The texts that some arguments give. -/
def keysOfAll? (w : WalkSetting) (env : Environment) (arguments : List Tree) :
    Option (List String) :=
  (arguments.mapM fun a =>
    keysOf? ((argumentExpression a).evaluate w.ctx env).single.value).map List.flatten

/-- A call that adds the description of the package to the module's exports.
The answer tells whether it is one. -/
def packageInfo (w : WalkSetting) (span : Span) (arguments : List Tree) : Walk Bool := do
  let env ← env
  let members? : Option (List (String × Json)) := do
    let (first, rest) ←
      match arguments with
      | first :: rest => some (first, rest)
      | [] => none
    if (argumentExpression first).isIdentifier "module" then
      let scope ← w.ctx.packageScope
      let description ← Package.description? w.ctx.files scope
      let keys ← keysOfAll? w env rest
      some (if keys = [] then description else description.filter fun m => keys.contains m.1)
    else none
  match members? with
  | some members =>
    overwrite span ("Object.assign(module.exports, " ++ (Json.object members).compact ++ ")")
    return true
  | none => return false

/-- A call that finds a module from the module's own directory becomes one of
the loader. The answer tells whether it is one. -/
def resolveFrom (w : WalkSetting) (span : Span) (arguments : List Tree) : Walk Bool := do
  match arguments with
  | [directory, target] =>
    if directory.kind = .spread ∨ target.kind = .spread then return false
    else
      match ← known? w directory with
      | some (.text d) =>
        if d = w.ctx.directory then
          overwrite ⟨span.start, target.span.start⟩ "require.resolve("
          return true
        else return false
      | _ => return false
  | _ => return false

/-- A call that loads the one addon of a package becomes a direct load. The
answer tells whether the addon is found. -/
def loadSingle (w : WalkSetting) (call : Tree) : Walk Bool := do
  match ← known? w call with
  | some (.text binary) =>
    match Path.relative w.ctx.directory binary with
    | some relative =>
      let relative := if Text.startsWith relative "." then relative else "./" ++ relative
      let specifier := Json.quote relative
      overwrite call.span
        ("(\x7b bind: require(" ++ specifier ++ ").NBind.bind_value, lib: require(" ++ specifier
          ++ ") \x7d)")
      return true
    | none => return false
  | _ => return false

/-- A call of a method of an application. The first engine for views that is
named is also registered, unless the program sets one before. -/
def applicationCall (w : WalkSetting) (method : String) (application : Tree)
    (arguments : List Tree) : Walk Unit := do
  if method = "engine" then modify fun s => { s with engineIsSet := true }
  else if method = "set" ∧ (← get).engineIsSet = false then
    match arguments with
    | [key, engine] =>
      match ← known? w (argumentExpression key) with
      | some (.text "view engine") =>
        let name := text w (argumentExpression engine).span
        modifyDraft
          (·.appendRight application.span.stop
            (".engine(" ++ name ++ ", require(" ++ name ++ ").__express)"))
      | _ => pure ()
    | _ => pure ()

/-- A call of something that was loaded by its name. -/
def loadedCall? (w : WalkSetting) (span : Span) (callee : Tree) (arguments : List Tree) :
    Walk (Option CallStep) := do
  match ← requiredSpecifier? w callee with
  | some "bindings" => return (← bindingsCall? w span arguments).map .leaf
  | some "pkginfo" => return if ← packageInfo w span arguments then some .done else none
  | _ => return none

/-- A call of the loader's function that finds modules. -/
def resolveCall? (w : WalkSetting) (call callee : Tree) : Walk (Option CallStep) := do
  if ← isLoaderMember w "resolve" callee then
    match ← known? w call with
    | some (.text path) => return some (.leaf (.ofValue call.span (.text path)))
    | _ => return none
  else return none

/-- A call of a known function with a form of its own. -/
def builtinCall? (w : WalkSetting) (call callee : Tree) (arguments : List Tree) :
    Walk (Option CallStep) := do
  match ← known? w callee with
  | some (.builtin .resolveFrom) =>
    return if ← resolveFrom w call.span arguments then some .visitLast else none
  | some (.builtin .nbindInit) => return if ← loadSingle w call then some .done else none
  | _ => return none

/-- How the walk goes on with a call. -/
def call (w : WalkSetting) (call callee : Tree) (arguments : List Tree) : Walk CallStep := do
  if callee.kind = .importCallee ∨ callee.kind = .super then return .descend
  else
    match ← isLoader w callee, arguments with
    | true, first :: _ => loaderCall w call.span callee first
    | _, _ =>
      if let some step ← loadedCall? w call.span callee arguments then return step
      if let some step ← resolveCall? w call callee then return step
      if let some step ← builtinCall? w call callee arguments then return step
      match callee with
      | .node (.member method) _ [application] =>
        match ← known? w application with
        | some (.builtin .expressApp) => applicationCall w method application arguments
        | _ => pure ()
      | _ => pure ()
      return .descend

/-! ## Other forms -/

/-- The comparison of the loader's main module with the module itself. The
answer tells whether the main module stands left. -/
def entryCheck? (w : WalkSetting) (env : Environment) (op : BinaryOp) (left right : Tree) :
    Option Bool :=
  let isMain := Loader.isLoaderMember w.grammar env "main"
  if op = .equal ∨ op = .strictEqual then
    if isMain left && right.isIdentifier "module" then some true
    else if isMain right && left.isIdentifier "module" then some false
    else none
  else none

/-- Asks whether the module is the entry of the build. -/
def entryCheck (w : WalkSetting) (span : Span) (module_ : Tree) : Walk Unit :=
  if w.isEntry then
    overwrite module_.span (Loader.dynamicName ++ ".cache[eval('__filename')]")
  else overwrite span "false"

/-- A conditional between two loads by name whose test is known becomes the
one that is chosen. The answer tells whether it is one. -/
def conditionalLoad (w : WalkSetting) (span : Span) (test first second : Tree) : Walk Bool := do
  match ← requiredSpecifier? w first, ← requiredSpecifier? w second, ← known? w test with
  | some _, some _, some v =>
    overwrite span (text w (if v.truthy then first else second).span)
    return true
  | _, _, _ => return false

/-- The expression loads modules through a library for the other grammar. -/
def isGrammarBridge (w : WalkSetting) (t : Tree) : Walk Bool := do
  match t with
  | .node .call _ (callee :: _) => return (← requiredSpecifier? w callee) == some "esm"
  | _ => return false

/-- The names that an assignment to a pattern writes. -/
def assignedNames (target : Tree) : List String :=
  match target.kind with
  | .arrayPattern | .objectPattern => target.boundNames
  | _ => []

/-! ## The walk itself -/

/-- A candidate grows to the whole expression around it if that has a known
value, unless another candidate was `tried` before. Else it grows no more. -/
def grow (w : WalkSetting) (whole : Tree) (tried : Bool) :
    Option Candidate → Walk (Option Candidate)
  | none => pure none
  | some c => do
    let evaluation ← if tried then pure .unknown else evaluate w whole
    match evaluation.value with
    | some outcome => return some ⟨whole.span, outcome, evaluation.facts.loadsBinary, false⟩
    | none =>
      relocate w c
      return none

/-- A candidate that a walk gives grows no more. -/
def settle (w : WalkSetting) (step : Walk (Option Candidate)) : Walk Unit := do
  match ← step with
  | some c => relocate w c
  | none => pure ()

mutual

/-- Walks an expression and gives the candidate that it is. Other parts of a
module are no candidates. -/
def walk (w : WalkSetting) (site : Site) : Tree → Walk (Option Candidate)
  | .node (.identifier name) span _ => identifier w site name span
  | .node (.shorthand name) span _ => do
    shorthand w name span
    return none
  | .node .call span (callee :: arguments) => do
    match ← call w (.node .call span (callee :: arguments)) callee arguments with
    | .done => return none
    | .leaf c => return some c
    | .visitArguments =>
      visitAll w arguments
      return none
    | .visitLast =>
      visitLast w arguments
      return none
    | .descend =>
      let candidate ← walk w .callee callee
      descend w (.node .call span (callee :: arguments)) false candidate arguments
  | .node (.member name) span [object] => do
    if ← isLoaderMember w "ensure" (.node (.member name) span [object]) then return none
    else descend w (.node (.member name) span [object]) false none [object]
  | .node (.binary op) span [left, right] => do
    match entryCheck? w (← env) op left right with
    | some mainIsLeft =>
      entryCheck w span (if mainIsLeft then right else left)
      if w.isEntry then
        if mainIsLeft then visitParts w left else visitParts w right
      return none
    | none => descend w (.node (.binary op) span [left, right]) false none [left, right]
  | .node .conditional span [test, first, second] => do
    if ← conditionalLoad w span test first second then return none
    else
      descend w (.node .conditional span [test, first, second]) false none [test, first, second]
  | .node (.assign op) span [target, value] => do
    match target.kind, op with
    | .binding name, none =>
      if name = Environment.loaderName then
        if ← isGrammarBridge w value then
          overwrite span ""
          return none
      match ← requiredModule? w value with
      | some m => assign name m.defaultExport
      | none =>
        let known ← known? w value
        settle w (walk w .value value)
        assign name known
    | .binding name, some _ =>
      modifyEnv (·.invalidate name)
      settle w (walk w .value value)
    | _, _ =>
      invalidateAll (assignedNames target)
      visitParts w target
      settle w (walk w .value value)
    return none
  | .node .update _ [operand] => do
    match operand.kind with
    | .identifier name => modifyEnv (·.invalidate name)
    | _ => visitParts w operand
    return none
  | .node (.unary op) span [operand] => do
    let candidate ← walk w .operand operand
    descend w (.node (.unary op) span [operand]) false candidate []
  | .node (.hiddenMember name) span parts =>
    descend w (.node (.hiddenMember name) span parts) false none parts
  | .node .computedMember span parts =>
    descend w (.node .computedMember span parts) false none parts
  | .node .paren span parts => descend w (.node .paren span parts) false none parts
  | .node (.template pieces) span parts =>
    descend w (.node (.template pieces) span parts) false none parts
  | .node (.function _) span parts => do
    withScope w .function span (visitAll w parts)
    return none
  | .node (.functionDeclaration _) span parts => do
    withScope w .function span (visitAll w parts)
    return none
  | .node .arrow span parts => do
    withScope w .function span (visitAll w parts)
    return none
  | .node .block span parts => do
    withScope w .block span (visitAll w parts)
    return none
  | .node .catch_ span parts => do
    withScope w .catch_ span (visitAll w parts)
    return none
  | .node .declaration _ [pattern, value] => do
    match ← requiredModule? w value with
    | some m => assignModule m pattern
    | none =>
      match pattern.kind with
      | .binding name =>
        let known ← known? w value
        settle w (walk w .value value)
        assign name known
      | .objectPattern =>
        let object ← known? w value
        settle w (walk w .value value)
        match object with
        | some (.object members) =>
          assignMembers (Value.object members).member? pattern.parts
        | _ => invalidateAll pattern.boundNames
        visitParts w pattern
      | _ =>
        invalidateAll pattern.boundNames
        visitParts w pattern
        settle w (walk w .value value)
    return none
  | .node _ _ parts => do
    visitAll w parts
    return none

/-- Goes on with an expression that may grow from its parts, given the
candidate that the part before is. The first candidate decides: if the whole
has a known value, it takes the candidate's place and the walk ends here, and
else this and all later candidates grow no more. -/
def descend (w : WalkSetting) (whole : Tree) (tried : Bool) (candidate : Option Candidate) :
    List Tree → Walk (Option Candidate)
  | [] => grow w whole tried candidate
  | part :: rest => do
    match ← grow w whole tried candidate with
    | some c => return some c
    | none =>
      let next ← walk w .value part
      descend w whole (tried || candidate.isSome) next rest

/-- Visits parts one after another. -/
def visitAll (w : WalkSetting) : List Tree → Walk Unit
  | [] => pure ()
  | t :: rest => do
    settle w (walk w .value t)
    visitAll w rest

/-- Visits the last of some parts. -/
def visitLast (w : WalkSetting) : List Tree → Walk Unit
  | [] => pure ()
  | [t] => settle w (walk w .value t)
  | _ :: t :: rest => visitLast w (t :: rest)

/-- Visits what a node is made of. -/
def visitParts (w : WalkSetting) : Tree → Walk Unit
  | .node _ _ parts => visitAll w parts

end

end Walk

end ModuleAssets
