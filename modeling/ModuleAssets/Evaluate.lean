import ModuleAssets.Environment
import ModuleAssets.Options
import ModuleAssets.Package.Addon
import ModuleAssets.Package.Resolution
import ModuleAssets.Value.Outcome
/-!
# Evaluation — what an expression is known to be

An expression is evaluated in advance from what the environment knows of
names. Nothing is guessed: where a part is not understood, or would depend on
the run, the whole is unknown. A conditional with an undecided test and two
known arms has two values. At most one such test is kept.

Besides the value an evaluation tells two facts, which hold of all the parts
that were looked at on the way, also when the whole is unknown: that a known
name was read, and that a native binary was found which the program loads.
-/

namespace ModuleAssets

/-- The module whose expressions are evaluated, and the files around it. -/
structure ModuleContext where
  /-- The path of the module. -/
  id : String
  /-- The directory of the module. -/
  directory : String
  /-- The installed package of the module. -/
  packageBase : Option String
  /-- The nearest directory with a description of a package. -/
  packageScope : Option String
  options : Options
  files : FileTree

namespace ModuleContext

/-- The directory in which the module's native binaries are looked for. -/
def packageRoot (ctx : ModuleContext) : Option String :=
  ctx.packageBase.or ctx.packageScope

end ModuleContext

/-- What was noticed on the way. -/
structure Facts where
  /-- A known name was read. -/
  readsName : Bool
  /-- A native binary was found that the program loads. -/
  loadsBinary : Bool
deriving DecidableEq, Inhabited

namespace Facts

/-- Nothing was noticed. -/
def none : Facts :=
  ⟨false, false⟩

/-- What was noticed before and after. -/
def and (a b : Facts) : Facts :=
  ⟨a.readsName || b.readsName, a.loadsBinary || b.loadsBinary⟩

end Facts

/-- An answer that may be missing, and the facts noticed on the way to it. -/
structure Evaluation (α : Type) where
  value : Option α
  facts : Facts
deriving Inhabited

namespace Evaluation

/-- An answer, or that there is none. -/
def ofOption {α : Type} (value : Option α) : Evaluation α :=
  ⟨value, Facts.none⟩

/-- There is no answer. -/
def unknown {α : Type} : Evaluation α :=
  ofOption none

/-- Goes on with an answer if there is one. -/
def bind {α β : Type} (x : Evaluation α) (f : α → Evaluation β) : Evaluation β :=
  match x.value with
  | some a => ⟨(f a).value, x.facts.and (f a).facts⟩
  | none => ⟨none, x.facts⟩

instance : Monad Evaluation where
  pure a := ofOption (some a)
  bind := bind

/-- Only an outcome with one value counts. -/
def single (x : Evaluation Outcome) : Evaluation Value :=
  ⟨x.value.bind Outcome.single?, x.facts⟩

/-- Reads a name. -/
def ofName (env : Environment) (name : String) : Evaluation Value :=
  match env.lookup? name with
  | some v => ⟨some v, ⟨true, false⟩⟩
  | none => unknown

end Evaluation

namespace Value

/-- What an operator gives for two values. Not all operators are
understood. -/
def binary? (op : Syntax.BinaryOp) (a b : Value) : Option Value :=
  let numbers? (f : Float → Float → Float) : Option Value :=
    a.toNumber?.bind fun x => b.toNumber?.map fun y => .number (f x y)
  let order? (holds : Ordering → Bool) : Option Value :=
    (a.compare? b).map fun o => .bool (o.any holds)
  match op with
  | .add =>
    match a, b with
    | .text _, _ | _, .text _ =>
      a.toText?.bind fun x => b.toText?.map fun y => .text (x ++ y)
    | _, _ => numbers? (· + ·)
  | .sub => numbers? (· - ·)
  | .mul => numbers? (· * ·)
  | .div => numbers? (· / ·)
  | .mod => numbers? Double.remainder
  | .equal => (a.looseEquals? b).map .bool
  | .notEqual => (a.looseEquals? b).map fun e => .bool (!e)
  | .strictEqual => (a.strictEquals? b).map .bool
  | .strictNotEqual => (a.strictEquals? b).map fun e => .bool (!e)
  | .less => order? (· == .lt)
  | .greater => order? (· == .gt)
  | .lessEqual => order? (· != .gt)
  | .greaterEqual => order? (· != .lt)
  | _ => none

/-- What an operator gives for one value. -/
def unary? (op : Syntax.UnaryOp) (a : Value) : Option Value :=
  match op with
  | .not => some (.bool !a.truthy)
  | .minus => a.toNumber?.map fun x => .number (-x)
  | .plus => a.toNumber?.map .number
  | .typeOf => some (.text a.typeName)
  | _ => none

/-- One text after another. -/
def concat? (a b : Value) : Option Value :=
  a.text?.bind fun x => b.toText?.map fun y => .text (x ++ y)

/-- Where `a && b`, `a || b` or `a ?? b` ends after its left value. -/
def endsAtLeft (op : Syntax.BinaryOp) (left : Value) : Bool :=
  match op with
  | .and => !left.truthy
  | .or => left.truthy
  | _ => !left.isNullish

end Value

namespace Builtin

/-- What a call gives, and whether it loads a native binary. -/
def call (ctx : ModuleContext) (b : Builtin) (arguments : List Value) : Evaluation Value :=
  match b with
  | .path f => .ofOption (f.call? arguments)
  | .os f => .ofOption (some f.call)
  | .requireResolve =>
    .ofOption <|
      (arguments.head?.bind Value.text?).bind fun specifier =>
        (Resolution.module? ctx.files specifier ctx.directory).map .text
  | .express => .ofOption (some (.builtin .expressApp))
  | .bindings =>
    let request := arguments.head?.getD (.text "bindings")
    let found :=
      ctx.packageRoot.bind fun root =>
        Addon.byName? ctx.files root ctx.options.nodeAbi request
    match found with
    | some f => ⟨some (.text f.path), ⟨false, f.isLoaded⟩⟩
    | none => .unknown
  | .preGypFind =>
    .ofOption <|
      (arguments.head?.bind Value.text?).bind fun path =>
        (Addon.byDescription? ctx.files ctx.options.nodeAbi path).map .text
  | .nbindInit =>
    let directory :=
      match arguments.head? with
      | some (.text directory) => some directory
      | _ => ctx.packageRoot
    .ofOption ((directory.bind (Addon.single? ctx.files)).map .text)
  | _ => .unknown

end Builtin

/-- Arguments of which one may have two values: the arguments with the first
of these, and with the test and the second. -/
def splitArguments? : List Outcome → Option (List Value × Option (Span × List Value))
  | [] => some ([], none)
  | .single v :: rest =>
    (splitArguments? rest).map fun (firsts, other) =>
      (v :: firsts, other.map fun (test, seconds) => (test, v :: seconds))
  | .either test a b :: rest =>
    (splitArguments? rest).bind fun (firsts, other) =>
      match other with
      | none => some (a :: firsts, some (test, b :: firsts))
      | some _ => none

/-- Calls a value with some arguments, twice if one of them has two values.
Loading a module gives nothing that is known. -/
def callOutcome (ctx : ModuleContext) (callee : Value) (arguments : List Outcome) :
    Evaluation Outcome :=
  match callee with
  | .builtin b =>
    match splitArguments? arguments with
    | none => .unknown
    | some (firsts, none) => do return .single (← b.call ctx firsts)
    | some (firsts, some (test, seconds)) => do
      let first ← b.call ctx firsts
      let second ← b.call ctx seconds
      return .either test first second
  | _ => .unknown

namespace Syntax.Tree

/-- The key of a property as a text, if it is one that can be known. -/
def keyText? : Key → Option String
  | .name n => some n
  | .text t => t
  | .number x => Value.numberText? x
  | _ => none

mutual

/-- Evaluates an expression. -/
def evaluate (ctx : ModuleContext) (env : Environment) : Tree → Evaluation Outcome
  | node (.text value) _ _ => .ofOption (value.map fun t => .single (.text t))
  | node (.number x) _ _ => pure (.single (.number x))
  | node (.boolean b) _ _ => pure (.single (.bool b))
  | node .null _ _ => pure (.single .null)
  | node (.identifier name) _ _ => do return .single (← .ofName env name)
  | node .paren _ [inner] => evaluate ctx env inner
  | node (.template pieces) _ parts =>
    match pieces with
    | [] => .unknown
    | first :: rest =>
      if first.toList.contains '\\' then .unknown
      else evaluateText ctx env (.single (.text first)) rest parts
  | node (.member name) _ [object] => do
    let object ← evaluate ctx env object
    .ofOption (object.map? (·.member? name))
  | node (.hiddenMember _) _ [object] => do
    let _ ← evaluate ctx env object
    .unknown
  | node .computedMember _ [object, key] => do
    let object ← evaluate ctx env object
    let key ← evaluate ctx env key
    let key ← .ofOption (key.map? fun k => k.toText?.map .text)
    .ofOption (object.zip? (fun o k => k.text?.bind o.member?) key)
  | node .call _ (callee :: arguments) => do
    let callee ← (evaluate ctx env callee).single
    match callee with
    | .builtin .require => .unknown
    | .builtin _ => callOutcome ctx callee (← evaluateAll ctx env arguments)
    | _ => .unknown
  | node .conditional _ [test, first, second] =>
    let decided := evaluate ctx env test
    match decided.value with
    | some (.single v) =>
      let chosen := if v.truthy then evaluate ctx env first else evaluate ctx env second
      ⟨chosen.value, decided.facts.and chosen.facts⟩
    | _ =>
      let both : Evaluation Outcome := do
        let a ← (evaluate ctx env first).single
        let b ← (evaluate ctx env second).single
        return .either test.span a b
      ⟨both.value, decided.facts.and both.facts⟩
  | node (.binary op) _ [left, right] =>
    match op with
    | .and | .or | .nullish => do
      let v ← (evaluate ctx env left).single
      if v.endsAtLeft op then return .single v else evaluate ctx env right
    | _ => do
      let a ← evaluate ctx env left
      let b ← evaluate ctx env right
      .ofOption (a.zip? (Value.binary? op) b)
  | node (.unary op) _ [operand] =>
    match op with
    | .void => pure (.single .undefined)
    | _ => do
      let a ← evaluate ctx env operand
      .ofOption (a.map? (Value.unary? op))
  | node .array _ items => do return .single (.array (← evaluateItems ctx env items))
  | node .object _ members => do return .single (.object (← evaluateMembers ctx env [] members))
  | _ => .unknown

/-- Evaluates expressions one after another. -/
def evaluateAll (ctx : ModuleContext) (env : Environment) : List Tree → Evaluation (List Outcome)
  | [] => pure []
  | t :: rest => do
    let x ← evaluate ctx env t
    return x :: (← evaluateAll ctx env rest)

/-- Evaluates the items of an array, each of which needs a single value. -/
def evaluateItems (ctx : ModuleContext) (env : Environment) : List Tree → Evaluation (List Value)
  | [] => pure []
  | t :: rest => do
    let x ← (evaluate ctx env t).single
    return x :: (← evaluateItems ctx env rest)

/-- Evaluates the expressions of a template, given the text so far and the
pieces to come. Pieces with escapes are not understood. -/
def evaluateText (ctx : ModuleContext) (env : Environment) (prior : Outcome)
    (pieces : List String) : List Tree → Evaluation Outcome
  | [] => pure prior
  | t :: rest =>
    match pieces with
    | [] => pure prior
    | piece :: pieces => do
      let part ← evaluate ctx env t
      let joined ← .ofOption (prior.zip? Value.concat? part)
      if piece.toList.contains '\\' then .unknown
      else
        let text ← .ofOption (joined.map? fun v => v.text?.map fun t => .text (t ++ piece))
        evaluateText ctx env text pieces rest

/-- Evaluates the members of an object, given those before. A key that occurs
again keeps its place. -/
def evaluateMembers (ctx : ModuleContext) (env : Environment) (prior : List (String × Value)) :
    List Tree → Evaluation (List (String × Value))
  | [] => pure prior
  | node (.property key) _ [value] :: rest => do
    let key ← .ofOption (keyText? key)
    let value ← (evaluate ctx env value).single
    evaluateMembers ctx env (Json.setMember prior key value) rest
  | node (.shorthand name) _ _ :: rest => do
    let value ← .ofName env name
    evaluateMembers ctx env (Json.setMember prior name value) rest
  | _ => .unknown

end

end Syntax.Tree

end ModuleAssets
