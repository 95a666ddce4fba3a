import ModuleAssets.Syntax.Grammar.Pattern
/-!
# Functions, objects and classes

A function that belongs to a member covers the whole member, its key and its
modifiers included.
-/

namespace ModuleAssets.Syntax

namespace Context

/-- The context of a function other than an arrow function. -/
def inOwnFunction (c : Context) (allowSuper : Bool) : Context :=
  { c with inPlainFunction := true, inField := false, allowSuper }

/-- The context of a function's parameters. -/
def inParameterList (c : Context) (isAsync isGenerator : Bool) : Context :=
  { c with inParameters := true, inFunction := false, inAsync := isAsync, inGenerator := isGenerator }

/-- The context of a function's body. -/
def inBody (c : Context) (isAsync isGenerator : Bool) : Context :=
  { c with
    topLevel := false, inFunction := true, inAsync := isAsync, inGenerator := isGenerator,
    inStaticBlock := false, allowBreak := false, allowContinue := false, labels := [] }

/-- The context of a member's initial value. -/
def inInitializer (c : Context) : Context :=
  { c with inField := true, allowIn := true }

/-- The context of a static block. -/
def inBlockOfClass (c : Context) : Context :=
  { c with inField := true, inStaticBlock := true, topLevel := false }

end Context

namespace Parse

variable (self : Rules)

/-! ## Bodies -/

/-- The string that makes code strict is next. Whatever comes after it, it
counts. -/
def atStrictMark : Parse Bool := do
  return (← token) == .text (some "use strict") false

/-- A closing brace is next, or the text ends. -/
def closesBraces : Parse Bool := do
  return (← isMark "\x7d") || (← token) == .endOfText

/-- Passes a closing brace. A text that ends before it is complained of. -/
def passClosingBrace : Parse Unit := do
  if ← isMark "\x7d" then advance else complain (← start)

/-- Statements up to where `closes` holds. -/
def statementsUntil (closes : Parse Bool) : Parse (List Tree) := do
  repeatWhile (do return !(← closes)) (self (.statement true)) (← read).budget

/-- Statements up to where `closes` holds, all of them strict if they start
with the mark for that. -/
def markedStatementsUntil (closes : Parse Bool) : Parse (List Tree) := do
  let strict ← atStrictMark
  within (fun c => { c with strict := c.strict || strict }) (statementsUntil self closes)

/-- Statements in braces. With `marked` they may make themselves strict. -/
def bracedStatements (marked : Bool) : Parse (List Tree) := do
  expectMark "\x7b"
  let statements ← within ({ · with topLevel := false }) do
    if marked then markedStatementsUntil self closesBraces else statementsUntil self closesBraces
  passClosingBrace
  return statements

/-- The statement is a string alone. -/
def isTextAlone (t : Tree) : Bool :=
  match t with
  | .node .expressionStatement _ [.node (.text _) _ _] => true
  | _ => false

/-- The statement is the string that makes code strict. It has no escapes. -/
def isStrictMark (t : Tree) : Bool :=
  match t with
  | .node .expressionStatement _ [.node (.text value) s _] =>
    value == some "use strict" && s.stop - s.start == 12
  | _ => false

/-- The body of a function in braces. With `marked` it may make itself strict.
Only a function whose parameters are plain names starts with the mark. -/
def functionBody (marked : Bool) (params : List Tree) : Parse Tree := do
  let from_ ← start
  let statements ← bracedStatements self marked
  unless params.all (·.kind matches .binding _) do
    match (statements.takeWhile isTextAlone).find? isStrictMark with
    | some t => complain t.span.start
    | none => pure ()
  nodeFrom from_ .functionBody statements

/-- The parameters and the body of a function. The parameters have to pass a
check. -/
def functionParts (isAsync isGenerator : Bool) (check : List Tree → Parse Unit) :
    Parse (List Tree) := do
  let params ← within (·.inParameterList isAsync isGenerator) (parameters self true)
  check params
  let body ← within (·.inBody isAsync isGenerator) (functionBody self true params)
  return params ++ [body]

/-- The name and the parts of a function, the word `function` being next. How
the name is read may depend on whether the function generates. -/
def functionOf {α : Type} (isAsync : Bool) (name : Bool → Parse α) : Parse (α × List Tree) := do
  expectWord "function"
  let isGenerator ← eatMark "*"
  let name ← name isGenerator
  let parts ← within (·.inOwnFunction false) do
    functionParts self isAsync isGenerator fun _ => pure ()
  return (name, parts)

/-- A function expression from `from_`, the word `function` being next. Its
name is one of its own. -/
def functionExpression (from_ : Nat) (isAsync : Bool) : Parse Tree := do
  let (name, parts) ← functionOf self isAsync fun isGenerator =>
    within ({ · with inAsync := isAsync, inGenerator := isGenerator }) (boundName? true)
  nodeFrom from_ (.function name) parts

/-! ## Members -/

/-- A member up to its key, which may have an expression as a part. -/
structure Keyed where
  start : Nat
  keyStart : Nat
  key : Key
  parts : List Tree

/-- The member is named like a constructor. -/
def Keyed.namesConstructor (k : Keyed) : Bool :=
  k.key == .name "constructor" || k.key == .text (some "constructor")

/-- The key of an object's member that starts at `from_`. -/
def objectKey (from_ : Nat) : Parse Keyed := do
  let keyStart ← start
  let (key, parts) ← propertyKey self
  return ⟨from_, keyStart, key, parts⟩

/-- The key of a class's member that starts at `from_`, which may be a private
name. -/
def classKey (from_ : Nat) : Parse Keyed := do
  let keyStart ← start
  if ← isMark "#" then
    let n ← hiddenName
    if n == "constructor" then complain keyStart
    return ⟨from_, keyStart, .hidden n, []⟩
  else objectKey self from_

/-- A member that is a function with these parts. -/
def methodNode (k : Keyed) (parts : List Tree) : Parse Tree := do
  let function ← nodeFrom k.start (.function none) parts
  nodeFrom k.start (.method k.key) (k.parts ++ [function])

/-- A method after its key. Its parameters have to pass a check. -/
def checkedMethod (k : Keyed) (isAsync isGenerator : Bool) (check : List Tree → Parse Unit) :
    Parse Tree := do
  let parts ← within (·.inOwnFunction true) (functionParts self isAsync isGenerator check)
  methodNode k parts

/-- A method after its key. -/
def method (k : Keyed) (isAsync isGenerator : Bool) : Parse Tree :=
  checkedMethod self k isAsync isGenerator fun _ => pure ()

/-- A getter has no parameters. -/
def checkGetter (offset : Nat) (params : List Tree) : Parse Unit := do
  unless params.isEmpty do complain offset

/-- A setter has one parameter, which does not take the rest. -/
def checkSetter (offset : Nat) (params : List Tree) : Parse Unit := do
  unless params.length == 1 do complain offset
  match params with
  | .node .restPattern s _ :: _ => complain s.start
  | _ => pure ()

/-- A getter or a setter after its key. -/
def accessor (k : Keyed) (isGetter : Bool) (blamed : Nat) : Parse Tree :=
  checkedMethod self k false false (if isGetter then checkGetter blamed else checkSetter blamed)

/-! ## Objects -/

/-- A member of an object literal after a name that is no key with a value. -/
def namedMemberOf (k : Keyed) (name : String) : Parse Tree := do
  let mark ← start
  if ← eatMark "?" then complain mark
  if ← eatMark "=" then
    let value ← self .assignment
    nodeFrom k.start (.shorthandDefault name) [value]
  else if (← isMark ",") || (← isMark "\x7d") then nodeFrom k.start (.shorthand name) []
  else if name == "get" || name == "set" then
    let own ← objectKey self k.start
    accessor self own (name == "get") own.keyStart
  else if name == "async" then
    let isGenerator ← eatMark "*"
    let own ← objectKey self k.start
    method self own true isGenerator
  else unexpected

/-- A member of an object literal. -/
def objectMember : Parse Tree := do
  let from_ ← start
  if ← eatMark "..." then
    let value ← self .assignment
    return ← nodeFrom from_ .spread [value]
  if ← eatMark "*" then
    let k ← objectKey self from_
    return ← method self k false true
  let k ← objectKey self from_
  if ← eatMark ":" then
    let value ← self .assignment
    return ← nodeFrom from_ (.property k.key) (k.parts ++ [value])
  if ← isMark "(" then return ← method self k false false
  match k.key with
  | .name n => namedMemberOf self k n
  | _ => unexpected

/-- An object literal. -/
def objectLiteral : Parse Tree := do
  let from_ ← start
  expectMark "\x7b"
  let (members, trailing) ←
    within ({ · with allowIn := true }) do listUntil "\x7d" (objectMember self) (← read).budget
  match trailing with
  | some comma => noteTrailing from_ comma
  | none => pure ()
  nodeFrom from_ .object members

/-! ## Classes -/

/-- A field after its key. -/
def field (k : Keyed) : Parse Tree := do
  if k.namesConstructor then blame k.keyStart
  let value ←
    if ← eatMark "=" then (fun t => [t]) <$> within (·.inInitializer) (self .assignment)
    else pure []
  let t ← nodeFrom k.start (.field k.key) (k.parts ++ value)
  unless ← eatSemicolon do complain (← start)
  return t

/-- A static block from its brace on. -/
def staticBlock (from_ : Nat) : Parse Tree := do
  let blockStart ← start
  let statements ← within (·.inBlockOfClass) (bracedStatements self false)
  let block ← nodeFrom blockStart .block statements
  nodeFrom from_ .staticBlock [block]

/-- A constructor after its key. Its parameters are read in the context of the
class. -/
def constructorMember (k : Keyed) : Parse Tree := do
  let params ← parameters self false
  let body ← within (·.inBody false false) (functionBody self true params)
  methodNode k (params ++ [body])

/-- A key without parameters before this token is one of a field. -/
def endsKey : Parse Bool := do
  return (← isMark "=") || (← isMark ";") || (← isMark "\x7d")

/-- A member of a class after the word `static`, if that is there, and whether
the member is the constructor. -/
def classMemberOf (from_ : Nat) (isStatic : Bool) : Parse (Tree × Bool) := do
  if ← eatMark "*" then
    let k ← classKey self from_
    if k.namesConstructor then blame from_
    return (← method self k false true, false)
  let k ← classKey self from_
  if ← isMark "(" then
    if !k.namesConstructor then return (← method self k false false, false)
    if isStatic then complain from_
    return (← constructorMember self k, true)
  let nextLine ← newline
  if k.key == .name "get" || k.key == .name "set" then
    unless (← endsKey) || (nextLine && (← isMark "*")) do
      let own ← classKey self from_
      if own.namesConstructor then complain k.keyStart
      return (← accessor self own (k.key == .name "get") k.keyStart, false)
  if (← endsKey) || nextLine || (← token) == .endOfText then return (← field self k, false)
  if k.key == .name "async" then
    let isGenerator ← eatMark "*"
    let own ← classKey self from_
    if own.namesConstructor then blame own.keyStart
    return (← method self own true isGenerator, false)
  unexpected

/-- A member of a class, and whether it is the constructor. -/
def classMember : Parse (Tree × Bool) := do
  let from_ ← start
  if ← eatWord "static" then
    let k : Keyed := ⟨from_, from_, .name "static", []⟩
    if ← isMark "(" then return (← method self k false false, false)
    if ← isMark "\x7b" then return (← staticBlock self from_, false)
    if ← endsKey then return (← field self k, false)
    if (← isWord "static") && (← following).token.isMark "\x7b" then unexpected
    classMemberOf self from_ true
  else classMemberOf self from_ false

/-- The members of a class up to its closing brace. It has one constructor at
most; `constructed` tells that one came before. -/
def classMembers (constructed : Bool) : Nat → Parse (List Tree)
  | 0 => unexpected
  | fuel + 1 => do
    if ← closesBraces then return []
    if ← eatMark ";" then classMembers constructed fuel
    else
      let (member, isConstructor) ← classMember self
      if constructed && isConstructor then complain member.span.start
      return member :: (← classMembers (constructed || isConstructor) fuel)

/-- What a class extends. It can extend one thing. -/
def superclass : Parse (List Tree) := do
  if ← eatWord "extends" then
    let parent ← self .leftHand
    let again ← start
    if ← eatWord "extends" then
      complain again
      let _ ← self .leftHand
    return [parent]
  else return []

/-- A class, the word `class` being next: its name, as it is read, and its
parts. All of it is strict. -/
def classOf {α : Type} (name : Parse α) : Parse (α × List Tree) :=
  within ({ · with strict := true }) do
    expectWord "class"
    let name ← name
    let parent ← superclass self
    expectMark "\x7b"
    let members ← within ({ · with allowSuper := true, inClass := true }) do
      classMembers self false (← read).budget
    passClosingBrace
    return (name, members ++ parent)

/-- A class expression, the word `class` being next. -/
def classExpression : Parse Tree := do
  let from_ ← start
  let (name, parts) ← classOf self (boundName? false)
  nodeFrom from_ (.classExpression name) parts

end Parse

end ModuleAssets.Syntax
