import ModuleAssets.Syntax.Token.Scan
import ModuleAssets.Syntax.Tree
/-!
# Parsing — the state of a parse and its smallest steps

A parse looks at one token at a time. Text that no rule accepts ends it. A
complaint does not: the parse goes on, so that text which ends it later is
what gets blamed, but its result is refused. A step that ends keeps the place
it came to, so that a rule may go on there after a complaint. Some text ends a
parse because the parser gives up on it, and then nothing else is tried.
-/

namespace ModuleAssets.Syntax

/-- Why a parse ends early. -/
structure SyntaxError where
  /-- The text to blame, by its byte offset. -/
  offset : Nat
  /-- The parser itself gives up there: something that it takes for granted does not
  hold. Such a text is not read under another grammar either. -/
  abandons : Bool := false
deriving DecidableEq, Inhabited

/-- What surrounds the text being parsed. -/
structure Context where
  grammar : Grammar
  /-- More than the number of characters, to bound loops. -/
  budget : Nat
  strict : Bool
  /-- In no function and no block. -/
  topLevel : Bool
  inFunction : Bool
  /-- In a function with a meaning of `new.target` of its own. -/
  inPlainFunction : Bool
  inGenerator : Bool
  inAsync : Bool
  inParameters : Bool
  inClass : Bool
  /-- In the initial value of a member of a class, or in a static block. -/
  inField : Bool
  inStaticBlock : Bool
  /-- In the head of a loop. -/
  inHead : Bool
  /-- In the head of a loop that waits. -/
  inWaitingHead : Bool
  /-- `in` is an operator. -/
  allowIn : Bool
  allowSuper : Bool
  allowBreak : Bool
  allowContinue : Bool
  labels : List String

namespace Context

/-- What surrounds a whole program. -/
def outermost (grammar : Grammar) (budget : Nat) : Context where
  grammar
  budget
  strict := grammar == .module_
  topLevel := true
  inFunction := false
  inPlainFunction := false
  inGenerator := false
  inAsync := false
  inParameters := false
  inClass := false
  inField := false
  inStaticBlock := false
  inHead := false
  inWaitingHead := false
  allowIn := false
  allowSuper := false
  allowBreak := false
  allowContinue := false
  labels := []

/-- A complaint of a token counts here. -/
def minds (c : Context) : Circumstance → Bool
  | .everywhere => true
  | .inStrictCode => c.strict
  | .inModules => c.grammar == .module_

end Context

/-! ## Names -/

/-- Words that never are names. -/
def reservedWords : List String :=
  ["break", "case", "catch", "class", "const", "continue", "debugger", "default", "delete", "do",
    "else", "enum", "export", "extends", "false", "finally", "for", "function", "if", "import", "in",
    "instanceof", "new", "null", "return", "super", "switch", "this", "throw", "true", "try", "typeof",
    "var", "void", "while", "with"]

/-- Words that are no names in strict code. -/
def strictWords : List String :=
  ["implements", "interface", "let", "package", "private", "protected", "public", "static", "yield"]

/-- Names that have a fixed meaning, so that strict code does not bind them. -/
def fixedNames : List String :=
  ["eval", "arguments"]

/-- The word is no name here. -/
def Context.reserves (c : Context) (word : String) : Bool :=
  reservedWords.contains word || (c.strict && strictWords.contains word) ||
    (word == "await" && (c.inAsync || c.inStaticBlock || c.grammar == .module_)) ||
    (word == "yield" && c.inGenerator)

namespace Token

/-- The token is the keyword. -/
def isWord (t : Token) (name : String) : Bool :=
  match t with
  | .word n spelling => n == name && spelling != .disguised
  | _ => false

/-- The token is the punctuator. -/
def isMark (t : Token) (text : String) : Bool :=
  t == .punctuator text

/-- The token is a word that is a name here. -/
def isName (t : Token) (c : Context) : Bool :=
  match t with
  | .word n spelling => spelling == .disguised || !c.reserves n
  | _ => false

/-- The token as it is understood here: a reserved word has no escapes. -/
def settle (t : Token) (start : Nat) (c : Context) : Token :=
  match t with
  | .word n .escaped => if c.reserves n then .malformed start else t
  | _ => t

end Token

/-! ## The state -/

/-- How far a parse has come. -/
structure State where
  /-- The token being looked at. -/
  scan : Scan
  /-- The end of the token before it. -/
  lastStop : Nat
  /-- Where the first complaint is. -/
  complaint : Option Nat
  /-- Where an arrow function may start. -/
  arrowStart : Option Nat
  /-- Where the arrays and objects start that end with a comma, and where that
  is. -/
  trailing : List (Nat × Nat)

/-- A step of a parse. -/
abbrev Parse (α : Type) := ReaderT Context (ExceptT SyntaxError (StateM State)) α

/-- What the rules of the grammar ask for when they nest. -/
inductive Rule where
  /-- An expression without commas. -/
  | assignment
  | unary
  /-- An operand with the operators after it that bind more tightly than the
  given strength. -/
  | operand (strength : Nat)
  /-- An expression with its members, which are not called. -/
  | member
  /-- An expression with its subscripts. -/
  | leftHand
  /-- What a declaration binds. -/
  | bindingTarget
  /-- A statement, or also a declaration. -/
  | statement (declarations : Bool)
deriving DecidableEq

/-- The rules as they are used by each other. -/
abbrev Rules := Rule → Parse Tree

namespace Parse

/-- Remembers that the text at an offset is wrong. -/
def complain (offset : Nat) : Parse Unit :=
  modify fun s => { s with complaint := s.complaint.or (some offset) }

/-- The token being looked at. -/
def token : Parse Token := do
  return (← get).scan.token

/-- Where the token being looked at begins. -/
def start : Parse Nat := do
  return (← get).scan.start

/-- The end of the token before. -/
def lastStop : Parse Nat := do
  return (← get).lastStop

/-- A line ended before the token being looked at. -/
def newline : Parse Bool := do
  return (← get).scan.newline

/-- Reads the token at a place. -/
def look (c : Cursor) : Parse Scan := do
  let context ← read
  let scan := Scan.next context.budget false c
  return { scan with token := scan.token.settle scan.start context }

/-- Complains of what is wrong with a token here. -/
def complainOf (scan : Scan) : Parse Unit := do
  let context ← read
  for c in scan.complaints do
    if context.minds c.circumstance then complain c.offset

/-- Looks at the token at a place; the text before it is done with. -/
def moveTo (c : Cursor) : Parse Unit := do
  let scan ← look c
  complainOf scan
  modify fun s => { s with scan, lastStop := c.offset }

/-- Goes on to the next token. -/
def advance : Parse Unit := do
  moveTo (← get).scan.after

/-- The token after the one being looked at. -/
def following : Parse Scan := do
  look (← get).scan.after

/-! ## Failing -/

/-- Ends the parse and blames an offset. -/
def fail {α : Type} (offset : Nat) : Parse α :=
  throw { offset }

/-- Ends the parse because the parser gives up. -/
def abandon {α : Type} (offset : Nat) : Parse α :=
  throw { offset, abandons := true }

/-- Ends the parse and blames an offset. Of text that is no token there is a
complaint before, and the parse would go on after it. -/
def blame {α : Type} (offset : Nat) : Parse α := do
  match ← token with
  | .malformed wrong =>
    complain wrong
    advance
  | _ => pure ()
  fail offset

/-- Ends the parse at the token being looked at. -/
def unexpected {α : Type} : Parse α := do
  blame (← start)

/-- Ends the parse at the token being looked at, where an expression or a
pattern may start. Text that is no token is blamed for itself. -/
def unstarted {α : Type} : Parse α := do
  match ← token with
  | .malformed wrong =>
    advance
    fail wrong
  | _ => unexpected

/-! ## Nodes -/

/-- A node from an offset to the end of the last token. -/
def nodeFrom (start : Nat) (kind : Kind) (parts : List Tree) : Parse Tree := do
  return .node kind ⟨start, ← lastStop⟩ parts

/-- Stands for an expression that is not there. -/
def missing (offset : Nat) : Tree :=
  .node .hole (Span.empty offset) []

/-! ## Single tokens -/

/-- The token being looked at is the punctuator. -/
def isMark (text : String) : Parse Bool := do
  return (← token).isMark text

/-- The token being looked at is the keyword. -/
def isWord (name : String) : Parse Bool := do
  return (← token).isWord name

/-- The token being looked at is a name here. -/
def isName : Parse Bool := do
  return (← token).isName (← read)

/-- Passes the punctuator, if it is there. -/
def eatMark (text : String) : Parse Bool := do
  if ← isMark text then advance; return true else return false

/-- Passes the keyword, if it is there. -/
def eatWord (name : String) : Parse Bool := do
  if ← isWord name then advance; return true else return false

/-- Passes the punctuator, which has to be there. -/
def expectMark (text : String) : Parse Unit := do
  unless ← eatMark text do unexpected

/-- Passes the keyword, which has to be there. -/
def expectWord (name : String) : Parse Unit := do
  unless ← eatWord name do unexpected

/-- A statement may end here. -/
def canEndStatement : Parse Bool := do
  match ← token with
  | .endOfText => return true
  | .punctuator text => return text == ";" || text == "\x7d" || (← newline)
  | _ => newline

/-- Passes the end of a statement, if it is there. -/
def eatSemicolon : Parse Bool := do
  if ← eatMark ";" then return true else canEndStatement

/-- Passes the end of a statement, which has to be there. -/
def semicolon : Parse Unit := do
  unless ← eatSemicolon do unexpected

/-! ## Combining steps -/

/-- The context in another form, for one step. -/
def within {α : Type} (change : Context → Context) (p : Parse α) : Parse α :=
  withReader change p

/-- Goes on in another way where a step fails, unless the parser gave up. -/
def recovering {α : Type} (p : Parse α) (handle : SyntaxError → Parse α) : Parse α :=
  tryCatch p fun e => if e.abandons then throw e else handle e

/-- Repeats a step as long as there is more. -/
def repeatWhile {α : Type} (more : Parse Bool) (step : Parse α) : Nat → Parse (List α)
  | 0 => unexpected
  | fuel + 1 => do
    if ← more then
      let x ← step
      let xs ← repeatWhile more step fuel
      return x :: xs
    else return []

/-- Repeats a step up to a closing punctuator, with commas in between. A comma
may also stand at the end, and its offset is given. -/
def listUntil {α : Type} (closing : String) (step : Parse α) : Nat → Parse (List α × Option Nat)
  | 0 => unexpected
  | fuel + 1 => do
    if ← eatMark closing then return ([], none)
    let x ← step
    if ← eatMark closing then return ([x], none)
    let comma ← start
    expectMark ","
    if ← eatMark closing then return ([x], some comma)
    let (xs, trailing) ← listUntil closing step fuel
    return (x :: xs, trailing)

/-- Remembers that a literal from an offset on ends with a comma. -/
def noteTrailing (offset comma : Nat) : Parse Unit :=
  modify fun s => { s with trailing := (offset, comma) :: s.trailing }

/-- Complains of the comma at the end of a literal. -/
def complainOfTrailing (offset : Nat) : Parse Unit := do
  match (← get).trailing.find? (·.1 == offset) with
  | some (_, comma) => complain comma
  | none => pure ()

/-- Changes a tree step by step for as long as a step applies. -/
def iterate (step : Tree → Parse (Option Tree)) : Nat → Tree → Parse Tree
  | 0, _ => unexpected
  | fuel + 1, t => do
    match ← step t with
    | some t => iterate step fuel t
    | none => return t

/-! ## Names -/

/-- Any word, keywords included. -/
def anyWord : Parse String := do
  match ← token with
  | .word n _ => advance; return n
  | _ => unexpected

/-- The word `await` as a name, where that may be. -/
def checkAwait (allowed : Bool) : Parse Unit := do
  let c ← read
  if c.inStaticBlock || c.inAsync || c.grammar == .module_ || !allowed then unexpected

/-- A name. The words `yield` and `await` are names only where allowed. -/
def name (allowYield allowAwait : Bool) : Parse String := do
  let from_ ← start
  match ← token with
  | .word n spelling =>
    unless spelling == .disguised do
      if (← read).strict && strictWords.contains n then complain from_
      if n == "await" then checkAwait allowAwait
      if (n == "yield" && !allowYield) || reservedWords.contains n then unexpected
    if n == "arguments" && (← read).inField then complain from_
    advance
    return n
  | _ => unexpected

/-- Complains of a name with a fixed meaning, if code is strict. -/
def checkBound (name : String) (offset : Nat) : Parse Unit := do
  if (← read).strict && fixedNames.contains name then complain offset

/-- A name that is bound. -/
def boundName (allowLet : Bool) : Parse String := do
  if !allowLet && (← isWord "let") then unexpected
  let from_ ← start
  let n ← within ({ · with inField := false }) (name true true)
  checkBound n from_
  let c ← read
  if (n == "await" && (c.inAsync || c.inStaticBlock)) || (n == "yield" && c.inGenerator) then
    complain from_
  return n

/-- A name that is bound, as a pattern. -/
def bindingName (allowLet : Bool) : Parse Tree := do
  let from_ ← start
  let n ← boundName allowLet
  nodeFrom from_ (.binding n) []

/-- A name that is bound, if a name is next. -/
def boundName? (allowLet : Bool) : Parse (Option String) := do
  if ← isName then some <$> boundName allowLet else return none

end Parse

end ModuleAssets.Syntax
