import ModuleAssets.Syntax.Grammar.Statement
/-!
# Programs — a whole module under one grammar or the other

`parse` first reads a text as a script and then, if that fails, as a module.
A module imports and exports at its top level, waits there and is strict; a
script may return there.
-/

namespace ModuleAssets.Syntax

namespace Parse

variable (self : Rules)

/-! ## Imports and exports -/

/-- A name of an export, or the value of a text in its place. -/
def exportName : Parse (Option String) := do
  match ← token with
  | .text value _ => advance; return value
  | _ => some <$> anyWord

/-- The specifier of a module. -/
def moduleSpecifier : Parse (Option String) := do
  match ← token with
  | .text value _ => advance; return value
  | _ => unexpected

/-- What is written after a specifier about the kind of module, an object. -/
def importAttributes : Parse (List Tree) := do
  if ← newline then return []
  if (← eatWord "with") || (← eatWord "assert") then return [← objectLiteral self] else return []

/-- An import of one export. Only a text needs another name for it. -/
def namedImport : Parse Import := do
  let from_ ← start
  let isText := (← token) matches .text ..
  let exported ← exportName
  if ← eatWord "as" then return .named (← boundName true) exported
  match exported, isText with
  | some n, false => return .named n exported
  | _, _ => blame from_

/-- The import of all exports as one object, after its star. -/
def namespaceImport : Parse Import := do
  expectWord "as"
  return .namespace_ (← boundName true)

/-- The name of the default export after a word that may say how to import,
if the word does that. A module called for as its source has a name; one that
is put off is one object. -/
def phasedName? (word : String) : Parse (Option String) := do
  if word == "source" && (← isName) then
    if !(← isWord "from") || (← following).token.isWord "from" then
      return ← some <$> boundName true
  return none

/-- The import of a default export, if one is next, and whether a word said
that the import is one of a source. -/
def defaultImport : Parse (List Import × Bool) := do
  unless ← isName do return ([], false)
  let n ← boundName true
  if n == "defer" && (← isMark "*") then return ([], false)
  let phased ← phasedName? n
  unless ← isWord "from" do expectMark ","
  return ([.default (phased.getD n)], phased.isSome)

/-- The imports before the word `from`. -/
def importClause : Parse (List Import) := do
  let (first, isSource) ← defaultImport
  if isSource then return first
  if ← eatMark "*" then return first ++ [← namespaceImport]
  else if ← eatMark "\x7b" then
    let (named, _) ← listUntil "\x7d" namedImport (← read).budget
    return first ++ named
  else return first

/-- An import, the word `import` being next. Nothing has to end one without
names. -/
def importDeclaration : Parse Tree := do
  let from_ ← start
  advance
  if (← token) matches .text .. then
    let specifier ← moduleSpecifier
    let _ ← importAttributes self
    let _ ← eatSemicolon
    nodeFrom from_ (.import_ specifier []) []
  else
    let imports ← importClause
    expectWord "from"
    let specifier ← moduleSpecifier
    let _ ← importAttributes self
    semicolon
    nodeFrom from_ (.import_ specifier imports) []

/-- Words that an export of the module itself does not name. -/
def unexportedWords : List String :=
  "package" :: reservedWords

/-- One name of a list of exports, and where it starts if it can be no name of
the module itself. -/
def exportItem : Parse (Option Nat) := do
  let from_ ← start
  let isForeign :=
    match ← token with
    | .word n _ => unexportedWords.contains n
    | _ => true
  let _ ← exportName
  if ← eatWord "as" then
    let _ ← exportName
  return if isForeign then some from_ else none

/-- What is exported without a name of its own. A function or class may have
one all the same. -/
def defaultExport (from_ : Nat) : Parse Tree := do
  let inner ← start
  if (← isWord "function") || (← atAsyncFunction) then
    let isAsync ← eatWord "async"
    let (name, parts) ← functionOf self isAsync fun _ => boundName? true
    let t ← nodeFrom inner (.function name) parts
    nodeFrom from_ .exportDefault [t]
  else if ← isWord "class" then
    let t ← classExpression self
    nodeFrom from_ .exportDefault [t]
  else
    let t ← within ({ · with allowIn := true }) (self .assignment)
    semicolon
    nodeFrom from_ .exportDefault [t]

/-- The word `from`, a specifier and the end of an export. -/
def exportSource : Parse (List Tree) := do
  expectWord "from"
  let _ ← moduleSpecifier
  let attributes ← importAttributes self
  semicolon
  return attributes

/-- The names of a list of exports after its brace, and where they come from,
if it is another module. -/
def exportList (from_ : Nat) : Parse Tree := do
  let (foreign, _) ← listUntil "\x7d" exportItem (← read).budget
  if ← isWord "from" then
    let attributes ← exportSource self
    nodeFrom from_ .exportNames attributes
  else
    for place in foreign do
      match place with
      | some offset => complain offset
      | none => pure ()
    let _ ← eatSemicolon
    nodeFrom from_ .exportNames []

/-- An export, the word `export` being next. -/
def exportDeclarationOf : Parse Tree := do
  let from_ ← start
  advance
  if ← eatMark "*" then
    if ← eatWord "as" then
      let _ ← exportName
    let attributes ← exportSource self
    nodeFrom from_ .exportNames attributes
  else if ← eatMark "\x7b" then exportList self from_
  else if ← eatWord "default" then defaultExport self from_
  else
    let declares :=
      (← isWord "function") || (← isWord "class") || (← atAsyncFunction) || (← declarator?).isSome
    unless declares do unexpected
    let t ← self (.statement true)
    nodeFrom from_ .exportDeclaration [t]

/-- A statement at the top level of a module, which may import and export. -/
def topLevelItem : Parse Tree := do
  if ← isWord "export" then exportDeclarationOf self
  else if ← isWord "import" then
    let next := (← following).token
    if next.isMark "(" || next.isMark "." then self (.statement true) else importDeclaration self
  else self (.statement true)

/-! ## Tying the rules together -/

/-- What each rule asks for, given the rules it may use. -/
def rule (self : Rules) : Rules
  | .assignment => assignmentExpression self
  | .unary => unaryExpression self
  | .operand strength => operandExpression self strength
  | .member => member self
  | .leftHand => leftHand self
  | .bindingTarget => bindingTarget self true
  | .statement declarations => statement self declarations

/-- The rules, nested at most so deep. -/
def rules : Nat → Rules
  | 0, _ => unexpected
  | depth + 1, r => rule (rules depth) r

/-- All the statements of a program. Its span goes from the first token, or
the line that names an interpreter, to the last. -/
def program (depth : Nat) (interpreterLine : Bool) : Parse Tree := do
  let from_ ← if interpreterLine || (← token) == .endOfText then pure 0 else start
  let g := (← read).grammar
  let top : Rules := fun r =>
    match g, r with
    | .module_, .statement true => topLevelItem (rules depth)
    | _, r => rules depth r
  let statements ← markedStatementsUntil top (do return (← token) == .endOfText)
  nodeFrom from_ (.program g) statements

end Parse

/-! ## Whole texts -/

/-- The place after the line that names an interpreter, if there is one. -/
def afterInterpreterLine? (cs : List Char) : Option Cursor :=
  match cs with
  | '#' :: '!' :: _ =>
    let line := cs.takeWhile fun c => !isLineBreak c
    some ⟨cs.drop line.length, Text.byteLength line⟩
  | _ => none

/-- Reads a text under one grammar. The first token of a text is not yet read
in the context of the program, unless a line before it names an
interpreter. -/
def parseAs (grammar : Grammar) (cs : List Char) : Except SyntaxError Tree := do
  let budget := cs.length + 2
  let context := Context.outermost grammar budget
  let interpreter := afterInterpreterLine? cs
  let from_ := interpreter.getD ⟨cs, 0⟩
  let lastStop := if interpreter.isSome then from_.offset else 0
  let scan := Scan.next budget true from_
  let reading := if interpreter.isSome then context else .outermost .script budget
  let first := { scan with token := scan.token.settle scan.start reading }
  let state : State := ⟨first, lastStop, none, none, []⟩
  let whole : Parse Tree := do
    Parse.within (fun _ => reading) (Parse.complainOf first)
    Parse.program (4 * budget) interpreter.isSome
  let (result, last) := (whole context).run state
  let t ← result
  match last.complaint with
  | some offset => throw { offset }
  | none => return t

/-- A text that a grammar accepted, as a tree. -/
structure Parsed where
  grammar : Grammar
  tree : Tree
deriving Inhabited

/-- The characters of a text without a byte order mark in front. -/
def withoutByteOrderMark : List Char → List Char
  | c :: cs => if c.toNat = 0xFEFF then cs else c :: cs
  | [] => []

/-- Reads a text, as a script if possible. A failure blames what fails as a
module, unless the parser gave up before. Offsets do not count a byte order mark in
front. -/
def parse (source : String) : Except SyntaxError Parsed :=
  let cs := withoutByteOrderMark source.toList
  match parseAs .script cs with
  | .ok t => .ok ⟨.script, t⟩
  | .error e => if e.abandons then .error e else (parseAs .module_ cs).map (⟨.module_, ·⟩)

end ModuleAssets.Syntax
