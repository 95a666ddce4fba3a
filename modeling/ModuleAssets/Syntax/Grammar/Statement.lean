import ModuleAssets.Syntax.Grammar.Expression
/-!
# Statements and declarations
-/

namespace ModuleAssets.Syntax

/-- The context of a loop's body. -/
def Context.inLoop (c : Context) : Context :=
  { c with allowBreak := true, allowContinue := true }

namespace Parse

variable (self : Rules)

/-- A statement within another one, which is no declaration. -/
def body : Parse Tree :=
  within ({ · with topLevel := false }) (self (.statement false))

/-- An expression in parentheses, as after `if`. -/
def parenthesizedTest : Parse Tree := do
  expectMark "("
  let t ← freeExpression self
  expectMark ")"
  return t

/-! ## Variables -/

/-- The word in the middle of a loop's head is next. -/
def atForEach : Parse Bool := do
  return (← isWord "of") || (← isWord "in")

/-- One declared pattern with its value. In the head of a loop the value may
be missing, whatever the declaration. -/
def declaration (how : Declarator) (inHead : Bool) : Parse Tree := do
  let from_ ← start
  let target ← bindingTarget self (how == .var)
  if inHead && (← atForEach) then return ← nodeFrom from_ .declaration [target]
  if ← eatMark "=" then
    let value ← self .assignment
    nodeFrom from_ .declaration [target, value]
  else
    if how == .const && !inHead then complain from_
    else unless target.kind matches .binding _ do blame from_
    nodeFrom from_ .declaration [target]

/-- Declarations with commas between them. A semicolon in place of one is
complained of at `before`. -/
def declarators (how : Declarator) (inHead : Bool) (before : Nat) : Nat → Parse (List Tree)
  | 0 => unexpected
  | fuel + 1 => do
    if ← isMark ";" then
      complain before
      return []
    let d ← declaration self how inHead
    let comma ← start
    if ← eatMark "," then return d :: (← declarators how inHead comma fuel) else return [d]

/-- Declarations from the word on that starts them. -/
def declarations (how : Declarator) (inHead : Bool) : Parse Tree := do
  let from_ ← start
  advance
  let keepsIn := how == .var && inHead
  let ds ← within (fun c => { c with allowIn := c.allowIn || !keepsIn }) do
    declarators self how inHead (← lastStop) (← read).budget
  nodeFrom from_ (.declarations how) ds

/-- The token can follow the word `let` in a declaration. -/
def followsLet : Token → Bool
  | .word n spelling => spelling == .disguised || !reservedWords.contains n
  | t => t.isMark "[" || t.isMark "\x7b"

/-- How variables are declared here, if they are. -/
def declarator? : Parse (Option Declarator) := do
  if ← isWord "var" then return some .var
  else if ← isWord "const" then return some .const
  else if ← isWord "let" then
    return if followsLet (← following).token then some .let_ else none
  else return none

/-- Goes on to the end of a statement, or to text that is no token. -/
def skipStatement : Nat → Parse Unit
  | 0 => unexpected
  | fuel + 1 => do
    unless ← eatSemicolon do
      advance
      unless (← token) matches .malformed _ do skipStatement fuel

/-- Declarations as a statement. What should have ended it is complained of
and left out. -/
def variableStatement (how : Declarator) : Parse Tree := do
  let t ← declarations self how false
  unless ← eatSemicolon do
    complain (← start)
    recovering (do let _ ← expression self) fun _ => pure ()
    skipStatement (← read).budget
  nodeFrom t.span.start t.kind t.parts

/-- Declarations of what is disposed of later, the word `using` being next.
Neither grammar has them. -/
def usingStatement (from_ : Nat) : Parse Tree := do
  let t ← declarations self .var false
  complain from_
  semicolon
  nodeFrom from_ t.kind t.parts

/-! ## Loops -/

/-- The head of a loop over the keys or items of an object, from the word in
its middle on. -/
def eachHead (target : Tree) : Parse (Kind × List Tree) := do
  let overItems ← isWord "of"
  advance
  let object ←
    within ({ · with allowIn := true }) (if overItems then self .assignment else expression self)
  return (.forEach overItems, [target, object])

/-- The head of a loop with a test, after its first semicolon. The second one
may be missing. -/
def testedHead (first : List Tree) : Parse (Kind × List Tree) := do
  let test ←
    if ← eatMark ";" then pure []
    else
      let t ← freeExpression self
      let _ ← eatMark ";"
      pure [t]
  let step ← if ← isMark ")" then pure [] else (fun t => [t]) <$> freeExpression self
  return (.for_, first ++ test ++ step)

/-- A loop over an object declares one thing. It has no value, except over
keys in code that is not strict. -/
def checkEach (declarations : List Tree) : Parse Unit := do
  match declarations with
  | [.node .declaration s parts] =>
    if parts.length == 2 && ((← isWord "of") || (← read).strict) then complain s.start
  | ds => for d in ds.drop 1 do complain d.span.start

/-- The head of a loop in its parentheses: what the loop is, and its parts
before the body. -/
def loopHead : Parse (Kind × List Tree) := do
  match ← declarator? with
  | some how =>
    let t ← declarations self how true
    if ← atForEach then
      checkEach t.parts
      eachHead self t
    else
      expectMark ";"
      testedHead self [t]
  | none =>
    if ← eatMark ";" then return ← testedHead self []
    let first ← within ({ · with allowIn := false }) (expression self)
    if ← atForEach then
      let target ← toLoopTarget first
      eachHead self target
    else
      expectMark ";"
      testedHead self [first]

/-- A loop that starts with the word `for`. Only a loop over items waits for
each of them. -/
def forStatement : Parse Tree := do
  let from_ ← start
  advance
  let second ← start
  let waits ← eatWord "await"
  expectMark "("
  let (kind, parts) ←
    within ({ · with inHead := true, inWaitingHead := waits }) (loopHead self)
  expectMark ")"
  let inner ← within Context.inLoop (body self)
  if waits && kind != .forEach true then blame second
  nodeFrom from_ kind (parts ++ [inner])

/-- A loop that starts with the word `while`. -/
def whileStatement : Parse Tree := do
  let from_ ← start
  advance
  let test ← parenthesizedTest self
  let inner ← within Context.inLoop (body self)
  nodeFrom from_ .while_ [test, inner]

/-- A loop that starts with the word `do`. -/
def doStatement : Parse Tree := do
  let from_ ← start
  advance
  let inner ← within Context.inLoop (body self)
  expectWord "while"
  let test ← parenthesizedTest self
  let _ ← eatSemicolon
  nodeFrom from_ .doWhile [test, inner]

/-! ## Branches and jumps -/

/-- A statement that starts with the word `if`. One after `else` stands in the
same place as the first. -/
def ifStatement : Nat → Parse Tree
  | 0 => unexpected
  | fuel + 1 => do
    let from_ ← start
    advance
    let test ← parenthesizedTest self
    let yes ← body self
    if ← eatWord "else" then
      let no ← if ← isWord "if" then ifStatement fuel else body self
      nodeFrom from_ .if_ [test, yes, no]
    else nodeFrom from_ .if_ [test, yes]

/-- A case of a switch. -/
def switchCase (mayBeDefault : Bool) : Parse Tree := do
  let from_ ← start
  let test ←
    if ← eatWord "case" then (fun t => [t]) <$> freeExpression self
    else
      expectWord "default"
      unless mayBeDefault do unexpected
      pure []
  expectMark ":"
  let closes : Parse Bool := do
    return (← isWord "case") || (← isWord "default") || (← closesBraces)
  let statements ← within ({ · with topLevel := false }) (statementsUntil self closes)
  nodeFrom from_ .case (test ++ statements)

/-- The cases of a switch. One of them has no test at most. -/
def switchCases (mayBeDefault : Bool) : Nat → Parse (List Tree)
  | 0 => unexpected
  | fuel + 1 => do
    let isDefault ← isWord "default"
    if isDefault || (← isWord "case") then
      let t ← switchCase self mayBeDefault
      return t :: (← switchCases (mayBeDefault && !isDefault) fuel)
    else return []

/-- A statement that starts with the word `switch`. -/
def switchStatement : Parse Tree := do
  let from_ ← start
  advance
  let subject ← parenthesizedTest self
  expectMark "\x7b"
  let cases ← within ({ · with allowBreak := true }) (switchCases self true (← read).budget)
  expectMark "\x7d"
  nodeFrom from_ .switch (subject :: cases)

/-- A jump out of a loop or a labelled statement, or on to the next round. -/
def jumpStatement (isBreak : Bool) : Parse Tree := do
  let from_ ← start
  advance
  let c ← read
  let allowed := if isBreak then c.allowBreak else c.allowContinue
  if ← eatSemicolon then
    unless allowed do complain from_
  else
    let label ← name (!c.inGenerator) (!c.inAsync)
    semicolon
    unless allowed && c.labels.contains label do complain from_
  nodeFrom from_ .jump []

/-- A statement that starts with the word `return`. A script may also return
outside of functions. -/
def returnStatement : Parse Tree := do
  let from_ ← start
  advance
  let value ←
    if ← eatSemicolon then pure []
    else
      let t ← freeExpression self
      semicolon
      pure [t]
  let c ← read
  unless c.inFunction || c.grammar == .script do complain from_
  nodeFrom from_ .return_ value

/-- A statement that starts with the word `throw`. -/
def throwStatement : Parse Tree := do
  let from_ ← start
  advance
  if ← newline then unexpected
  let value ← freeExpression self
  semicolon
  nodeFrom from_ .throw [value]

/-- Statements in braces. -/
def blockStatement : Parse Tree := do
  let from_ ← start
  let statements ← bracedStatements self false
  nodeFrom from_ .block statements

/-- The part of a `try` statement that catches, if it is next. -/
def catchClause? : Parse (List Tree) := do
  let from_ ← start
  if ← eatWord "catch" then
    let param ←
      if ← eatMark "(" then
        let t ← self .bindingTarget
        expectMark ")"
        pure [t]
      else pure []
    let inner ← blockStatement self
    return [← nodeFrom from_ .catch_ (param ++ [inner])]
  else return []

/-- The last part of a `try` statement, if it is next. -/
def finallyClause? : Parse (List Tree) := do
  if ← eatWord "finally" then return [← blockStatement self] else return []

/-- A statement that starts with the word `try`. -/
def tryStatement : Parse Tree := do
  let from_ ← start
  advance
  let inner ← blockStatement self
  let next ← start
  let handler ← catchClause? self
  let last ← finallyClause? self
  if handler.isEmpty && last.isEmpty then complain next
  nodeFrom from_ .try_ (inner :: (handler ++ last))

/-- The last parts of a `try` statement where nothing is tried. They are
complained of and left out. -/
def strayClauses : Parse Tree := do
  let from_ ← start
  complain from_
  recovering (do let _ ← catchClause? self) fun _ => pure ()
  recovering (do let _ ← finallyClause? self) fun _ => pure ()
  nodeFrom from_ .expressionStatement [missing from_]

/-- A statement that starts with the word `with`. Its body may use the word
`await` as little as one in a function. -/
def withStatement : Parse Tree := do
  let from_ ← start
  if (← read).strict then complain from_
  advance
  let object ← parenthesizedTest self
  let inner ← within ({ · with inFunction := true }) (body self)
  nodeFrom from_ .with_ [object, inner]

/-! ## Declarations of functions and classes -/

/-- A declared function from `from_`, the word `function` being next. -/
def functionDeclaration (from_ : Nat) (isAsync : Bool) : Parse Tree := do
  let (n, parts) ← functionOf self isAsync fun _ => boundName true
  nodeFrom from_ (.functionDeclaration n) parts

/-- A declared class, the word `class` being next. -/
def classDeclaration : Parse Tree := do
  let from_ ← start
  let (n, parts) ← classOf self (boundName false)
  nodeFrom from_ (.classDeclaration n) parts

/-- The words `async function` are next, on one line. -/
def atAsyncFunction : Parse Bool := do
  if ← isWord "async" then
    let next ← following
    return next.token.isWord "function" && !next.newline
  else return false

/-- A function with a label, which only code that is not strict may have. -/
def labelledFunction : Parse Tree := do
  let from_ ← start
  let isGenerator := (← following).token.isMark "*"
  let t ← functionDeclaration self from_ false
  if isGenerator || (← read).strict then complain from_
  return t

/-- A labelled statement after its colon. -/
def labelledStatement (from_ : Nat) (label : String) : Parse Tree := do
  let c ← read
  let inner ← within ({ · with labels := label :: c.labels, allowBreak := true }) do
    if ← isWord "function" then labelledFunction self else body self
  if c.labels.contains label then complain from_
  nodeFrom from_ (.labelled label) [inner]

/-- An expression as a statement, or a label in front of one. -/
def expressionStatement : Parse Tree := do
  let from_ ← start
  let t ← freeExpression self
  match t with
  | .node (.identifier label) _ _ =>
    if ← eatMark ":" then return ← labelledStatement self from_ label
  | _ => pure ()
  if ← eatSemicolon then nodeFrom from_ .expressionStatement [t]
  else if ((← token).markedOp?).isSome then
    let t ← lateOperators self t
    nodeFrom from_ .expressionStatement [t]
  else unexpected

/-- An expression that starts with the word `import`, as a statement. Nothing
has to end it. -/
def importStatement : Parse Tree := do
  let from_ ← start
  let next := (← following).token
  unless next.isMark "(" || next.isMark "." do unexpected
  let t ← expression self
  let _ ← eatSemicolon
  nodeFrom from_ .expressionStatement [t]

/-- A statement that starts with the words `await using`. If they declare
nothing, the second is an operand, and nothing has to end the statement. -/
def awaitStatement? : Parse (Option Tree) := do
  let from_ ← start
  let c ← read
  if c.topLevel && c.grammar == .script then complain from_
  unless (← following).token.isWord "using" do return none
  advance
  let next ← following
  if next.token matches .word .. && !next.newline then
    some <$> usingStatement self from_
  else
    let waited ← awaitOperand self from_
    let t ← within ({ · with allowIn := true }) (operators self 0 waited)
    let _ ← eatSemicolon
    some <$> nodeFrom from_ .expressionStatement [t]

/-- A statement that declares something, if one is next. -/
def declarationStatement? (declarations : Bool) : Parse (Option Tree) := do
  let from_ ← start
  if ← isWord "function" then
    unless declarations do complain from_
    some <$> functionDeclaration self from_ false
  else if ← isWord "class" then
    unless declarations do complain from_
    some <$> classDeclaration self
  else if ← atAsyncFunction then
    advance
    some <$> functionDeclaration self from_ true
  else if declarations && (← isWord "using") then
    let next ← following
    if next.token.isName (← read) && !next.newline then some <$> usingStatement self from_
    else return none
  else
    match ← declarator? with
    | some how =>
      if declarations || how == .var then some <$> variableStatement self how else return none
    | none => return none

/-- A statement that starts with a word, if the word means one. -/
def keywordStatement? (declarations : Bool) (word : String) : Parse (Option Tree) := do
  let from_ ← start
  if word == "if" then some <$> ifStatement self (← read).budget
  else if word == "for" then some <$> forStatement self
  else if word == "while" then some <$> whileStatement self
  else if word == "do" then some <$> doStatement self
  else if word == "return" then some <$> returnStatement self
  else if word == "throw" then some <$> throwStatement self
  else if word == "try" then some <$> tryStatement self
  else if word == "catch" || word == "finally" then some <$> strayClauses self
  else if word == "switch" then some <$> switchStatement self
  else if word == "with" then some <$> withStatement self
  else if word == "break" then some <$> jumpStatement true
  else if word == "continue" then some <$> jumpStatement false
  else if word == "import" then some <$> importStatement self
  else if word == "export" then unexpected
  else if word == "debugger" then
    advance
    semicolon
    some <$> nodeFrom from_ .debugger []
  else if word == "await" then
    if declarations || (← read).topLevel then awaitStatement? self else return none
  else declarationStatement? self declarations

/-- A statement, or also a declaration. -/
def statement (declarations : Bool) : Parse Tree := do
  let from_ ← start
  match ← token with
  | .punctuator "\x7b" => blockStatement self
  | .punctuator ";" =>
    advance
    nodeFrom from_ .empty []
  | .word _ .disguised => expressionStatement self
  | .word word _ =>
    match ← keywordStatement? self declarations word with
    | some t => return t
    | none => expressionStatement self
  | _ => expressionStatement self

end Parse

end ModuleAssets.Syntax
