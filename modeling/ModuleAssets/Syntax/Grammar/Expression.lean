import ModuleAssets.Syntax.Grammar.Function
/-!
# Expressions

From the loosest to the tightest: sequences, assignments, conditionals,
operators by their strength, unary operators, subscripts, and primary
expressions. Parameters of arrow functions are read as expressions in
parentheses and turned into patterns when the arrow shows up.
-/

namespace ModuleAssets.Syntax

namespace Token

/-- The operator before an operand that the token is. -/
def unaryOp? : Token → Option UnaryOp
  | .punctuator "-" => some .minus
  | .punctuator "+" => some .plus
  | .punctuator "!" => some .not
  | .punctuator "~" => some .complement
  | t =>
    if t.isWord "typeof" then some .typeOf
    else if t.isWord "void" then some .void
    else if t.isWord "delete" then some .delete
    else none

/-- The operator between operands that the token is, and its strength, if a
punctuator writes it. -/
def markedOp? : Token → Option (BinaryOp × Nat)
  | .punctuator "??" => some (.nullish, 1)
  | .punctuator "||" => some (.or, 1)
  | .punctuator "&&" => some (.and, 2)
  | .punctuator "|" => some (.bitOr, 3)
  | .punctuator "^" => some (.bitXor, 4)
  | .punctuator "&" => some (.bitAnd, 5)
  | .punctuator "==" => some (.equal, 6)
  | .punctuator "!=" => some (.notEqual, 6)
  | .punctuator "===" => some (.strictEqual, 6)
  | .punctuator "!==" => some (.strictNotEqual, 6)
  | .punctuator "<" => some (.less, 7)
  | .punctuator "<=" => some (.lessEqual, 7)
  | .punctuator ">" => some (.greater, 7)
  | .punctuator ">=" => some (.greaterEqual, 7)
  | .punctuator "<<" => some (.shiftLeft, 8)
  | .punctuator ">>" => some (.shiftRight, 8)
  | .punctuator ">>>" => some (.shiftRightZero, 8)
  | .punctuator "+" => some (.add, 9)
  | .punctuator "-" => some (.sub, 9)
  | .punctuator "*" => some (.mul, 10)
  | .punctuator "/" => some (.div, 10)
  | .punctuator "%" => some (.mod, 10)
  | .punctuator "**" => some (.power, 11)
  | _ => none

/-- The operator between operands that the token is, and its strength. The
word `in` is one only where it is allowed. -/
def binaryOp? (t : Token) (allowIn : Bool) : Option (BinaryOp × Nat) :=
  if t.isWord "instanceof" then some (.isInstance, 7)
  else if t.isWord "in" then if allowIn then some (.isIn, 7) else none
  else t.markedOp?

/-- The operator of a compound assignment that the token is. -/
def compoundOp? : Token → Option BinaryOp
  | .punctuator "+=" => some .add
  | .punctuator "-=" => some .sub
  | .punctuator "*=" => some .mul
  | .punctuator "/=" => some .div
  | .punctuator "%=" => some .mod
  | .punctuator "**=" => some .power
  | .punctuator "<<=" => some .shiftLeft
  | .punctuator ">>=" => some .shiftRight
  | .punctuator ">>>=" => some .shiftRightZero
  | .punctuator "&=" => some .bitAnd
  | .punctuator "|=" => some .bitOr
  | .punctuator "^=" => some .bitXor
  | .punctuator "&&=" => some .and
  | .punctuator "||=" => some .or
  | .punctuator "??=" => some .nullish
  | _ => none

/-- An arrow function may start with the token. -/
def startsArrow : Token → Bool
  | .word n spelling =>
    spelling == .disguised || !(reservedWords.contains n || n == "let" || n == "await")
  | t => t.isMark "("

/-- Reserved words that expressions start with. -/
def startingWords : List String :=
  ["class", "delete", "false", "function", "import", "new", "null", "super", "this", "true",
    "typeof", "void"]

/-- Punctuators that operands of `yield` start with. -/
def startingMarks : List String :=
  ["(", "[", "\x7b", "\x60", "+", "-", "++", "--", "!", "~", "#", "*", "/", "/="]

/-- An operand of `yield` starts with the token. -/
def startsOperand : Token → Bool
  | .word n spelling =>
    spelling == .disguised || !reservedWords.contains n || startingWords.contains n
  | .punctuator mark => startingMarks.contains mark
  | .number _ => true
  | .bigint => true
  | .text .. => true
  | _ => false

end Token

namespace Parse

variable (self : Rules)

/-- Expressions with commas between them. -/
def expression : Parse Tree := do
  let first ← self .assignment
  if ← isMark "," then
    let rest ← repeatWhile (eatMark ",") (self .assignment) (← read).budget
    nodeFrom first.span.start .sequence (first :: rest)
  else return first

/-- An expression in which `in` is an operator. -/
def freeExpression : Parse Tree :=
  within ({ · with allowIn := true }) (expression self)

/-- An argument or an item, perhaps spread. -/
def spreadable : Parse Tree := do
  let from_ ← start
  if ← eatMark "..." then
    let value ← self .assignment
    nodeFrom from_ .spread [value]
  else self .assignment

/-- Arguments in parentheses. -/
def arguments : Parse (List Tree) := do
  expectMark "("
  within ({ · with allowIn := true }) do
    return (← listUntil ")" (spreadable self) (← read).budget).1

/-! ## Operators between operands -/

/-- The next operator that binds more tightly than `strength`, with its right
operand. Powers group to the right, and their base has no unary operator. -/
def binaryStep (strength : Nat) (left : Tree) : Parse (Option Tree) := do
  match (← token).binaryOp? (← read).allowIn with
  | none => return none
  | some (op, s) =>
    if s ≤ strength then return none
    advance
    if op == .power && (left.kind == .await || left.kind matches .unary _) then unexpected
    let right ← self (.operand (if op == .power then s - 1 else s))
    if op == .nullish then
      for side in [left, right] do
        if side.kind == .binary .and || side.kind == .binary .or then complain side.span.start
    else if (op == .and || op == .or) && left.kind == .binary .nullish then
      complain left.span.start
    return some (← nodeFrom left.span.start (.binary op) [left, right])

/-- The operators that bind more tightly than `strength`, after their first
operand. -/
def operators (strength : Nat) (left : Tree) : Parse Tree := do
  iterate (binaryStep self strength) (← read).budget left

/-- Operators after what should have ended an expression. They are read all
the same. -/
def lateOperators (left : Tree) : Parse Tree := do
  complain (← start)
  operators self 0 left

/-! ## Arrow functions -/

/-- An arrow function may start at the offset. -/
def arrowMayStart (offset : Nat) : Parse Bool := do
  return (← get).arrowStart == some offset

/-- The rest of an arrow function after its arrow. -/
def arrowFunction (from_ : Nat) (isAsync : Bool) (params : List Tree) : Parse Tree := do
  let body ← within (·.inBody isAsync false) do
    if ← isMark "\x7b" then functionBody self false params else self .assignment
  nodeFrom from_ .arrow (params ++ [body])

/-- The item is a name, perhaps spread. -/
def isNameItem : Tree → Bool
  | .node (.identifier _) _ [] => true
  | .node .spread _ [.node (.identifier _) _ []] => true
  | _ => false

/-- The items with one more, if an arrow follows where none could start: if the only
one of them is a name, it is also the parameter of a function. The parser takes it
for granted that there is only one. -/
def withLateArrow (from_ : Nat) (items : List Tree) : Parse (List Tree) := do
  if ← eatMark "=>" then
    match items with
    | [item] =>
      if isNameItem item then
        let params ← toParameters none [item]
        let function ← arrowFunction self from_ false params
        return [item, function]
      else return items
    | _ => abandon from_
  else return items

/-- Items up to a closing parenthesis, and the offset of a comma at their end.
Some came before. -/
def parenItems (earlier : List Tree) : Nat → Parse (List Tree × Option Nat)
  | 0 => unexpected
  | fuel + 1 => do
    if ← eatMark ")" then return (earlier, none)
    let from_ ← start
    let item ← spreadable self
    let items ← withLateArrow self from_ (earlier ++ [item])
    if ← eatMark ")" then return (items, none)
    let comma ← start
    expectMark ","
    if ← eatMark ")" then return (items, some comma)
    parenItems items fuel

/-- Complains of shorthands with defaults that are members of this object. -/
def checkNoDefaults (t : Tree) : Parse Unit := do
  if t.kind == .object then
    for m in t.parts do
      if m.kind matches .shorthandDefault _ then complain m.span.start

/-- Nothing is spread outside of arguments and literals. -/
def checkNotSpread (t : Tree) : Parse Unit :=
  match t with
  | .node .spread _ [inner] => blame inner.span.start
  | _ => pure ()

/-- The arrow function that starts with items in parentheses, its arrow being
next. No operator comes after its braces. -/
def parenArrow (from_ : Nat) (isAsync mayBeArrow : Bool) (items : List Tree)
    (trailing : Option Nat) : Parse Tree := do
  if (← newline) || !mayBeArrow then blame from_
  advance
  let params ← toParameters trailing items
  let t ← arrowFunction self from_ isAsync params
  let braced := t.parts.getLast?.any (·.kind == .functionBody)
  if braced && ((← token).markedOp?).isSome then lateOperators self t else return t

/-- An expression in parentheses, or an arrow function. After the word `async`,
which is given, a call or an arrow function. -/
def parenthesized (async : Option Tree) : Parse Tree := do
  let from_ := (async.map (·.span.start)).getD (← start)
  let mayBeArrow ← arrowMayStart from_
  expectMark "("
  let (items, trailing) ←
    within ({ · with allowIn := true }) do parenItems self [] (← read).budget
  if ← isMark "=>" then return ← parenArrow self from_ async.isSome mayBeArrow items trailing
  for t in items do checkNoDefaults t
  match async with
  | some callee => nodeFrom from_ .call (callee :: items)
  | none =>
    for t in items do checkNotSpread t
    match items with
    | [] => blame from_
    | [t] => nodeFrom from_ .paren [t]
    | first :: rest =>
      let last := rest.getLast?.getD first
      nodeFrom from_ .paren [.node .sequence ⟨first.span.start, last.span.stop⟩ items]

/-! ## Templates -/

/-- The pieces and the expressions of a template from a place in its text on.
If the text does not end, `from_` is blamed. Only a template after a tag may
have escapes that stand for nothing. -/
def templateRest (tagged : Bool) : Nat → Nat → Cursor → Parse (List String × List Tree)
  | 0, _, _ => unexpected
  | fuel + 1, from_, c => do
    match scanPiece? c.offset c.chars with
    | none => blame from_
    | some piece =>
      match piece.broken with
      | some offset => unless tagged do fail offset
      | none => pure ()
      moveTo piece.after
      let written := String.ofList piece.written
      match piece.ending with
      | .closed => return ([written], [])
      | .expression =>
        let value ← freeExpression self
        let brace ← start
        unless ← isMark "\x7d" do unexpected
        let (pieces, values) ← templateRest tagged fuel brace (← get).scan.after
        return (written :: pieces, value :: values)

/-- A template, its opening quote being next. -/
def template (tagged : Bool) : Parse Tree := do
  let from_ ← start
  let (pieces, values) ← templateRest self tagged (← read).budget from_ (← get).scan.after
  nodeFrom from_ (if tagged then .taggedPieces else .template pieces) values

/-! ## Primary expressions -/

/-- The items of the array literal from an offset on. -/
def arrayItems (from_ : Nat) : Nat → Parse (List Tree)
  | 0 => unexpected
  | fuel + 1 => do
    if ← eatMark "]" then return []
    let here ← start
    if ← eatMark "," then
      return missing here :: (← arrayItems from_ fuel)
    let t ← spreadable self
    if ← eatMark "]" then return [t]
    let comma ← start
    expectMark ","
    if ← isMark "]" then noteTrailing from_ comma
    return t :: (← arrayItems from_ fuel)

/-- An array literal. -/
def arrayLiteral : Parse Tree := do
  let from_ ← start
  expectMark "["
  let items ← within ({ · with allowIn := true }) do arrayItems self from_ (← read).budget
  nodeFrom from_ .array items

/-- The flags that regular expressions have. -/
def regexFlags : List Char :=
  ['d', 'g', 'i', 'm', 's', 'u', 'v', 'y']

/-- A regular expression, a slash being next. -/
def regex : Parse Tree := do
  let from_ ← start
  let here := (← get).scan.here
  match scanRegex? (← read).budget ⟨here.chars.drop 1, here.offset + 1⟩ with
  | none => fail from_
  | some flags =>
    match flags.broken with
    | some offset => fail offset
    | none => pure ()
    for offset in flags.unfit do complain offset
    unless flags.name.all regexFlags.contains && flags.name.Nodup do complain from_
    moveTo flags.after
    nodeFrom from_ .regex []

/-- A literal or a keyword that takes one token. -/
def oneToken (kind : Kind) : Parse Tree := do
  let from_ ← start
  advance
  nodeFrom from_ kind []

/-- An arrow function with one parameter after the word `async`, or the word
as a name in front of `of` in the head of a loop. -/
def asyncArrow (async : Tree) : Parse Tree := do
  let from_ := async.span.start
  let c ← read
  if c.inHead && (← isWord "of") && !(← following).token.isMark "=>" then
    unless c.inWaitingHead do complain from_
    return async
  let param ← bindingName true
  expectMark "=>"
  arrowFunction self from_ true [param]

/-- A name that is read, or an arrow function with one parameter. -/
def nameExpression : Parse Tree := do
  let from_ ← start
  let mayBeArrow ← arrowMayStart from_
  unless (← isName) || (← isWord "let") do unstarted
  let c ← read
  let n ← name (!c.inGenerator) (!c.inAsync)
  let t ← nodeFrom from_ (.identifier n) []
  if !mayBeArrow || (← newline) then return t
  if n == "async" && (← isName) then asyncArrow self t
  else if ← eatMark "=>" then
    checkBound n from_
    arrowFunction self from_ false [.node (.binding n) t.span []]
  else return t

/-- What starts with the word `async`: a function, an arrow function, a call,
or the word as a name. -/
def asyncExpression : Parse Tree := do
  let from_ ← start
  let next ← following
  if next.newline then nameExpression self
  else if next.token.isWord "function" then
    advance
    functionExpression self from_ true
  else if next.token.isMark "(" && (← arrowMayStart from_) then
    let async ← oneToken (.identifier "async")
    parenthesized self (some async)
  else nameExpression self

/-- What starts with a word. -/
def wordExpression (word : String) : Parse Tree := do
  if word == "this" then oneToken .this
  else if word == "null" then oneToken .null
  else if word == "true" then oneToken (.boolean true)
  else if word == "false" then oneToken (.boolean false)
  else if word == "function" then functionExpression self (← start) false
  else if word == "class" then classExpression self
  else if word == "async" then asyncExpression self
  else nameExpression self

/-- An expression that no operator takes apart. -/
def primary : Parse Tree := do
  let from_ ← start
  match ← token with
  | .word _ .disguised => nameExpression self
  | .word word _ => wordExpression self word
  | .number value => oneToken (.number value)
  | .bigint => oneToken .bigint
  | .text value _ => oneToken (.text value)
  | .punctuator "(" => parenthesized self none
  | .punctuator "[" => arrayLiteral self
  | .punctuator "\x7b" => objectLiteral self
  | .punctuator "\x60" => template self false
  | .punctuator "/" => regex
  | .punctuator "/=" => regex
  | .punctuator "#" =>
    let n ← hiddenName
    nodeFrom from_ (.hiddenName n) []
  | _ => unstarted

/-! ## Subscripts -/

/-- A member by its name, after the point. The link may be one of an optional
chain, and guarded there. -/
def namedMember (link : Option Bool) (object : Tree) : Parse Tree := do
  let from_ := object.span.start
  if ← isMark "#" then
    let n ← hiddenName
    let kind : Kind :=
      match link with
      | some guarded => .optionalHiddenMember guarded n
      | none => .hiddenMember n
    nodeFrom from_ kind [object]
  else
    let n ← anyWord
    let kind : Kind :=
      match link with
      | some guarded => .optionalMember guarded n
      | none => .member n
    nodeFrom from_ kind [object]

/-- A member by a computed key, the opening bracket being next. -/
def keyedMember (link : Option Bool) (object : Tree) : Parse Tree := do
  expectMark "["
  let key ← freeExpression self
  expectMark "]"
  let kind : Kind :=
    match link with
    | some guarded => .optionalComputedMember guarded
    | none => .computedMember
  nodeFrom object.span.start kind [object, key]

/-- A call, the opening parenthesis being next. -/
def callOf (link : Option Bool) (callee : Tree) : Parse Tree := do
  let args ← arguments self
  let kind : Kind :=
    match link with
    | some guarded => .optionalCall guarded
    | none => .call
  nodeFrom callee.span.start kind (callee :: args)

/-- What comes after a point with a question mark. -/
def guardedLink (object : Tree) : Parse Tree := do
  if ← isMark "(" then callOf self (some true) object
  else if ← isMark "[" then keyedMember self (some true) object
  else namedMember (some true) object

/-- The next subscript of an expression, if there is one. Where `calls` does
not hold, only guarded links call. -/
def subscript (calls : Bool) (object : Tree) : Parse (Option Tree) := do
  let link := if object.inChain then some false else none
  match ← token with
  | .punctuator "?." =>
    advance
    some <$> guardedLink self object
  | .punctuator "[" => some <$> keyedMember self link object
  | .punctuator "(" => if calls then some <$> callOf self link object else return none
  | .punctuator "." =>
    advance
    some <$> namedMember link object
  | .punctuator "\x60" =>
    let pieces ← template self true
    if object.inChain then complain object.span.start
    some <$> nodeFrom object.span.start .taggedTemplate [object, pieces]
  | _ => return none

/-- All the subscripts of an expression. -/
def subscripts (calls : Bool) (t : Tree) : Parse Tree := do
  iterate (subscript self calls) (← read).budget t

/-- What starts with the word `super`: a member of it or a call. -/
def superExpression (calls : Bool) : Parse Tree := do
  let t ← oneToken .super
  let checked (member : Tree) : Parse Tree := do
    unless (← read).allowSuper do blame t.span.start
    if member.kind matches .hiddenMember _ then unexpected
    return member
  match ← token with
  | .punctuator "." =>
    advance
    checked (← namedMember none t)
  | .punctuator "[" => checked (← keyedMember self none t)
  | .punctuator "(" => if calls then callOf self none t else unexpected
  | _ => unexpected

/-- What starts with the word `import`: `import.meta` or a call. -/
def importExpression : Parse Tree := do
  let t ← oneToken .importCallee
  let from_ := t.span.start
  if ← eatMark "." then
    let n ← anyWord
    if n == "meta" then
      if (← read).grammar == .script then complain from_
      return ← nodeFrom from_ .metaProperty []
    unless n == "defer" || n == "source" do unexpected
  unless ← isMark "(" do unexpected
  callOf self none t

/-- The last link of a chain is guarded. -/
def endsGuarded (t : Tree) : Bool :=
  match t.kind with
  | .optionalMember guarded _ => guarded
  | .optionalHiddenMember guarded _ => guarded
  | .optionalComputedMember guarded => guarded
  | .optionalCall guarded => guarded
  | _ => false

/-- What starts with the word `new`. -/
def newExpression : Parse Tree := do
  let from_ ← start
  advance
  if ← eatMark "." then
    expectWord "target"
    let c ← read
    unless c.inPlainFunction || c.inParameters || c.inClass do complain from_
    subscripts self false (← nodeFrom from_ .metaProperty [])
  else
    let callee ← self .member
    if endsGuarded callee then blame callee.span.start
    if ← isMark "(" then
      let args ← arguments self
      subscripts self false (← nodeFrom from_ .new (callee :: args))
    else nodeFrom from_ .new [callee]

/-- An expression with its members, which are not called. -/
def member : Parse Tree := do
  if ← isWord "new" then newExpression self
  else if ← isWord "super" then subscripts self false (← superExpression self false)
  else if ← isWord "import" then subscripts self false (← importExpression self)
  else
    let t ← primary self
    if t.kind == .arrow then return t else subscripts self false t

/-- An expression with its subscripts. -/
def leftHand : Parse Tree := do
  if ← isWord "super" then subscripts self true (← superExpression self true)
  else if ← isWord "import" then subscripts self true (← importExpression self)
  else
    let t ← member self
    if t.kind == .arrow then return t else subscripts self true t

/-! ## Operators before and after an operand -/

/-- What comes after the word `await` at `from_`: its operand, or nothing if
the word is a name. Outside of asynchronous functions the word is an operator
only where a module may wait. -/
def awaitOperand (from_ : Nat) : Parse Tree := do
  let c ← read
  if ← isMark "*" then unexpected
  let ends := (← canEndStatement) || (← isMark ")") || (← isMark "]")
  if !c.inAsync && ends then
    if c.grammar == .module_ then complain from_
    nodeFrom from_ (.identifier "await") []
  else
    if c.topLevel && c.grammar == .script then complain from_
    if c.inFunction && !c.inAsync then complain from_
    if c.inParameters && !c.inFunction then complain from_
    let operand ← self .unary
    nodeFrom from_ .await [operand]

/-- An operand with a unary operator before it, which is next. An operand that
cannot be read is complained of. -/
def unaryOperation (op : UnaryOp) : Parse Tree := do
  let from_ ← start
  advance
  let operand ← recovering (self .unary) fun e => do
    complain e.offset
    return missing e.offset
  if op == .delete && (← read).strict && operand.kind matches .identifier _ then
    complain operand.span.start
  nodeFrom from_ (.unary op) [operand]

/-- An expression with its unary operators. -/
def unaryExpression : Parse Tree := do
  let from_ ← start
  let t ← token
  match t.unaryOp? with
  | some op => unaryOperation self op
  | none =>
    if t.isMark "++" || t.isMark "--" then
      advance
      let operand ← self .unary
      checkUpdated operand
      nodeFrom from_ .update [operand]
    else if t.isWord "await" then
      advance
      awaitOperand self from_
    else
      let operand ← self .leftHand
      if operand.kind == .arrow || (← newline) then return operand
      if (← isMark "++") || (← isMark "--") then
        checkUpdated operand
        advance
        nodeFrom from_ .update [operand]
      else return operand

/-- Operands joined by operators that bind more tightly than `strength`. -/
def operandExpression (strength : Nat) : Parse Tree := do
  operators self strength (← self .unary)

/-- Operands joined by operators. If only the first of them cannot be read, it
is complained of as missing. -/
def binaryExpression : Parse Tree := do
  let left ← recovering (self .unary) fun e => do
    match ← token with
    | .malformed wrong =>
      advance
      fail wrong
    | t =>
      if (t.binaryOp? (← read).allowIn).isNone then fail e.offset
      complain (← start)
      return missing e.offset
  if left.kind == .arrow then return left else operators self 0 left

/-- A choice between two expressions, or the test alone. -/
def conditionalExpression : Parse Tree := do
  let from_ ← start
  let test ← binaryExpression self
  if test.kind == .arrow then return test
  if ← eatMark "?" then
    let yes ← within ({ · with allowIn := true }) (self .assignment)
    expectMark ":"
    let no ← self .assignment
    nodeFrom from_ .conditional [test, yes, no]
  else return test

/-- The operand of `yield`, which may be missing. -/
def yieldExpression : Parse Tree := do
  let from_ ← start
  advance
  let c ← read
  if c.inParameters && !c.inFunction then blame from_
  if (← canEndStatement) || !(← token).startsOperand then nodeFrom from_ .yield []
  else
    let _ ← eatMark "*"
    let operand ← self .assignment
    nodeFrom from_ .yield [operand]

/-- The expression is assigned to only in parentheses, if at all. -/
def isOperation (t : Tree) : Bool :=
  match t.kind with
  | .arrow => true
  | .conditional => true
  | .binary _ => true
  | .unary _ => true
  | .update => true
  | _ => false

/-- An expression without commas. -/
def assignmentExpression : Parse Tree := do
  let from_ ← start
  if (← read).inGenerator && (← isWord "yield") then return ← yieldExpression self
  let t ← token
  modify ({ · with arrowStart := if t.startsArrow then some from_ else none })
  let left ← conditionalExpression self
  if isOperation left then return left
  if ← isMark "=" then
    let target ← toTarget left
    advance
    let value ← self .assignment
    nodeFrom from_ (.assign none) [target, value]
  else
    match (← token).compoundOp? with
    | some op =>
      let target ← toSimpleTarget left
      advance
      let value ← self .assignment
      nodeFrom from_ (.assign (some op)) [target, value]
    | none => return left

end Parse

end ModuleAssets.Syntax
