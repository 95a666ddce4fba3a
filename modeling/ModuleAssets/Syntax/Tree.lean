import ModuleAssets.Text.Span
/-!
# Syntax trees — labelled nodes over the text

A module is a tree whose nodes carry a `Kind`, the span of text they cover
and their parts. The parts stand in the order in which they are visited. That
is the order of the text with these exceptions: the test of a `do` loop comes
before its body, and the members of a class come before its superclass.

What a kind says about its parts is written `[a, b]`; `a?` may be missing and
`as…` may repeat.
-/

namespace ModuleAssets.Syntax

/-- The two grammars of the language. A script may use `return` outside of
functions, a module may import and export. -/
inductive Grammar where
  | script
  | module_
deriving DecidableEq, Inhabited

/-- Operators with one operand. -/
inductive UnaryOp where
  | minus | plus | not | complement | typeOf | void | delete
deriving DecidableEq, Inhabited

/-- Operators with two operands. -/
inductive BinaryOp where
  | add | sub | mul | div | mod | power
  | equal | notEqual | strictEqual | strictNotEqual
  | less | lessEqual | greater | greaterEqual
  | and | or | nullish
  | bitAnd | bitOr | bitXor | shiftLeft | shiftRight | shiftRightZero
  | isIn | isInstance
deriving DecidableEq, Inhabited

/-- How variables are declared. -/
inductive Declarator where
  | var | let_ | const
deriving DecidableEq, Inhabited

/-- The key of a property. A `computed` key is the first part of its node. A
text key that holds half of a surrogate pair has no value. -/
inductive Key where
  | name (name : String)
  | text (value : Option String)
  | number (value : Float)
  | bigint
  | hidden (name : String)
  | computed
deriving DecidableEq, Inhabited

/-- A name that an import brings in. -/
inductive Import where
  /-- The default export. -/
  | default (binding : String)
  /-- All exports as one object. -/
  | namespace_ (binding : String)
  /-- One export by its name, which may be a text without value. -/
  | named (binding : String) (exported : Option String)
deriving DecidableEq, Inhabited

/-- What a node is, and what its parts are. -/
inductive Kind where
  /-- `[statements…]` -/
  | program (grammar : Grammar)
  -- Expressions
  /-- `[]`, a name that is read. -/
  | identifier (name : String)
  /-- `[]`, a name of a private member that stands alone, as left of `in`. -/
  | hiddenName (name : String)
  /-- `[]` -/
  | this
  /-- `[]`, in front of a member or of arguments. -/
  | super
  /-- `[]`, the word `import` in front of its arguments. -/
  | importCallee
  /-- `[]`, `new.target` or `import.meta`. -/
  | metaProperty
  /-- `[]` -/
  | null
  /-- `[]` -/
  | boolean (value : Bool)
  /-- `[]` -/
  | number (value : Float)
  /-- `[]`, without value if it holds half of a surrogate pair. -/
  | text (value : Option String)
  /-- `[]` -/
  | bigint
  /-- `[]` -/
  | regex
  /-- `[expressions…]`, one fewer than there are pieces of text, which are kept
  as they are written. -/
  | template (pieces : List String)
  /-- `[tag, taggedPieces]` -/
  | taggedTemplate
  /-- `[expressions…]`, the template after a tag. -/
  | taggedPieces
  /-- `[items…]`, each an expression, a `hole` or a `spread`. -/
  | array
  /-- `[]`, an item or an operand left out. -/
  | hole
  /-- `[expression]` -/
  | spread
  /-- `[members…]`, each a `property`, `shorthand`, `method` or `spread`. -/
  | object
  /-- `[key?, value]` -/
  | property (key : Key)
  /-- `[]`, a property that reads the name of its key. -/
  | shorthand (name : String)
  /-- `[value]`, a shorthand with a default, which has a meaning only in
  patterns. -/
  | shorthandDefault (name : String)
  /-- `[key?, function]`, also for accessors and constructors. -/
  | method (key : Key)
  /-- `[parameters…, body]`, with the name by which it knows itself. -/
  | function (name : Option String)
  /-- `[parameters…, body]`, the body an expression or a `functionBody`. -/
  | arrow
  /-- `[statements…]` -/
  | functionBody
  /-- `[members…, superclass?]`, each member a `method`, `field` or
  `staticBlock`, with the name by which the class knows itself. -/
  | classExpression (name : Option String)
  /-- `[key?, value?]` -/
  | field (key : Key)
  /-- `[block]` -/
  | staticBlock
  /-- `[object]` -/
  | member (name : String)
  /-- `[object]` -/
  | hiddenMember (name : String)
  /-- `[object, key]` -/
  | computedMember
  /-- `[callee, arguments…]`, each argument an expression or a `spread`. -/
  | call
  /-- `[callee, arguments…]` -/
  | new
  /-- `[object]`, a member within an optional chain. A `guarded` link is one
  written with a question mark. -/
  | optionalMember (guarded : Bool) (name : String)
  /-- `[object]` -/
  | optionalHiddenMember (guarded : Bool) (name : String)
  /-- `[object, key]` -/
  | optionalComputedMember (guarded : Bool)
  /-- `[callee, arguments…]`, a call within an optional chain. -/
  | optionalCall (guarded : Bool)
  /-- `[operand]` -/
  | unary (op : UnaryOp)
  /-- `[operand]`, `++` or `--` on either side. -/
  | update
  /-- `[left, right]` -/
  | binary (op : BinaryOp)
  /-- `[target, value]`, the target a pattern, a `binding`, a member or one of
  these in parentheses. Compound assignments have an operator. -/
  | assign (op : Option BinaryOp)
  /-- `[test, then, else]` -/
  | conditional
  /-- `[expressions…]` -/
  | sequence
  /-- `[operand?]` -/
  | yield
  /-- `[operand]` -/
  | await
  /-- `[expression]` -/
  | paren
  -- Patterns
  /-- `[]`, a name that is bound. -/
  | binding (name : String)
  /-- `[items…]`, each a pattern, a `hole` or a `restPattern`. -/
  | arrayPattern
  /-- `[members…]`, each a `propertyPattern`, `shorthandPattern` or
  `restPattern`. -/
  | objectPattern
  /-- `[key?, pattern]` -/
  | propertyPattern (key : Key)
  /-- `[default?]`, binds the name of its key. -/
  | shorthandPattern (name : String)
  /-- `[pattern]` -/
  | restPattern
  /-- `[pattern, default]` -/
  | defaultPattern
  -- Statements
  /-- `[expression]` -/
  | expressionStatement
  /-- `[statements…]` -/
  | block
  /-- `[]` -/
  | empty
  /-- `[]` -/
  | debugger
  /-- `[object, body]` -/
  | with_
  /-- `[value?]` -/
  | return_
  /-- `[body]` -/
  | labelled (label : String)
  /-- `[]`, `break` or `continue`. -/
  | jump
  /-- `[test, then, else?]` -/
  | if_
  /-- `[subject, cases…]` -/
  | switch
  /-- `[test?, statements…]` -/
  | case
  /-- `[value]` -/
  | throw
  /-- `[block, catch?, finally?]` -/
  | try_
  /-- `[pattern?, block]` -/
  | catch_
  /-- `[test, body]` -/
  | while_
  /-- `[test, body]` -/
  | doWhile
  /-- `[start?, test?, step?, body]` -/
  | for_
  /-- `[target, object, body]`, over the items or the keys of an object. -/
  | forEach (overItems : Bool)
  -- Declarations
  /-- `[declarations…]` -/
  | declarations (how : Declarator)
  /-- `[pattern, value?]` -/
  | declaration
  /-- `[parameters…, body]` -/
  | functionDeclaration (name : String)
  /-- `[members…, superclass?]` -/
  | classDeclaration (name : String)
  /-- `[]` -/
  | import_ (specifier : Option String) (imports : List Import)
  /-- `[declaration]` -/
  | exportDeclaration
  /-- `[expression]`, also for functions and classes exported without being
  declared. -/
  | exportDefault
  /-- `[attributes?]`, the attributes an object. -/
  | exportNames
deriving DecidableEq, Inhabited

/-- A node with its kind, its place in the text and its parts. -/
inductive Tree where
  | node (kind : Kind) (span : Span) (parts : List Tree)
deriving Inhabited

namespace Tree

/-- What the node is. -/
def kind : Tree → Kind
  | node k _ _ => k

/-- The text the node covers. -/
def span : Tree → Span
  | node _ s _ => s

/-- The parts in visiting order. -/
def parts : Tree → List Tree
  | node _ _ ps => ps

/-- The node reads the given name. -/
def isIdentifier (t : Tree) (name : String) : Bool :=
  t.kind == .identifier name

/-- The expression inside any number of parentheses. -/
def unparen : Tree → Tree
  | node .paren _ [t] => unparen t
  | t => t

mutual

/-- The names that a pattern binds. -/
def boundNames : Tree → List String
  | node (.binding name) _ _ => [name]
  | node .arrayPattern _ items => boundNamesIn items
  | node .objectPattern _ members => boundNamesIn members
  | node (.propertyPattern .computed) _ (_ :: rest) => boundNamesIn rest
  | node (.propertyPattern _) _ parts => boundNamesIn parts
  | node (.shorthandPattern name) _ _ => [name]
  | node .restPattern _ parts => boundNamesIn parts
  | node .defaultPattern _ (target :: _) => boundNames target
  | _ => []

/-- The names that some patterns bind. -/
def boundNamesIn : List Tree → List String
  | [] => []
  | t :: rest => boundNames t ++ boundNamesIn rest

end

end Tree

end ModuleAssets.Syntax
