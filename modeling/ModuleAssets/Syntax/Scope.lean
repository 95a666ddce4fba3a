import ModuleAssets.Syntax.Grammar.Program
/-!
# Scopes — where names are declared

Scopes are opened by the program, by functions of every form, by blocks that
are not the body of a function, and by catch clauses. What `var` declares and
parameters belong to the nearest scope of a function or the program. All
other declarations belong to the scope they stand in. A function expression
declares its own name inside.

A scope is found again by its kind and by the span of the node that opens it,
so that a later walk needs no marks on the tree.
-/

namespace ModuleAssets.Syntax

/-- What opens a scope. -/
inductive ScopeKind where
  | program | function | block | catch_
deriving DecidableEq, Inhabited

/-- One scope, with the names declared directly in it. -/
structure Scope where
  parent : Option Nat
  kind : ScopeKind
  span : Span
  names : List String
deriving DecidableEq, Inhabited

namespace Scope

/-- The name is declared directly in the scope. -/
def declares (s : Scope) (name : String) : Bool :=
  s.names.contains name

/-- Declarations with `var` go up to a scope like this. -/
def isFunctionLike (s : Scope) : Bool :=
  s.kind == .program || s.kind == .function

/-- Adds a name. -/
def declare (name : String) (s : Scope) : Scope :=
  if s.declares name then s else { s with names := s.names ++ [name] }

/-- Takes a name away. -/
def undeclare (name : String) (s : Scope) : Scope :=
  { s with names := s.names.filter (· != name) }

end Scope

/-- All scopes of a program. A scope is named by its place, the program's own
scope being the first. -/
structure ScopeTree where
  scopes : List Scope
deriving DecidableEq, Inhabited

namespace ScopeTree

/-- The program's own scope. -/
def root : Nat := 0

/-- The scope of a place. -/
def get? (t : ScopeTree) (id : Nat) : Option Scope :=
  t.scopes[id]?

/-- The scope that a node opens. Of several, the last one counts. -/
def lookup (t : ScopeTree) (kind : ScopeKind) (span : Span) : Option Scope :=
  t.scopes.reverse.find? fun s => s.kind == kind && s.span == span

/-- The place of the scope that a node opens. -/
def lookupId (t : ScopeTree) (kind : ScopeKind) (span : Span) : Option Nat :=
  (t.scopes.reverse.findIdx? fun s => s.kind == kind && s.span == span).map
    fun i => t.scopes.length - 1 - i

/-- The scope declares the name directly. -/
def declares (t : ScopeTree) (id : Nat) (name : String) : Bool :=
  (t.get? id).any (·.declares name)

/-- Adds a name to a scope. -/
def declare (t : ScopeTree) (id : Nat) (name : String) : ScopeTree :=
  ⟨t.scopes.modify id (Scope.declare name)⟩

/-- Adds names to a scope. -/
def declareAll (t : ScopeTree) (id : Nat) (names : List String) : ScopeTree :=
  names.foldl (fun t name => t.declare id name) t

/-- Takes a name away from a scope. -/
def undeclare (t : ScopeTree) (id : Nat) (name : String) : ScopeTree :=
  ⟨t.scopes.modify id (Scope.undeclare name)⟩

/-- Opens a scope inside another. Its place is the number of scopes before. -/
def openScope (t : ScopeTree) (kind : ScopeKind) (span : Span) (parent : Option Nat) : ScopeTree :=
  ⟨t.scopes ++ [⟨parent, kind, span, []⟩]⟩

/-- The nearest scope at or around a place that takes `var` declarations. The
way up has at most `fuel` steps. -/
def functionScope (t : ScopeTree) : Nat → Nat → Nat
  | 0, id => id
  | fuel + 1, id =>
    match t.get? id with
    | some s => if s.isFunctionLike then id else (s.parent.map (t.functionScope fuel)).getD id
    | none => id

/-- The scope that a declaration of variables belongs to. -/
def target (t : ScopeTree) (current : Nat) : Declarator → Nat
  | .var => t.functionScope t.scopes.length current
  | _ => current

/-- The names of some imports. -/
def importedNames (imports : List Import) : List String :=
  imports.map fun
    | .default n => n
    | .namespace_ n => n
    | .named n _ => n

/-- The patterns of some declarations. -/
def declaredPatterns (declarations : List Tree) : List Tree :=
  declarations.flatMap fun d => d.parts.take 1

mutual

/-- Adds the scopes and declarations of a tree that stands in the scope
`current`. -/
def collect (current : Nat) (t : ScopeTree) : Tree → ScopeTree
  | .node (.functionDeclaration name) span parts =>
    let id := t.scopes.length
    let t := (t.declare current name).openScope .function span (some current)
    collectAll id (t.declareAll id (Tree.boundNamesIn parts.dropLast)) parts
  | .node (.function name) span parts =>
    let id := t.scopes.length
    let t := (t.openScope .function span (some current)).declareAll id name.toList
    collectAll id (t.declareAll id (Tree.boundNamesIn parts.dropLast)) parts
  | .node .arrow span parts =>
    let id := t.scopes.length
    let t := t.openScope .function span (some current)
    collectAll id (t.declareAll id (Tree.boundNamesIn parts.dropLast)) parts
  | .node (.classDeclaration name) _ parts => collectAll current (t.declare current name) parts
  | .node (.declarations how) _ parts =>
    let names := Tree.boundNamesIn (declaredPatterns parts)
    collectAll current (t.declareAll (t.target current how) names) parts
  | .node (.import_ _ imports) _ _ => t.declareAll current (importedNames imports)
  | .node .block span parts =>
    collectAll t.scopes.length (t.openScope .block span (some current)) parts
  | .node .catch_ span parts =>
    let id := t.scopes.length
    let t := t.openScope .catch_ span (some current)
    collectAll id (t.declareAll id (Tree.boundNamesIn parts.dropLast)) parts
  | .node _ _ parts => collectAll current t parts

/-- `collect` for trees one after another. -/
def collectAll (current : Nat) (t : ScopeTree) : List Tree → ScopeTree
  | [] => t
  | part :: rest => collectAll current (collect current t part) rest

end

/-- The scopes of a program. -/
def ofTree (program : Tree) : ScopeTree :=
  collectAll root (openScope ⟨[]⟩ .program program.span none) program.parts

end ScopeTree

end ModuleAssets.Syntax
