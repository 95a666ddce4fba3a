import ModuleAssets.Syntax.Scope
/-!
# Binding — which declaration a name belongs to

The rules of the language by which a name that is read or written at some
place belongs to a declaration. They know more scopes than a `ScopeTree` has:
besides functions, blocks and catch clauses also the heads of loops, the cases
of a `switch`, the own names of classes and of function expressions, static
blocks, and the bodies of functions apart from parameters that are computed.

`Tree.binder?` goes from a place outwards to the nearest scope that has the
name. A scope is told by the place of its node and by its `Slot`, for a node
may open several. Of the scopes that a `ScopeTree` lacks some matter only
inside their node, `Tree.hiddenAround`; the names of the others, `Tree.strays`,
it has in a scope further out. Names are resolved as they are written: the
objects of `with` and code in texts play no part.
-/

namespace ModuleAssets.Syntax

open ScopeTree (declaredPatterns importedNames)

namespace Tree

/-! ## What declarations declare -/

/-- The name under which a function or class is declared if it is exported by
default. -/
def exportedName : Tree → List String
  | node (.function name) _ _ => name.toList
  | node (.classExpression name) _ _ => name.toList
  | _ => []

/-- What `var` declares in the parts of a node stays inside. -/
def keepsVars : Kind → Bool
  | .functionDeclaration _ | .function _ | .arrow | .staticBlock | .import_ .. => true
  | _ => false

/-- The names that a node itself declares by `var`. -/
def ownVars (kind : Kind) (parts : List Tree) : List String :=
  match kind with
  | .declarations .var => boundNamesIn (declaredPatterns parts)
  | _ => []

mutual

/-- The names that `var` declares for the function or program around. -/
def vars : Tree → List String
  | node kind _ parts => ownVars kind parts ++ if keepsVars kind then [] else varsIn parts

/-- `vars` of trees one after another. -/
def varsIn : List Tree → List String
  | [] => []
  | t :: rest => vars t ++ varsIn rest

end

/-- What is declared otherwise in the parts of a node stays inside. -/
def keepsLexical : Kind → Bool
  | .functionDeclaration _ | .function _ | .arrow | .block | .catch_ | .switch | .for_
  | .forEach _ | .import_ .. => true
  | _ => false

/-- The names that a node itself declares, but not by `var`. -/
def ownLexical (kind : Kind) (parts : List Tree) : List String :=
  match kind with
  | .functionDeclaration name => [name]
  | .classDeclaration name => [name]
  | .declarations .let_ => boundNamesIn (declaredPatterns parts)
  | .declarations .const => boundNamesIn (declaredPatterns parts)
  | .import_ _ imports => importedNames imports
  | .exportDefault => parts.flatMap exportedName
  | _ => []

mutual

/-- The names that are declared for the scope around, other than by `var`. -/
def lexical : Tree → List String
  | node kind _ parts => ownLexical kind parts ++ if keepsLexical kind then [] else lexicalIn parts

/-- `lexical` of trees one after another. -/
def lexicalIn : List Tree → List String
  | [] => []
  | t :: rest => lexical t ++ lexicalIn rest

end

/-- The names that statements declare for their function or program. -/
def declaredIn (parts : List Tree) : List String :=
  varsIn parts ++ lexicalIn parts

mutual

/-- Something is computed when the pattern is bound: a default or a key. -/
def isComputed : Tree → Bool
  | node (.binding _) _ _ => false
  | node .hole _ _ => false
  | node .arrayPattern _ parts => isComputedIn parts
  | node .objectPattern _ parts => isComputedIn parts
  | node (.propertyPattern .computed) _ _ => true
  | node (.propertyPattern _) _ parts => isComputedIn parts
  | node (.shorthandPattern _) _ parts => !parts.isEmpty
  | node .restPattern _ parts => isComputedIn parts
  | _ => true

/-- Something is computed when one of the patterns is bound. -/
def isComputedIn : List Tree → Bool
  | [] => false
  | t :: rest => isComputed t || isComputedIn rest

end

/-! ## Scopes -/

/-- Which scope of a node. -/
inductive Slot where
  /-- What a class or a function expression calls itself. -/
  | ownName
  /-- Parameters, and the body with them if no parameter is computed. -/
  | parameters
  /-- The body after parameters that are computed. -/
  | body
  /-- Statements, a loop, or a clause that catches. -/
  | statements
deriving DecidableEq, Inhabited

/-- The scopes of a function around its part `i`, the innermost first. All but
arrow functions have `arguments`. -/
def functionScopes (implicit : List String) (parts : List Tree) (i : Nat) :
    List (Slot × List String) :=
  let parameters := implicit ++ boundNamesIn parts.dropLast
  if isComputedIn parts.dropLast then
    if i < parts.length - 1 then [(.parameters, parameters)]
    else [(.body, declaredIn parts), (.parameters, parameters)]
  else [(.parameters, parameters ++ declaredIn parts)]

/-- The scopes that a node opens around its part `i`, each with its names, the
innermost first. A function or class that is exported by default is a
declaration; it has no name of its own. -/
def scopes (isExported : Bool) (kind : Kind) (parts : List Tree) (i : Nat) :
    List (Slot × List String) :=
  match kind with
  | .functionDeclaration _ => functionScopes ["arguments"] parts i
  | .function name =>
    functionScopes ["arguments"] parts i ++
      if isExported then [] else [(.ownName, name.toList)]
  | .arrow => functionScopes [] parts i
  | .classDeclaration name => [(.ownName, [name])]
  | .classExpression name => [(.ownName, name.toList)]
  | .staticBlock => [(.statements, varsIn parts)]
  | .block => [(.statements, lexicalIn parts)]
  | .catch_ => [(.statements, boundNamesIn parts.dropLast ++ lexicalIn parts)]
  | .switch => if i = 0 then [] else [(.statements, lexicalIn parts)]
  | .for_ => [(.statements, lexicalIn parts)]
  | .forEach _ => [(.statements, lexicalIn parts)]
  | _ => []

/-- The innermost scope of a node around its part `i` that has the name. -/
def slot? (name : String) (isExported : Bool) (kind : Kind) (parts : List Tree) (i : Nat) :
    Option Slot :=
  ((scopes isExported kind parts i).find? fun s => s.2.contains name).map (·.1)

/-- The parts of a node in which names are read or declared. An import has none. -/
def visited (kind : Kind) (parts : List Tree) : List Tree :=
  match kind with
  | .import_ .. => []
  | _ => parts

/-- A scope as seen from one node further out. -/
def outward (i : Nat) (binder : List Nat × Slot) : List Nat × Slot :=
  (i :: binder.1, binder.2)

/-- The scope, in trees one after another, that the name belongs to at a place:
that of the node nearest to the place which has one with the name. -/
def binderIn? (name : String) : Bool → List Tree → List Nat → Option (List Nat × Slot)
  | isExported, parts, i :: j :: place =>
    parts[i]?.bind fun
      | node kind _ inner =>
        let within := binderIn? name (kind == .exportDefault) (visited kind inner) (j :: place)
        (within.map (outward i)).or
          ((slot? name isExported kind inner j).map fun s => ([i], s))
  | _, _, _ => none

/-- The scope of a program that the name belongs to at a place. There is none
if the program does not declare the name around the place. -/
def binder? (program : Tree) (name : String) (place : List Nat) : Option (List Nat × Slot) :=
  (binderIn? name false program.parts place).or
    (if (declaredIn program.parts).contains name then some ([], .statements) else none)

/-! ## Scopes that are not kept apart -/

/-- The names of scopes that a node opens for what is inside, where a
`ScopeTree` has no scope or only one for several. -/
def hiddenNames (kind : Kind) (parts : List Tree) : List String :=
  let separate := if isComputedIn parts.dropLast then declaredIn parts else []
  match kind with
  | .functionDeclaration _ => "arguments" :: separate
  | .function _ => "arguments" :: separate
  | .arrow => separate
  | .classDeclaration name => [name]
  | .classExpression name => name.toList
  | _ => []

/-- The hidden names of all nodes around a place. -/
def hiddenAround : List Tree → List Nat → List String
  | parts, i :: j :: place =>
    match parts[i]? with
    | some (node kind _ inner) =>
      hiddenNames kind inner ++ hiddenAround (visited kind inner) (j :: place)
    | none => []
  | _, _ => []

/-- The names that a node declares for a scope of its own, or by default for
the program, and that a `ScopeTree` has in another scope. -/
def ownStrays (kind : Kind) (parts : List Tree) : List String :=
  match kind with
  | .staticBlock => varsIn parts
  | .switch => lexicalIn parts
  | .for_ => lexicalIn parts
  | .forEach _ => lexicalIn parts
  | .exportDefault => parts.flatMap exportedName
  | _ => []

mutual

/-- The strays of all nodes of a tree. -/
def strays : Tree → List String
  | node kind _ parts => ownStrays kind parts ++ straysIn parts

/-- `strays` of trees one after another. -/
def straysIn : List Tree → List String
  | [] => []
  | t :: rest => strays t ++ straysIn rest

end

end Tree

end ModuleAssets.Syntax
