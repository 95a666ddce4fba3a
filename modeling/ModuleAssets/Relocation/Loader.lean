import ModuleAssets.Evaluate
import ModuleAssets.Relocation.SpecialCase
/-!
# The loader — where a script loads modules

A script has a function that loads modules. It is recognized by its name, as
long as no scope covers that. Modules of the other grammar have none.
-/

namespace ModuleAssets.Loader

open Syntax
open SpecialCase (argumentExpression)

/-- A loader that is left alone when modules are put together. -/
def dynamicName : String := "__non_webpack_require__"

/-- What a program is told to load at run time. -/
def dynamicLoad (argument : String) : String :=
  dynamicName ++ "(" ++ argument ++ ")"

/-- The expression reads the loader. -/
def isLoader (grammar : Grammar) (env : Environment) (t : Tree) : Bool :=
  grammar == .script && t.isIdentifier Environment.loaderName && env.loaderVisible

/-- The expression is a member of the loader. -/
def isLoaderMember (grammar : Grammar) (env : Environment) (name : String) : Tree → Bool
  | .node (.member n) _ [object] => n == name && isLoader grammar env object
  | _ => false

/-- The specifier of a call that loads a module by its literal name. -/
def requiredSpecifier? (grammar : Grammar) (env : Environment) : Tree → Option String
  | .node .call _ (callee :: first :: _) =>
    if isLoader grammar env callee then
      match (argumentExpression first).kind with
      | .text specifier => specifier
      | _ => none
    else none
  | _ => none

/-- The known module that an expression loads. -/
def requiredModule? (grammar : Grammar) (env : Environment) (t : Tree) : Option KnownModule :=
  (requiredSpecifier? grammar env t).bind Catalogue.module?

end ModuleAssets.Loader
