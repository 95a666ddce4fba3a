import ModuleAssets.Relocation.SpecialCase
import ModuleAssets.Syntax.Scope
/-!
# Wrappers — scripts that fit several loaders

Such a script is one call. A function gets a factory and hands it the loader,
and the factory takes the loader as its parameter `require`:

    (function (factory) { … factory(require, exports) … })(function (require, exports) { … })

The parameter hides the loader that the module has anyway. It gets another
name in the text, and the factory's scope no longer declares it, so that the
factory sees the loader.
-/

namespace ModuleAssets.Wrapper

open Syntax

/-- The new name of the parameter. -/
def parameterName : String := "__factory_require__"

mutual

/-- Somewhere the factory is called with the loader first. -/
def passesLoader (factory : String) : Tree → Bool
  | .node kind _ parts =>
    (match kind, parts with
      | .call, callee :: first :: _ =>
        callee.isIdentifier factory
          && (SpecialCase.argumentExpression first).isIdentifier "require"
      | _, _ => false)
    || passesLoaderIn factory parts

/-- `passesLoader` for some trees. -/
def passesLoaderIn (factory : String) : List Tree → Bool
  | [] => false
  | t :: rest => passesLoader factory t || passesLoaderIn factory rest

end

/-- The name of a plain parameter. -/
def parameterName? : Tree → Option String
  | .node (.binding name) _ _ => some name
  | _ => none

/-- The factory's parameter for the loader and the factory itself, if the
statement is a wrapper. -/
def factory? (statement : Tree) : Option (Tree × Tree) :=
  match statement with
  | .node .expressionStatement _ [e] =>
    match e.unparen with
    | .node .call _ (callee :: argument :: _) =>
      let wrapper := callee.unparen
      let factory := (SpecialCase.argumentExpression argument).unparen
      match wrapper, factory with
      | .node (.function _) _ [parameter, _], .node (.function _) _ (loader :: _ :: _) =>
        match parameterName? parameter with
        | some name =>
          if loader.kind = .binding "require" ∧ passesLoaderIn name wrapper.parts then
            some (loader, factory)
          else none
        | none => none
      | _, _ => none
    | _ => none
  | _ => none

/-- Lets the factory of a wrapper see the loader. The first wrapper whose
factory has a scope counts. -/
def unwrap (grammar : Grammar) (program : Tree) (scopes : ScopeTree) (draft : Draft) :
    ScopeTree × Draft :=
  let found? : Option (Tree × Nat) :=
    program.parts.findSome? fun statement =>
      (factory? statement).bind fun (loader, factory) =>
        (scopes.lookupId .function factory.span).map fun id => (loader, id)
  match grammar, found? with
  | .script, some (loader, id) =>
    match draft.patch.overwrite loader.span parameterName with
    | .ok patch => (scopes.undeclare id "require", { draft with patch })
    | .error refusal => (scopes, draft.skip refusal)
  | _, _ => (scopes, draft)

end ModuleAssets.Wrapper
