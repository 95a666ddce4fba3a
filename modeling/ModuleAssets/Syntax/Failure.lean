/-!
# Failures — telling that a text is no module

A text is refused if neither grammar accepts it. The complaint of the module
grammar comes first, because a script is refused for its first import.
-/

namespace ModuleAssets.Syntax

/-- How every such message begins. -/
def failureHeadline : String := "failed to parse module"

/-- What the two grammars complain of. -/
structure Failure where
  script : String
  module_ : String
deriving DecidableEq, Inhabited

/-- The complaints in one message. -/
def Failure.message (f : Failure) : String :=
  failureHeadline ++ ": " ++ f.module_ ++ " (as script: " ++ f.script ++ ")"

end ModuleAssets.Syntax
