import ModuleAssets.Text.Span
import ModuleAssets.Value.Basic
/-!
# Outcomes — one value, or one of two

An expression with a test that cannot be decided may still have two known
outcomes. Such an outcome remembers the span of the test, so that a text put
in place of the expression can ask it again.
-/

namespace ModuleAssets

/-- The values an expression may have. -/
inductive Outcome where
  /-- It has this value. -/
  | single (value : Value)
  /-- It has the first value if the expression at `test` holds, and else the
  second. -/
  | either (test : Span) (first second : Value)
deriving Inhabited

namespace Outcome

/-- The value, if there is only one. -/
def single? : Outcome → Option Value
  | single v => some v
  | either .. => none

/-- Applies a function to each value. -/
def map? (f : Value → Option Value) : Outcome → Option Outcome
  | single v => (f v).map single
  | either test a b => (f a).bind fun a => (f b).map fun b => either test a b

/-- Combines two outcomes, of which at most one has two values. -/
def zip? (f : Value → Value → Option Value) (x y : Outcome) : Option Outcome :=
  match x, y with
  | x, single b => x.map? (f · b)
  | single a, y => y.map? (f a)
  | either .., either .. => none

end Outcome

end ModuleAssets
