import ModuleAssets.Decimal.Numeral
import ModuleAssets.Proofs.Decimal.Reading
import ModuleAssets.Proofs.Decimal.Remainder
import ModuleAssets.Proofs.Decimal.Writing
import ModuleAssets.Syntax.Tree
import ModuleAssets.Text.Units
import ModuleAssets.Value.Builtin
/-!
# Data — what programs compute with

When a program runs, its expressions have data. How these are converted,
compared and combined is told here as the language defines it, apart from what
is known of values before. Texts are lists of 16-bit units. Operations on
doubles are taken as given, and so is the double nearest to a decimal.

Some of the language is left out: the identity of objects, the conversion of
objects, numerals in other bases than ten, and equality across types.
-/

namespace ModuleAssets.Language

open Text (units unitsOf)

/-- What an expression has when it runs. -/
inductive Datum where
  | undefined
  | null
  | bool (value : Bool)
  | number (value : Float)
  | text (units : List Nat)
  | array (items : List Datum)
  /-- An object by its own members, those defined last first. -/
  | object (members : List (List Nat × Datum))
  /-- A function or module that is known by name. -/
  | facility (value : Builtin)
  /-- Anything else, of which nothing is told. -/
  | other (handle : Nat)

namespace Datum

/-- The text with these characters. -/
def ofChars (cs : List Char) : Datum :=
  text (cs.flatMap unitsOf)

/-- The text of a string. -/
def ofString (s : String) : Datum :=
  text (units s)

/-- The datum is a text. -/
def isText : Datum → Bool
  | text _ => true
  | _ => false

/-- The datum is `undefined` or `null`. -/
def isNullish : Datum → Bool
  | undefined | null => true
  | _ => false

/-- The datum has no identity beyond its content. -/
def isPrimitive : Datum → Bool
  | array _ | object _ | facility _ | other _ => false
  | _ => true

/-- The datum counts as true. -/
def truthy? : Datum → Option Bool
  | undefined | null => some false
  | bool b => some b
  | number x => some (!(x == 0.0) && !x.isNaN)
  | text u => some (u != [])
  | array _ | object _ | facility _ => some true
  | other _ => none

/-- What `typeof` gives. -/
def typeName? : Datum → Option String
  | undefined => some "undefined"
  | null | array _ | object _ => some "object"
  | bool _ => some "boolean"
  | number _ => some "number"
  | text _ => some "string"
  | facility b => some (if b.isCallable then "function" else "object")
  | other _ => none

end Datum

/-! ## Conversions -/

/-- The datum as a text. -/
inductive ToText : Datum → List Nat → Prop
  | undefined : ToText .undefined (units "undefined")
  | null : ToText .null (units "null")
  | bool (b : Bool) : ToText (.bool b) (units (if b then "true" else "false"))
  | number {x : Float} {t : List Char} (h : Double.Writes x t) :
    ToText (.number x) (t.flatMap unitsOf)
  | text (u : List Nat) : ToText (.text u) u

/-- White space and the ends of lines. -/
def isBlank (c : Char) : Bool :=
  [0x9, 0xA, 0xB, 0xC, 0xD, 0x20, 0xA0, 0x1680, 0x2028, 0x2029, 0x202F, 0x205F, 0x3000,
    0xFEFF].contains c.toNat || (0x2000 ≤ c.toNat && c.toNat ≤ 0x200A)

/-- All characters are white space. -/
def AreBlank (cs : List Char) : Prop :=
  ∀ c ∈ cs, isBlank c = true

/-- A sign, which may be missing, and whether it makes a number negative. -/
inductive IsSign : List Char → Bool → Prop
  | missing : IsSign [] false
  | plus : IsSign ['+'] false
  | minus : IsSign ['-'] true

/-- The number with a sign. -/
def withSign (negative : Bool) (x : Float) : Float :=
  if negative then -x else x

/-- A text without white space around it stands for a number. -/
inductive NumericText : List Char → Float → Prop
  | blank : NumericText [] 0.0
  | numeral {sign cs : List Char} {negative : Bool} {d : Decimal} (hsign : IsSign sign negative)
    (h : Decimal.Numeral cs d) : NumericText (sign ++ cs) (withSign negative d.toFloat)
  | infinity {sign : List Char} {negative : Bool} (hsign : IsSign sign negative) :
    NumericText (sign ++ "Infinity".toList) (withSign negative Double.infinity)

/-- The text starts as a numeral in another base does. -/
def HasBase (cs : List Char) : Prop :=
  ∃ mark ∈ ['x', 'X', 'o', 'O', 'b', 'B'], ['0', mark] <+: cs

/-- The text `cs` stands between white space. -/
def IsCore (text cs : List Char) : Prop :=
  ∃ before after, text = before ++ cs ++ after ∧ AreBlank before ∧ AreBlank after

/-- The number that a text stands for, which is none for most. -/
inductive NumberOf : List Char → Float → Prop
  | numeric {text cs : List Char} {x : Float} (hcore : IsCore text cs) (h : NumericText cs x) :
    NumberOf text x
  | other {text : List Char}
    (h : ∀ cs, IsCore text cs → (∀ x, ¬ NumericText cs x) ∧ ¬ HasBase cs) :
    NumberOf text Double.nan

/-- The datum as a number. -/
inductive ToNumber : Datum → Float → Prop
  | undefined : ToNumber .undefined Double.nan
  | null : ToNumber .null 0.0
  | bool (b : Bool) : ToNumber (.bool b) (if b then 1.0 else 0.0)
  | number (x : Float) : ToNumber (.number x) x
  | text {cs : List Char} {x : Float} (h : NumberOf cs x) : ToNumber (.ofChars cs) x

/-! ## Comparisons -/

namespace Datum

/-- What `===` gives. -/
def strictEquals? : Datum → Datum → Option Bool
  | undefined, undefined | null, null => some true
  | bool x, bool y => some (x == y)
  | number x, number y => some (x == y)
  | text u, text v => some (u == v)
  | a, b => if a.isPrimitive || b.isPrimitive then some false else none

/-- What `==` gives. -/
def looseEquals? (a b : Datum) : Option Bool :=
  if a.isNullish || b.isNullish then some (a.isNullish && b.isNullish)
  else if a.isPrimitive && b.isPrimitive && a.typeName? == b.typeName? then a.strictEquals? b
  else none

end Datum

/-- The first datum is less than the second. There is no answer if one of them
is not a number. -/
inductive LessThan : Datum → Datum → Option Bool → Prop
  | texts (u v : List Nat) : LessThan (.text u) (.text v) (some (decide (u < v)))
  | numbers {a b : Datum} {x y : Float} (ha : ToNumber a x) (hb : ToNumber b y)
    (h : ¬ (a.isText ∧ b.isText)) :
    LessThan a b (if x.isNaN || y.isNaN then none else some (decide (x < y)))

/-! ## Operators -/

/-- What arithmetic gives. -/
def Computes : Syntax.BinaryOp → Float → Float → Float → Prop
  | .add, x, y, r => r = x + y
  | .sub, x, y, r => r = x - y
  | .mul, x, y, r => r = x * y
  | .div, x, y, r => r = x / y
  | .mod, x, y, r => Double.Remains x y r
  | _, _, _, _ => False

/-- What an operator gives for two operands. -/
inductive Combines : Syntax.BinaryOp → Datum → Datum → Datum → Prop
  | concat {a b : Datum} {u v : List Nat} (h : a.isText ∨ b.isText) (ha : ToText a u)
    (hb : ToText b v) : Combines .add a b (.text (u ++ v))
  | compute {op : Syntax.BinaryOp} {a b : Datum} {x y r : Float}
    (h : op = .add → ¬ (a.isText ∨ b.isText)) (ha : ToNumber a x) (hb : ToNumber b y)
    (hr : Computes op x y r) : Combines op a b (.number r)
  | equal {a b : Datum} {e : Bool} (h : a.looseEquals? b = some e) :
    Combines .equal a b (.bool e)
  | notEqual {a b : Datum} {e : Bool} (h : a.looseEquals? b = some e) :
    Combines .notEqual a b (.bool !e)
  | strictEqual {a b : Datum} {e : Bool} (h : a.strictEquals? b = some e) :
    Combines .strictEqual a b (.bool e)
  | strictNotEqual {a b : Datum} {e : Bool} (h : a.strictEquals? b = some e) :
    Combines .strictNotEqual a b (.bool !e)
  | less {a b : Datum} {r : Option Bool} (h : LessThan a b r) :
    Combines .less a b (.bool (r == some true))
  | greater {a b : Datum} {r : Option Bool} (h : LessThan b a r) :
    Combines .greater a b (.bool (r == some true))
  | lessEqual {a b : Datum} {r : Option Bool} (h : LessThan b a r) :
    Combines .lessEqual a b (.bool (r == some false))
  | greaterEqual {a b : Datum} {r : Option Bool} (h : LessThan a b r) :
    Combines .greaterEqual a b (.bool (r == some false))

/-- What an operator gives for one operand. -/
inductive Changes : Syntax.UnaryOp → Datum → Datum → Prop
  | not {a : Datum} {b : Bool} (h : a.truthy? = some b) : Changes .not a (.bool !b)
  | minus {a : Datum} {x : Float} (h : ToNumber a x) : Changes .minus a (.number (-x))
  | plus {a : Datum} {x : Float} (h : ToNumber a x) : Changes .plus a (.number x)
  | typeOf {a : Datum} {s : String} (h : a.typeName? = some s) : Changes .typeOf a (.ofString s)

/-! ## Members -/

/-- A member of a datum. -/
inductive Get : Datum → List Nat → Datum → Prop
  | own {members : List (List Nat × Datum)} {key : List Nat} {d : Datum}
    (h : members.lookup key = some d) : Get (.object members) key d
  | item {items : List Datum} {i : Nat} {d : Datum} (h : items[i]? = some d) :
    Get (.array items) ((Nat.toDigits 10 i).flatMap unitsOf) d
  | arrayLength (items : List Datum) :
    Get (.array items) (units "length") (.number (Float.ofNat items.length))
  | textLength (u : List Nat) : Get (.text u) (units "length") (.number (Float.ofNat u.length))
  | facility {b c : Builtin} {key : String} (h : b.member? key = some c) :
    Get (.facility b) (units key) (.facility c)

end ModuleAssets.Language
