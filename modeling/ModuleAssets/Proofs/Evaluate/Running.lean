import ModuleAssets.Proofs.Evaluate.Datum
import ModuleAssets.Proofs.Path.Parting
import ModuleAssets.Proofs.Path.ScanBack
/-!
# Running — what an expression gives when it runs

`Runs` says that an expression completes with a datum, for the expressions
that are made of literals, templates, arrays, objects, members, operators,
conditionals and calls of the functions on paths and on the operating system.
The functions on paths read their arguments unit by unit as a running program
does (`Path.Scan`, `Path.ScanBack`). The operating system is Linux on a 64-bit
machine.
-/

namespace ModuleAssets.Language

open ModuleAssets.Path (Scan)
open Syntax Syntax.Tree
open Text (units unitsOf)

/-- Where an expression runs. -/
structure Machine where
  /-- What the names hold that can be read. -/
  names : String → Option Datum
  /-- The directory in which the program runs. -/
  directory : List Char

/-! ## Functions -/

/-- A call completes with a datum. -/
inductive Calls (m : Machine) : Builtin → List Datum → Datum → Prop
  | join (segments : List (List Char)) :
    Calls m (.path .join) (segments.map .ofChars) (.ofChars (Scan.join segments))
  | resolve {segments : List (List Char)} {path : List Char}
    (h : Scan.resolve m.directory (segments.map some) = some path) :
    Calls m (.path .resolve) (segments.map .ofChars) (.ofChars path)
  | normalize (path : List Char) (rest : List Datum) :
    Calls m (.path .normalize) (.ofChars path :: rest) (.ofChars (Scan.normalize path))
  | relative {start target path : List Char} (rest : List Datum)
    (h : Scan.relative m.directory start target = some path) :
    Calls m (.path .relative) (.ofChars start :: .ofChars target :: rest) (.ofChars path)
  | isAbsolute (path : List Nat) (rest : List Datum) :
    Calls m (.path .isAbsolute) (.text path :: rest)
      (.bool (path.head? == some Path.ScanBack.slash))
  | dirname (path : List Nat) (rest : List Datum) :
    Calls m (.path .dirname) (.text path :: rest) (.text (Path.ScanBack.dirname path))
  | basename (path : List Nat) {rest : List Datum}
    (h : rest.head? = none ∨ rest.head? = some .undefined) :
    Calls m (.path .basename) (.text path :: rest) (.text (Path.ScanBack.basename path))
  | basenameWithout (path ending : List Nat) (rest : List Datum) :
    Calls m (.path .basename) (.text path :: .text ending :: rest)
      (.text (Path.ScanBack.basenameWithout path ending))
  | extname (path : List Nat) (rest : List Datum) :
    Calls m (.path .extname) (.text path :: rest) (.text (Path.ScanBack.extname path))
  | platform (arguments : List Datum) : Calls m (.os .platform) arguments (.ofString "linux")
  | arch (arguments : List Datum) : Calls m (.os .arch) arguments (.ofString "x64")
  | type (arguments : List Datum) : Calls m (.os .type) arguments (.ofString "Linux")
  | endianness (arguments : List Datum) : Calls m (.os .endianness) arguments (.ofString "LE")

/-! ## Expressions -/

/-- The characters with each end of a line as a line feed. -/
def lineFeeds : List Char → List Char
  | [] => []
  | '\r' :: '\n' :: rest => '\n' :: lineFeeds rest
  | '\r' :: rest => '\n' :: lineFeeds rest
  | c :: rest => c :: lineFeeds rest

/-- A piece of a template without escapes stands for a text. -/
def Cooks (piece : String) (u : List Nat) : Prop :=
  '\\' ∉ piece.toList ∧ u = (lineFeeds piece.toList).flatMap unitsOf

/-- The key of a property as a text. -/
inductive KeyOf : Key → List Nat → Prop
  | name (n : String) : KeyOf (.name n) (units n)
  | text (t : String) : KeyOf (.text (some t)) (units t)
  | number {x : Float} {t : List Char} (h : Double.Writes x t) :
    KeyOf (.number x) (t.flatMap unitsOf)

/-- A property with this key is no member. It tells the prototype. -/
def setsPrototype : Key → Bool
  | .name n => n == "__proto__"
  | .text t => t == some "__proto__"
  | _ => false

/-- The expression ends with its left operand. -/
def endsAtLeft? : BinaryOp → Datum → Option Bool
  | .and, d => d.truthy?.map (!·)
  | .or, d => d.truthy?
  | .nullish, d => some (!d.isNullish)
  | _, _ => none

mutual

/-- An expression completes with a datum. -/
inductive Runs (m : Machine) : Tree → Datum → Prop
  | text (t : String) (span : Span) (parts : List Tree) :
    Runs m (node (.text (some t)) span parts) (.ofString t)
  | number (x : Float) (span : Span) (parts : List Tree) :
    Runs m (node (.number x) span parts) (.number x)
  | boolean (b : Bool) (span : Span) (parts : List Tree) :
    Runs m (node (.boolean b) span parts) (.bool b)
  | null (span : Span) (parts : List Tree) : Runs m (node .null span parts) .null
  | identifier {name : String} {d : Datum} (h : m.names name = some d) (span : Span)
    (parts : List Tree) : Runs m (node (.identifier name) span parts) d
  | paren {inner : Tree} {d : Datum} (h : Runs m inner d) (span : Span) :
    Runs m (node .paren span [inner]) d
  | template {first : String} {rest : List String} {parts : List Tree} {u w : List Nat}
    (hfirst : Cooks first u) (h : RunsText m u rest parts w) (span : Span) :
    Runs m (node (.template (first :: rest)) span parts) (.text w)
  | member {object : Tree} {name : String} {o d : Datum} (h : Runs m object o)
    (hget : Get o (units name) d) (span : Span) : Runs m (node (.member name) span [object]) d
  | computedMember {object key : Tree} {o k d : Datum} {u : List Nat} (h : Runs m object o)
    (hkey : Runs m key k) (htext : ToText k u) (hget : Get o u d) (span : Span) :
    Runs m (node .computedMember span [object, key]) d
  | call {callee : Tree} {arguments : List Tree} {b : Builtin} {ds : List Datum} {d : Datum}
    (h : Runs m callee (.facility b)) (harguments : RunsAll m arguments ds)
    (hcall : Calls m b ds d) (span : Span) : Runs m (node .call span (callee :: arguments)) d
  | conditional {test first second : Tree} {t d : Datum} {b : Bool} (h : Runs m test t)
    (htruthy : t.truthy? = some b) (hchosen : Runs m (if b then first else second) d)
    (span : Span) : Runs m (node .conditional span [test, first, second]) d
  | atLeft {op : BinaryOp} {left right : Tree} {d : Datum} (h : Runs m left d)
    (hends : endsAtLeft? op d = some true) (span : Span) :
    Runs m (node (.binary op) span [left, right]) d
  | atRight {op : BinaryOp} {left right : Tree} {c d : Datum} (h : Runs m left c)
    (hends : endsAtLeft? op c = some false) (hright : Runs m right d) (span : Span) :
    Runs m (node (.binary op) span [left, right]) d
  | binary {op : BinaryOp} {left right : Tree} {a b d : Datum} (h : Runs m left a)
    (hright : Runs m right b) (hcombines : Combines op a b d) (span : Span) :
    Runs m (node (.binary op) span [left, right]) d
  | void {operand : Tree} {d : Datum} (h : Runs m operand d) (span : Span) :
    Runs m (node (.unary .void) span [operand]) .undefined
  | unary {op : UnaryOp} {operand : Tree} {a d : Datum} (h : Runs m operand a)
    (hchanges : Changes op a d) (span : Span) : Runs m (node (.unary op) span [operand]) d
  | array {items : List Tree} {ds : List Datum} (h : RunsAll m items ds) (span : Span) :
    Runs m (node .array span items) (.array ds)
  | object {members : List Tree} {own : List (List Nat × Datum)} (h : RunsMembers m [] members own)
    (span : Span) : Runs m (node .object span members) (.object own)

/-- Expressions complete one after another. -/
inductive RunsAll (m : Machine) : List Tree → List Datum → Prop
  | nil : RunsAll m [] []
  | cons {t : Tree} {rest : List Tree} {d : Datum} {ds : List Datum} (h : Runs m t d)
    (hrest : RunsAll m rest ds) : RunsAll m (t :: rest) (d :: ds)

/-- From a text the expressions of a template and the pieces after them lead to
another. -/
inductive RunsText (m : Machine) : List Nat → List String → List Tree → List Nat → Prop
  | nil (u : List Nat) : RunsText m u [] [] u
  | cons {u v p w : List Nat} {piece : String} {pieces : List String} {t : Tree}
    {rest : List Tree} {d : Datum} (h : Runs m t d) (htext : ToText d v) (hpiece : Cooks piece p)
    (hrest : RunsText m (u ++ v ++ p) pieces rest w) :
    RunsText m u (piece :: pieces) (t :: rest) w

/-- From some members the properties of an object lead to others. -/
inductive RunsMembers (m : Machine) :
    List (List Nat × Datum) → List Tree → List (List Nat × Datum) → Prop
  | nil (own : List (List Nat × Datum)) : RunsMembers m own [] own
  | property {own all : List (List Nat × Datum)} {key : Key} {value : Tree} {rest : List Tree}
    {u : List Nat} {d : Datum} (hkey : KeyOf key u) (hproto : setsPrototype key = false)
    (h : Runs m value d) (span : Span) (hrest : RunsMembers m ((u, d) :: own) rest all) :
    RunsMembers m own (node (.property key) span [value] :: rest) all
  | prototype {own all : List (List Nat × Datum)} {key : Key} {value : Tree} {rest : List Tree}
    {d : Datum} (hproto : setsPrototype key = true) (h : Runs m value d) (span : Span)
    (hrest : RunsMembers m own rest all) :
    RunsMembers m own (node (.property key) span [value] :: rest) all
  | shorthand {own all : List (List Nat × Datum)} {name : String} {rest : List Tree} {d : Datum}
    (h : m.names name = some d) (span : Span) (parts : List Tree)
    (hrest : RunsMembers m ((units name, d) :: own) rest all) :
    RunsMembers m own (node (.shorthand name) span parts :: rest) all

end

end ModuleAssets.Language
