import ModuleAssets.Json.Reader
/-!
# Outlines — the top of a JSON text, its values unread

Of a text with settings only some values are asked for. The others have to be
well formed and no more: their strings may escape half of a surrogate pair,
their numbers may be too large for a double, and they may nest to any depth.
`Json.outline?` finds the values at the top, and `Json.valueOf?` reads one.
-/

namespace ModuleAssets.Json

/-! ## Values without parts -/

/-- The rest after a well-formed string, from after its opening quote. -/
def afterString? : List Char → Option (List Char)
  | [] => none
  | '"' :: rest => some rest
  | '\\' :: 'u' :: a :: b :: c :: d :: rest =>
    if [a, b, c, d].all fun x => (hexValue? x).isSome then afterString? rest else none
  | '\\' :: c :: rest =>
    if ['"', '\\', '/', 'b', 'f', 'n', 'r', 't'].contains c then afterString? rest else none
  | c :: rest => if c.toNat < 0x20 then none else afterString? rest

/-- The rest after one digit or more. -/
def afterDigits? (cs : List Char) : Option (List Char) :=
  if cs.head?.any Char.isDigit then some (cs.dropWhile Char.isDigit) else none

/-- The rest after the digits of a whole number, of which only a single one
may be zero at the start. -/
def afterWhole? : List Char → Option (List Char)
  | '0' :: rest => if rest.head?.any Char.isDigit then none else some rest
  | cs => afterDigits? cs

/-- The rest after a fraction, if one is here. -/
def afterFraction? : List Char → Option (List Char)
  | '.' :: rest => afterDigits? rest
  | cs => some cs

/-- The rest after an exponent, if one is here. -/
def afterExponent? : List Char → Option (List Char)
  | c :: cs =>
    if c = 'e' ∨ c = 'E' then
      match cs with
      | '-' :: rest => afterDigits? rest
      | '+' :: rest => afterDigits? rest
      | _ => afterDigits? cs
    else some (c :: cs)
  | [] => some []

/-- The rest after a well-formed number without its sign. -/
def afterNumber? (cs : List Char) : Option (List Char) := do
  afterExponent? (← afterFraction? (← afterWhole? cs))

/-- The rest after a well-formed value that is no array and no object. -/
def afterScalar? : List Char → Option (List Char)
  | 'n' :: 'u' :: 'l' :: 'l' :: rest => some rest
  | 't' :: 'r' :: 'u' :: 'e' :: rest => some rest
  | 'f' :: 'a' :: 'l' :: 's' :: 'e' :: rest => some rest
  | '"' :: rest => afterString? rest
  | '-' :: rest => afterNumber? rest
  | cs => afterNumber? cs

/-- The rest after a key and its colon. -/
def afterKey? (cs : List Char) : Option (List Char) :=
  match skipBlanks cs with
  | '"' :: rest => do
    match skipBlanks (← afterString? rest) with
    | ':' :: rest => some rest
    | _ => none
  | _ => none

/-! ## Values with parts -/

/-- What comes after a value: nothing that belongs to it, or another value
with the brackets that are open around that one. -/
inductive Following where
  | done (rest : List Char)
  | value (open_ : List Char) (rest : List Char)

/-- Closes the brackets that end after a value. An open bracket is given by
the one that closes it. -/
def closeBrackets? : List Char → List Char → Option Following
  | [], cs => some (.done cs)
  | closing :: outer, cs =>
    match separator? closing cs with
    | some (false, rest) => closeBrackets? outer rest
    | some (true, rest) =>
      if closing = ']' then some (.value (closing :: outer) rest)
      else (afterKey? rest).map (.value (closing :: outer))
    | none => none

/-- Goes over the first part of a value, or over all of it if it has none. -/
def enterValue? (open_ : List Char) (cs : List Char) : Option Following :=
  match skipBlanks cs with
  | '[' :: rest =>
    match skipBlanks rest with
    | ']' :: rest => closeBrackets? open_ rest
    | rest => some (.value (']' :: open_) rest)
  | '\x7b' :: rest =>
    match skipBlanks rest with
    | '\x7d' :: rest => closeBrackets? open_ rest
    | rest => (afterKey? rest).map (.value ('\x7d' :: open_))
  | rest => (afterScalar? rest).bind (closeBrackets? open_)

/-- The rest after a well-formed value inside open brackets, and after these.
`fuel` bounds the number of values in it. -/
def afterValue? : Nat → List Char → List Char → Option (List Char)
  | 0, _, _ => none
  | fuel + 1, open_, cs =>
    match enterValue? open_ cs with
    | some (.done rest) => some rest
    | some (.value open_ rest) => afterValue? fuel open_ rest
    | none => none

/-- The text of a well-formed value, and the rest. -/
def unread? (cs : List Char) : Option (List Char × List Char) :=
  (afterValue? (cs.length + 1) [] cs).map fun rest => (cs.take (cs.length - rest.length), rest)

/-! ## Outlines -/

/-- An array or an object whose values are kept as they are written. -/
inductive Outline where
  | items (items : List (List Char))
  | members (members : List (String × List Char))
deriving DecidableEq, Inhabited

/-- The outline of a text that is an array or an object. -/
def outline? (text : String) : Option Outline := do
  let (outline, rest) ←
    match skipBlanks text.toList with
    | '[' :: rest =>
      match skipBlanks rest with
      | ']' :: rest => some (Outline.items [], rest)
      | rest => (items? unread? (rest.length + 1) rest).map fun (l, r) => (.items l, r)
    | '\x7b' :: rest =>
      match skipBlanks rest with
      | '\x7d' :: rest => some (.members [], rest)
      | rest => (members? unread? (rest.length + 1) rest).map fun (l, r) => (.members l, r)
    | _ => none
  if (skipBlanks rest).isEmpty then some outline else none

/-- The value that characters write inside an array or an object. -/
def valueOf? (cs : List Char) : Option Json :=
  match value? (maxDepth - 1) cs with
  | some (value, rest) => if (skipBlanks rest).isEmpty then some value else none
  | none => none

end ModuleAssets.Json
