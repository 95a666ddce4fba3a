import ModuleAssets.Syntax.Token.Word
/-!
# Quoted text — strings, pieces of templates, regular expressions

A string ends with its quote or, though this is wrong, with its line. Whether
a slash begins a regular expression, and where a template goes on, only the
grammar knows; `scanRegex?` and `scanPiece?` read these on request.
-/

namespace ModuleAssets.Syntax

/-! ## Strings -/

/-- The inside of a string as far as it was read. -/
structure TextRun where
  codes : List Nat
  escaped : Bool
  /-- Where octal escapes begin. -/
  octals : List Nat
  /-- Where a broken escape begins, which ends the string. -/
  broken : Option Nat
  closed : Bool
  after : Cursor

namespace TextRun

/-- The string ends at a place. -/
def endingAt (closed : Bool) (c : Cursor) : TextRun :=
  ⟨[], false, [], none, closed, c⟩

/-- Puts a character in front. -/
def afterChar (d : Char) (r : TextRun) : TextRun :=
  { r with codes := d.toNat :: r.codes }

/-- Puts an escape in front, which begins at an offset. -/
def afterEscape (offset : Nat) (codes : List Nat) (octal : Bool) (r : TextRun) : TextRun :=
  { r with
    codes := codes ++ r.codes, escaped := true
    octals := if octal then offset :: r.octals else r.octals }

end TextRun

/-- The inside of a string from a place on, of at most `fuel` characters. -/
def textRun (quote : Char) : Nat → Cursor → TextRun
  | 0, c => .endingAt false c
  | fuel + 1, c =>
    match c.chars with
    | [] => .endingAt false c
    | d :: cs =>
      let next : Cursor := ⟨cs, c.offset + d.utf8Size⟩
      if d = quote then .endingAt true next
      else if d = '\\' then
        match readEscape next with
        | .codes codes octal after => (textRun quote fuel after).afterEscape c.offset codes octal
        | .broken after => ⟨[], true, [], some c.offset, false, after⟩
      else if d = '\n' ∨ d = '\r' then .endingAt false c
      else (textRun quote fuel next).afterChar d

/-- A string, its opening quote being next. -/
def scanString (fuel : Nat) (quote : Char) (start : Nat) (inside : Cursor) : Lexeme :=
  let run := textRun quote fuel inside
  let octals := run.octals.map (⟨·, .inStrictCode⟩)
  match run.broken with
  | some offset => ⟨.malformed offset, run.after, octals⟩
  | none =>
    let unclosed := if run.closed then [] else [⟨start, .everywhere⟩]
    let value := (decodeCodes? run.codes).map String.ofList
    ⟨.text value run.escaped, run.after, octals ++ unclosed⟩

/-! ## Templates -/

/-- How a piece of a template ends. -/
inductive PieceEnd where
  /-- With the closing quote. -/
  | closed
  /-- With an expression. -/
  | expression
deriving DecidableEq

/-- A piece of a template. -/
structure Piece where
  /-- The text as it is written. -/
  written : List Char
  /-- Where the first escape begins that stands for nothing. -/
  broken : Option Nat
  ending : PieceEnd
  after : Cursor

/-- The escape at an offset stands for nothing in a template, where octal
digits are none. -/
def isBrokenInTemplate (offset : Nat) (cs : List Char) : Bool :=
  match readEscape ⟨cs, offset⟩ with
  | .codes _ octal _ => octal
  | .broken _ => true

/-- The piece of a template that starts here, if it ends. -/
def scanPiece? : Nat → List Char → Option Piece
  | _, [] => none
  | offset, '\x60' :: cs => some ⟨[], none, .closed, ⟨cs, offset + 1⟩⟩
  | offset, '$' :: '\x7b' :: cs => some ⟨[], none, .expression, ⟨cs, offset + 2⟩⟩
  | offset, '\\' :: c :: cs =>
    (scanPiece? (offset + 1 + c.utf8Size) cs).map fun p =>
      { p with
        written := '\\' :: c :: p.written
        broken := if isBrokenInTemplate (offset + 1) (c :: cs) then some offset else p.broken }
  | offset, c :: cs =>
    (scanPiece? (offset + c.utf8Size) cs).map fun p => { p with written := c :: p.written }

/-! ## Regular expressions -/

/-- The place after the body of a regular expression and the slash that ends
it. -/
def regexBody? : Bool → Nat → List Char → Option Cursor
  | _, _, [] => none
  | inClass, offset, '\\' :: c :: cs =>
    if isLineBreak c then none else regexBody? inClass (offset + 1 + c.utf8Size) cs
  | inClass, offset, c :: cs =>
    if isLineBreak c then none
    else if c = '[' then regexBody? true (offset + 1) cs
    else if c = ']' then regexBody? false (offset + 1) cs
    else if c = '/' ∧ !inClass then some ⟨cs, offset + 1⟩
    else regexBody? inClass (offset + c.utf8Size) cs

/-- The flags of a regular expression, from after its opening slash, and the
place after them. -/
def scanRegex? (fuel : Nat) (c : Cursor) : Option WordRun :=
  (regexBody? false c.offset c.chars).map fun after =>
    if after.chars.head?.any isIdentifierStart then wordRun fuel true after else .endingAt after

end ModuleAssets.Syntax
