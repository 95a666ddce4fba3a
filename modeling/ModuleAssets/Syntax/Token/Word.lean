import ModuleAssets.Syntax.Token.Escape
/-!
# Words — identifiers and keywords

A word is made of letters and of escapes for letters.
-/

namespace ModuleAssets.Syntax

/-- The characters of a word as far as they were read. -/
structure WordRun where
  name : List Char
  escaped : Bool
  /-- Where escapes are for characters that no word has there. -/
  unfit : List Nat
  /-- What to blame if the word ends with a broken escape. -/
  broken : Option Nat
  after : Cursor

namespace WordRun

/-- The word ends at a place. -/
def endingAt (c : Cursor) : WordRun :=
  ⟨[], false, [], none, c⟩

/-- Puts a letter in front. -/
def afterLetter (d : Char) (r : WordRun) : WordRun :=
  { r with name := d :: r.name }

/-- Puts an escape in front, which begins at an offset. -/
def afterEscape (offset : Nat) (d : Char) (fits : Bool) (r : WordRun) : WordRun :=
  { r with name := d :: r.name, escaped := true, unfit := if fits then r.unfit else offset :: r.unfit }

end WordRun

/-- The character may stand in a word, at its start or later. -/
def fitsWord (first : Bool) (c : Char) : Bool :=
  if first then isIdentifierStart c else isIdentifierPart c

/-- The rest of a word, of at most `fuel` characters. -/
def wordRun : Nat → Bool → Cursor → WordRun
  | 0, _, c => .endingAt c
  | fuel + 1, first, c =>
    match c.chars with
    | '\\' :: 'u' :: cs =>
      match unicodeEscape ⟨cs, c.offset + 2⟩ with
      | .code value after =>
        let d := Char.ofNat value
        (wordRun fuel false after).afterEscape c.offset d (fitsWord first d)
      | .broken offset after => ⟨[], true, [], some offset, after⟩
    | '\\' :: cs => ⟨[], true, [], some c.offset, ⟨cs, c.offset + 1⟩⟩
    | d :: cs =>
      if fitsWord first d then (wordRun fuel false ⟨cs, c.offset + d.utf8Size⟩).afterLetter d
      else .endingAt c
    | [] => .endingAt c

/-- A word that starts with a letter or an escape. -/
def scanWord (fuel : Nat) (c : Cursor) : Lexeme :=
  let run := wordRun fuel true c
  let spelling : Spelling :=
    if c.chars.head? == some '\\' then .disguised else if run.escaped then .escaped else .plain
  let token : Token :=
    match run.broken with
    | some offset => .malformed offset
    | none => .word (String.ofList run.name) spelling
  ⟨token, run.after, run.unfit.map (⟨·, .everywhere⟩)⟩

end ModuleAssets.Syntax
