import ModuleAssets.Syntax.Token.Number
import ModuleAssets.Syntax.Token.Quoted
/-!
# Scanning — the next token after blanks and comments

`Scan.next` reads one token. Besides comments proper there are two kinds of
old ones, which only scripts have. They belong to the token after them.
-/

namespace ModuleAssets.Syntax

/-! ## Blanks and comments -/

/-- What is being skipped. -/
inductive Skipping where
  | blanks
  | lineComment
  | blockComment

/-- Where skipping ended, whether a line ended on the way, and whether a
comment does not end. -/
structure Skipped where
  cursor : Cursor
  newline : Bool
  unclosed : Bool

/-- Skips blanks and comments. -/
def skipFrom : Skipping → Bool → Nat → List Char → Skipped
  | .blockComment, newline, offset, [] => ⟨⟨[], offset⟩, newline, true⟩
  | _, newline, offset, [] => ⟨⟨[], offset⟩, newline, false⟩
  | .blanks, newline, offset, '/' :: '/' :: cs => skipFrom .lineComment newline (offset + 2) cs
  | .blanks, newline, offset, '/' :: '*' :: cs => skipFrom .blockComment newline (offset + 2) cs
  | .blanks, newline, offset, c :: cs =>
    if isLineBreak c then skipFrom .blanks true (offset + c.utf8Size) cs
    else if isBlank c then skipFrom .blanks newline (offset + c.utf8Size) cs
    else ⟨⟨c :: cs, offset⟩, newline, false⟩
  | .lineComment, newline, offset, c :: cs =>
    if isLineBreak c then skipFrom .blanks true (offset + c.utf8Size) cs
    else skipFrom .lineComment newline (offset + c.utf8Size) cs
  | .blockComment, newline, offset, '*' :: '/' :: cs => skipFrom .blanks newline (offset + 2) cs
  | .blockComment, newline, offset, c :: cs =>
    skipFrom .blockComment (newline || isLineBreak c) (offset + c.utf8Size) cs

/-- An old comment starts here: an opening one anywhere, a closing one only at
the start of a line. -/
def isOldComment (newline : Bool) : List Char → Bool
  | '<' :: '!' :: '-' :: '-' :: _ => true
  | '-' :: '-' :: '>' :: _ => newline
  | _ => false

/-- Skips blanks and comments, old ones included, of which there are at most
`fuel`. The offsets are where old ones start. -/
def skipAll : Nat → Skipped → List Nat × Skipped
  | 0, s => ([], s)
  | fuel + 1, s =>
    if isOldComment s.newline s.cursor.chars then
      let (starts, s') :=
        skipAll fuel (skipFrom .lineComment s.newline s.cursor.offset s.cursor.chars)
      (s.cursor.offset :: starts, s')
    else ([], s)

/-! ## Punctuators -/

/-- The punctuators, longer ones before those they begin with. -/
def punctuators : List (List Char) :=
  [['>', '>', '>', '='], ['.', '.', '.'], ['=', '=', '='], ['!', '=', '='], ['*', '*', '='],
    ['<', '<', '='], ['>', '>', '='], ['>', '>', '>'], ['&', '&', '='], ['|', '|', '='],
    ['?', '?', '='], ['=', '>'], ['=', '='], ['!', '='], ['<', '='], ['>', '='], ['&', '&'],
    ['|', '|'], ['?', '?'], ['?', '.'], ['+', '+'], ['-', '-'], ['+', '='], ['-', '='],
    ['*', '='], ['/', '='], ['%', '='], ['&', '='], ['|', '='], ['^', '='], ['<', '<'],
    ['>', '>'], ['*', '*'], ['\x7b'], ['\x7d'], ['('], [')'], ['['], [']'], [';'], [','], ['<'],
    ['>'], ['+'], ['-'], ['*'], ['/'], ['%'], ['&'], ['|'], ['^'], ['!'], ['~'], ['?'], [':'],
    ['='], ['.'], ['@'], ['#']]

/-- The punctuator that starts here. `?.` before a digit is only `?`. -/
def scanPunctuator (c : Cursor) : Lexeme :=
  match c.chars with
  | '?' :: '.' :: d :: rest =>
    if d.isDigit then ⟨.punctuator "?", ⟨'.' :: d :: rest, c.offset + 1⟩, []⟩
    else ⟨.punctuator "?.", ⟨d :: rest, c.offset + 2⟩, []⟩
  | cs =>
    match punctuators.find? (·.isPrefixOf cs) with
    | some p => ⟨.punctuator (String.ofList p), ⟨cs.drop p.length, c.offset + p.length⟩, []⟩
    | none => ⟨.malformed c.offset, c.skip (cs.take 1) (cs.drop 1), []⟩

/-! ## Tokens -/

/-- The token that starts here. A template is a token only up to its opening
quote, and none if its first piece does not end. -/
def scanToken (fuel : Nat) (c : Cursor) : Lexeme :=
  match c.chars with
  | [] => ⟨.endOfText, c, []⟩
  | '"' :: cs => scanString fuel '"' c.offset ⟨cs, c.offset + 1⟩
  | '\'' :: cs => scanString fuel '\'' c.offset ⟨cs, c.offset + 1⟩
  | '\x60' :: cs =>
    match scanPiece? (c.offset + 1) cs with
    | some _ => ⟨.punctuator "\x60", ⟨cs, c.offset + 1⟩, []⟩
    | none => ⟨.malformed c.offset, c.skip c.chars [], []⟩
  | '.' :: d :: _ => if d.isDigit then scanNumber c else scanPunctuator c
  | d :: _ =>
    if d.isDigit then scanNumber c
    else if d = '\\' ∨ isIdentifierStart d then scanWord fuel c
    else scanPunctuator c

/-- A token, its place, and what was skipped before it. -/
structure Scan where
  token : Token
  /-- Where the token begins, with the old comments in front of it. -/
  start : Nat
  /-- The text from the token on. -/
  here : Cursor
  /-- The text after the token. -/
  after : Cursor
  /-- A line ended before the token. -/
  newline : Bool
  /-- What is wrong with the token and with the comments before it. -/
  complaints : List Complaint

/-- The next token of a text with at most `fuel` characters. `newline` tells
that a line ends just before. -/
def Scan.next (fuel : Nat) (newline : Bool) (c : Cursor) : Scan :=
  let (oldStarts, skipped) := skipAll fuel (skipFrom .blanks newline c.offset c.chars)
  let lexeme := scanToken fuel skipped.cursor
  let unclosed := if skipped.unclosed then [⟨skipped.cursor.offset, .everywhere⟩] else []
  { token := lexeme.token
    start := oldStarts.head?.getD skipped.cursor.offset
    here := skipped.cursor
    after := lexeme.after
    newline := skipped.newline
    complaints := oldStarts.map (⟨·, .inModules⟩) ++ unclosed ++ lexeme.complaints }

end ModuleAssets.Syntax
