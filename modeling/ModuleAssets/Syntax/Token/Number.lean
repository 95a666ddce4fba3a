import ModuleAssets.Decimal.Numeral
import ModuleAssets.Json.Reader
import ModuleAssets.Syntax.Token
/-!
# Numbers — decimal, and to the bases 2, 8 and 16

A number to another base than ten has a letter for it, or only a zero in
front of octal digits. It is worked out digit by digit, and rounded at each.
-/

namespace ModuleAssets.Syntax

/-! ## Digits -/

/-- Digits in a row, with underscores among them. -/
structure DigitRun where
  digits : List Char
  /-- An underscore stands where no digit follows. -/
  misplaced : Bool
  start : Nat
  after : Cursor

/-- Digits at a place, and whether an underscore is misplaced among them. -/
def digitsFrom (isDigit : Char → Bool) : Nat → List Char → List Char × Bool × Cursor
  | offset, [] => ([], false, ⟨[], offset⟩)
  | offset, c :: cs =>
    if isDigit c then
      let (digits, misplaced, after) := digitsFrom isDigit (offset + 1) cs
      (c :: digits, misplaced, after)
    else if c = '_' then
      let (digits, misplaced, after) := digitsFrom isDigit (offset + 1) cs
      (digits, misplaced || !cs.head?.any isDigit, after)
    else ([], false, ⟨c :: cs, offset⟩)

/-- The digits at a place. -/
def digitRun (isDigit : Char → Bool) (c : Cursor) : DigitRun :=
  let (digits, misplaced, after) := digitsFrom isDigit c.offset c.chars
  ⟨digits, misplaced, c.offset, after⟩

namespace DigitRun

/-- What is wrong with the digits. -/
def complaints (r : DigitRun) : List Complaint :=
  if r.misplaced then [⟨r.start, .everywhere⟩] else []

/-- The number of characters, underscores included. -/
def length (r : DigitRun) : Nat :=
  r.after.offset - r.start

end DigitRun

/-- The number that digits write to a base. -/
def valueInBase (base : Nat) (digits : List Char) : Float :=
  let step (x : Float) (c : Char) : Float :=
    x * Float.ofNat base + Float.ofNat ((Json.hexValue? c).getD 0)
  digits.foldl step 0.0

/-- A number that ends at a place, where no name may begin. -/
def finishNumber (value : Float) (after : Cursor) (complaints : List Complaint) : Lexeme :=
  if after.chars.head?.any isIdentifierStart then ⟨.malformed after.offset, after, complaints⟩
  else ⟨.number value, after, complaints⟩

/-! ## Other bases than ten -/

/-- The base that a letter after a zero stands for. -/
def baseOf? (c : Char) : Option Nat :=
  if c = 'x' ∨ c = 'X' then some 16
  else if c = 'o' ∨ c = 'O' then some 8
  else if c = 'b' ∨ c = 'B' then some 2
  else none

/-- The number after the letter for its base. -/
def basedNumber (base : Nat) (c : Cursor) : Lexeme :=
  let run := digitRun (fun d => (Json.hexValue? d).any (· < base)) c
  if run.digits.isEmpty then ⟨.malformed c.offset, run.after, run.complaints⟩
  else
    match run.after.chars with
    | 'n' :: rest => ⟨.bigint, ⟨rest, run.after.offset + 1⟩, run.complaints⟩
    | _ => finishNumber (valueInBase base run.digits) run.after run.complaints

/-! ## Base ten -/

/-- The fraction of a number. -/
def fractionPart? (c : Cursor) : Option DigitRun :=
  match c.chars with
  | '.' :: rest => some (digitRun Char.isDigit ⟨rest, c.offset + 1⟩)
  | _ => none

/-- The exponent of a number, and whether it is negative. -/
def exponentPart? (c : Cursor) : Option (Bool × DigitRun) :=
  match c.chars with
  | d :: rest =>
    if d = 'e' ∨ d = 'E' then
      match rest with
      | '-' :: rest => some (true, digitRun Char.isDigit ⟨rest, c.offset + 2⟩)
      | '+' :: rest => some (false, digitRun Char.isDigit ⟨rest, c.offset + 2⟩)
      | _ => some (false, digitRun Char.isDigit ⟨rest, c.offset + 1⟩)
    else none
  | [] => none

/-- The rest of a decimal number after its whole digits. -/
def finishDecimal (whole : List Char) (c : Cursor) (complaints : List Complaint) : Lexeme :=
  let fraction := fractionPart? c
  let complaints := complaints ++ (fraction.map (·.complaints)).getD []
  let digits := (fraction.map (·.digits)).getD []
  let significand := Decimal.natOfDigits (whole ++ digits)
  let c := (fraction.map (·.after)).getD c
  match exponentPart? c with
  | none =>
    finishNumber (Decimal.toFloat ⟨significand, -(digits.length : Int)⟩) c complaints
  | some (negative, run) =>
    let complaints := complaints ++ run.complaints
    if run.digits.isEmpty then ⟨.malformed run.start, run.after, complaints⟩
    else
      let written : Int := Decimal.natOfDigits run.digits
      let exponent := if negative then -written else written
      finishNumber (Decimal.toFloat ⟨significand, exponent - digits.length⟩) run.after complaints

/-- A number without a letter for its base. More digits after a zero are octal
if they can be. -/
def decimalNumber (c : Cursor) : Lexeme :=
  let whole := digitRun Char.isDigit c
  let afterZero := whole.digits.head? == some '0' && 1 < whole.length
  match whole.after.chars with
  | 'n' :: rest => ⟨.bigint, ⟨rest, whole.after.offset + 1⟩, whole.complaints⟩
  | _ =>
    let complaints :=
      whole.complaints ++ if afterZero then [⟨c.offset, .inStrictCode⟩] else []
    if afterZero && whole.digits.all (· < '8') then
      finishNumber (valueInBase 8 whole.digits) whole.after complaints
    else finishDecimal whole.digits whole.after complaints

/-- A number that starts with a digit or a point. -/
def scanNumber (c : Cursor) : Lexeme :=
  match c.chars with
  | '0' :: letter :: rest =>
    match baseOf? letter with
    | some base => basedNumber base ⟨rest, c.offset + 2⟩
    | none => decimalNumber c
  | _ => decimalNumber c

end ModuleAssets.Syntax
