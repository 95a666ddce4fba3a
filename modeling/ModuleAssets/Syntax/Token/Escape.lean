import ModuleAssets.Json.Reader
import ModuleAssets.Syntax.Token
/-!
# Escapes — characters written with a backslash

A string, a template or a word may write a character by its code. What an
escape stands for may be nothing (a line that goes on), one code, or half of
a surrogate pair.
-/

namespace ModuleAssets.Syntax

/-! ## Codes -/

/-- At most `limit` hexadecimal digits: how many there are, their value and
the place after them. An underscore may stand before a digit. -/
def hexRun : Nat → Nat → List Char → Nat → Nat → Nat × Nat × Cursor
  | _, offset, [], count, value => (count, value, ⟨[], offset⟩)
  | 0, offset, cs, count, value => (count, value, ⟨cs, offset⟩)
  | limit + 1, offset, c :: cs, count, value =>
    match Json.hexValue? c with
    | some d => hexRun limit (offset + 1) cs (count + 1) (16 * value + d)
    | none =>
      if c = '_' ∧ cs.head?.any fun d => (Json.hexValue? d).isSome then
        hexRun (limit + 1) (offset + 1) cs count value
      else (count, value, ⟨c :: cs, offset⟩)

/-- What the digits of an escape stand for. -/
inductive CodePoint where
  | code (value : Nat) (after : Cursor)
  /-- The digits are too few or too many, and what to blame for it. -/
  | broken (offset : Nat) (after : Cursor)

/-- The code point of an escape after its `u`: four digits, or any number of
them in braces. -/
def unicodeEscape (c : Cursor) : CodePoint :=
  match c.chars with
  | '\x7b' :: rest =>
    let first := c.offset + 1
    let (count, value, after) := hexRun rest.length first rest 0 0
    if count = 0 ∨ 0x10FFFF < value then .broken after.offset after
    else
      match after.chars with
      | '\x7d' :: rest => .code value ⟨rest, after.offset + 1⟩
      | _ => .broken first after
  | cs =>
    let (count, value, after) := hexRun 4 c.offset cs 0 0
    if count = 4 then .code value after else .broken after.offset after

/-! ## Strings and templates -/

/-- What an escape stands for after its backslash. -/
inductive Escape where
  /-- Code units and code points, and whether octal digits write them. -/
  | codes (codes : List Nat) (octal : Bool) (after : Cursor)
  /-- The escape stands for nothing. -/
  | broken (after : Cursor)

/-- The character is an octal digit. -/
def isOctal (c : Char) : Bool :=
  '0' ≤ c && c < '8'

/-- At most `limit` octal digits as a number, and the place after them. -/
def octalRun : Nat → Nat → Nat → List Char → Nat × Cursor
  | _, value, offset, [] => (value, ⟨[], offset⟩)
  | 0, value, offset, cs => (value, ⟨cs, offset⟩)
  | limit + 1, value, offset, c :: cs =>
    if isOctal c then octalRun limit (8 * value + (c.toNat - '0'.toNat)) (offset + 1) cs
    else (value, ⟨c :: cs, offset⟩)

/-- The code that a letter after a backslash stands for. -/
def letterCode? (c : Char) : Option Nat :=
  if c = 'n' then some 10
  else if c = 't' then some 9
  else if c = 'r' then some 13
  else if c = 'b' then some 8
  else if c = 'v' then some 11
  else if c = 'f' then some 12
  else none

/-- The escape at a place after a backslash. Octal escapes end before their
value exceeds a byte, and a zero that no octal digit follows is none. -/
def readEscape (c : Cursor) : Escape :=
  match c.chars with
  | [] => .broken c
  | d :: rest =>
    let next : Cursor := ⟨rest, c.offset + d.utf8Size⟩
    match letterCode? d with
    | some code => .codes [code] false next
    | none =>
      if d = 'x' then
        let (count, value, after) := hexRun 2 next.offset rest 0 0
        if count = 2 then .codes [value] false after else .broken after
      else if d = 'u' then
        match unicodeEscape next with
        | .code value after => .codes [value] false after
        | .broken _ after => .broken after
      else if d = '\r' ∧ rest.head? = some '\n' then .codes [] false ⟨rest.drop 1, next.offset + 1⟩
      else if isLineBreak d then .codes [] false next
      else if d = '0' ∧ !rest.head?.any isOctal then .codes [0] false next
      else if isOctal d then
        let (value, after) := octalRun (if d < '4' then 3 else 2) 0 c.offset c.chars
        .codes [value] true after
      else .codes [d.toNat] false next

/-- The text of code units and code points, if no surrogate stands alone. -/
def decodeCodes? : List Nat → Option (List Char)
  | [] => some []
  | [code] => if 0xD800 ≤ code ∧ code < 0xE000 then none else some [Char.ofNat code]
  | code :: next :: rest =>
    if 0xD800 ≤ code ∧ code < 0xDC00 ∧ 0xDC00 ≤ next ∧ next < 0xE000 then
      (decodeCodes? rest).map
        (Char.ofNat (0x10000 + (code - 0xD800) * 0x400 + (next - 0xDC00)) :: ·)
    else if 0xD800 ≤ code ∧ code < 0xE000 then none
    else (decodeCodes? (next :: rest)).map (Char.ofNat code :: ·)

end ModuleAssets.Syntax
