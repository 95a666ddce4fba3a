import ModuleAssets.Syntax.Letters
import ModuleAssets.Text.Slice
/-!
# Tokens — words, literals and punctuators

A text is read token by token. Some tokens are read although the language has
no place for them in some or all texts: these come with complaints. Whether a
complaint counts is known only where the token is used.
-/

namespace ModuleAssets.Syntax

/-- A place in the text: the characters from there on and the byte offset. -/
structure Cursor where
  chars : List Char
  offset : Nat
deriving DecidableEq, Inhabited

/-- The place after some characters, the rest of the text being known. -/
def Cursor.skip (c : Cursor) (skipped rest : List Char) : Cursor :=
  ⟨rest, c.offset + Text.byteLength skipped⟩

/-- How a word is written. -/
inductive Spelling where
  | plain
  /-- With escapes after its first letter. -/
  | escaped
  /-- With an escape in place of its first letter. Such a word is a name and
  never a keyword. -/
  | disguised
deriving DecidableEq, Inhabited

/-- The smallest unit of the grammar. -/
inductive Token where
  /-- An identifier or a keyword. -/
  | word (name : String) (spelling : Spelling)
  | punctuator (text : String)
  | number (value : Float)
  | bigint
  /-- A string with its value, if it has one. -/
  | text (value : Option String) (escaped : Bool)
  | endOfText
  /-- Text that is no token, and the offset to blame. -/
  | malformed (offset : Nat)
deriving DecidableEq, Inhabited

/-- Where a complaint counts. -/
inductive Circumstance where
  | everywhere
  | inStrictCode
  | inModules
deriving DecidableEq, Inhabited

/-- Something wrong with a text that can still be read. -/
structure Complaint where
  offset : Nat
  circumstance : Circumstance
deriving DecidableEq, Inhabited

/-- A token, the place after it, and what is wrong with it. -/
structure Lexeme where
  token : Token
  after : Cursor
  complaints : List Complaint
deriving Inhabited

end ModuleAssets.Syntax
