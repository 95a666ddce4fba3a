import ModuleAssets.Relocation.Loader
/-!
# Candidates — values on their way to an edit

A known path that an expression has is a candidate for an edit. It takes the
place of larger expressions as long as these have known values, too. When it
can grow no more, it is looked up among the files: a path of a file or a
directory is replaced by a reference to an asset.
-/

namespace ModuleAssets

open Syntax

/-- A known value of an expression, which may become an edit. -/
structure Candidate where
  span : Span
  outcome : Outcome
  /-- The value is a binary that the program loads at once. -/
  loadsBinary : Bool
  /-- The expression is nothing but the module's own directory. -/
  isDirectoryName : Bool
deriving Inhabited

namespace Candidate

/-- A single known value. -/
def ofValue (span : Span) (value : Value) : Candidate :=
  ⟨span, .single value, false, false⟩

/-- The candidate that reading a name makes: an absolute path, or a library
that finds binaries. -/
def ofName? (env : Environment) (name : String) (span : Span) : Option Candidate :=
  match env.lookup? name with
  | some (.text path) =>
    if Path.isAbsolute path then
      some { ofValue span (.text path) with isDirectoryName := name == "__dirname" }
    else none
  | some (.builtin b) => if b.isBinaryLocator then some (ofValue span (.builtin b)) else none
  | _ => none

end Candidate

/-- What a value refers to. -/
inductive Referent where
  | file (path : String)
  | directory (path : String)
  /-- Nothing but a truth value in the text. -/
  | literal (text : String)
deriving DecidableEq, Inhabited

namespace Referent

/-- What a value refers to, if a module may refer to it: not the root, not
the module itself, and no directory outside of its package. -/
def ofValue? (ctx : ModuleContext) : Value → Option Referent
  | .bool b => some (.literal (if b then "true" else "false"))
  | .text text =>
    (Path.resolve [text]).bind fun path =>
      if path = "/" ∨ path = ctx.id then none
      else
        match ctx.files.target path with
        | .ok (.file ..) => some (.file path)
        | .ok (.directory _) =>
          match ctx.packageRoot with
          | some root => if Path.isWithin path root then some (.directory path) else none
          | none => some (.directory path)
        | _ => none
  | _ => none

/-- The two are of one kind. -/
def sameKind : Referent → Referent → Bool
  | file _, file _ | directory _, directory _ | literal _, literal _ => true
  | _, _ => false

/-- The naming of a module's assets. -/
def naming (ctx : ModuleContext) : Naming :=
  ⟨ctx.options, ctx.packageBase⟩

/-- The expression for what is referred to. A binary may be loaded by it at
once. -/
def refer (ctx : ModuleContext) (loadsBinary : Bool) (d : Draft) : Referent → Draft × String
  | file path =>
    let (d, reference) := d.addFile (naming ctx) path
    (d, if loadsBinary then Loader.dynamicLoad reference else reference)
  | directory path => d.addDirectory (naming ctx) path
  | literal text => (d, text)

end Referent

namespace Candidate

/-- The text that takes the candidate's place, if one does. Of two values
both have to refer to something of one kind. -/
def replacement (ctx : ModuleContext) (source : String) (d : Draft) (c : Candidate) :
    Draft × Option String :=
  if c.isDirectoryName then (d, none)
  else
    match c.outcome with
    | .single v =>
      match Referent.ofValue? ctx v with
      | none | some (.literal _) => (d, none)
      | some referent =>
        let (d, text) := referent.refer ctx c.loadsBinary d
        (d, some text)
    | .either test a b =>
      match Referent.ofValue? ctx a, Referent.ofValue? ctx b with
      | some first, some second =>
        if first.sameKind second then
          let (d, first) := first.refer ctx c.loadsBinary d
          let (d, second) := second.refer ctx c.loadsBinary d
          let guard := (Text.slice? source test).getD ""
          (d, some (guard ++ " ? " ++ first ++ " : " ++ second))
        else (d, none)
      | _, _ => (d, none)

/-- Puts the replacement in the candidate's place. -/
def relocate (ctx : ModuleContext) (source : String) (d : Draft) (c : Candidate) : Draft :=
  match c.replacement ctx source d with
  | (d, some text) => d.overwrite c.span text
  | (d, none) => d

end Candidate

end ModuleAssets
