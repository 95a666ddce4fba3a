import ModuleAssets.Path
import ModuleAssets.Value.Basic
/-!
# Catalogue — modules whose exports are known by name

Some modules are understood without being read. Each has an object of all its
exports, and a default export, which is also what the loader gives. The
functions on paths and on the operating system can be called with known
arguments. The operating system is Linux on a 64-bit machine.
-/

namespace ModuleAssets

/-- The exports of a module. -/
structure KnownModule where
  exports : Value
  defaultExport : Option Value
deriving Inhabited

namespace KnownModule

/-- The export of a name. -/
def export? (m : KnownModule) (name : String) : Option Value :=
  m.exports.member? name

/-- A module with nothing but a default export. -/
def ofDefault (value : Builtin) : KnownModule :=
  ⟨.object [("default", .builtin value)], some (.builtin value)⟩

/-- A module whose exports are its default export. -/
def ofExports (exports : Value) : KnownModule :=
  ⟨exports, some exports⟩

end KnownModule

namespace Platform

/-- The name of the operating system. -/
def name : String := "linux"

/-- The name of the machine. -/
def arch : String := "x64"

/-- What ends a line. -/
def lineEnd : String := "\n"

end Platform

namespace Catalogue

/-- The exports of the module on paths. -/
def pathExports : Value :=
  let function (name : String) (f : PathFunction) : String × Value := (name, .builtin (.path f))
  .object
    [function "join" .join, function "resolve" .resolve, function "normalize" .normalize,
      function "dirname" .dirname, function "basename" .basename, function "extname" .extname,
      function "relative" .relative, function "isAbsolute" .isAbsolute,
      ("sep", .text Path.separator), ("delimiter", .text Path.listDelimiter)]

/-- The exports of the module on the operating system. -/
def osExports : Value :=
  let function (name : String) (f : OsFunction) : String × Value := (name, .builtin (.os f))
  .object
    [function "platform" .platform, function "arch" .arch, function "type" .type,
      function "endianness" .endianness, ("EOL", .text Platform.lineEnd)]

/-- The module that a specifier names. -/
def module? : String → Option KnownModule
  | "path" => some (.ofExports pathExports)
  | "os" => some (.ofExports osExports)
  | "express" => some (.ofDefault .express)
  | "node-pre-gyp" | "node-pre-gyp/lib/pre-binding" | "node-pre-gyp/lib/pre-binding.js" =>
    some (.ofExports (.builtin .preGyp))
  | "nbind" => some (.ofDefault .nbind)
  | "bindings" => some (.ofDefault .bindings)
  | "resolve-from" => some (.ofDefault .resolveFrom)
  | _ => none

end Catalogue

namespace PathFunction

/-- The text that comes first among arguments. -/
def firstText? (arguments : List Value) : Option String :=
  arguments.head?.bind Value.text?

/-- What the function gives for some arguments. -/
def call? (f : PathFunction) (arguments : List Value) : Option Value :=
  match f with
  | join => (arguments.mapM Value.text?).map fun texts => .text (Path.join texts)
  | resolve => ((arguments.mapM Value.text?).bind Path.resolve).map .text
  | normalize => (firstText? arguments).map fun path => .text (Path.normalize path)
  | dirname => (firstText? arguments).map fun path => .text (Path.dirname path)
  | basename =>
    (firstText? arguments).bind fun path =>
      match arguments[1]? with
      | none | some Value.undefined => some (.text (Path.basename path none))
      | some ending => ending.text?.map fun ending => .text (Path.basename path (some ending))
  | extname => (firstText? arguments).map fun path => .text (Path.extname path)
  | relative =>
    (firstText? arguments).bind fun start =>
      (arguments[1]?.bind Value.text?).bind fun target => (Path.relative start target).map .text
  | isAbsolute => (firstText? arguments).map fun path => .bool (Path.isAbsolute path)

end PathFunction

namespace OsFunction

/-- What the function gives. -/
def call : OsFunction → Value
  | platform => .text Platform.name
  | arch => .text Platform.arch
  | type => .text "Linux"
  | endianness => .text "LE"

end OsFunction

end ModuleAssets
