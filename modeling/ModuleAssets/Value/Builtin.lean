/-!
# Builtins — functions and modules that are known by name

A builtin stands for a function or a module whose meaning is known without
reading any code: the functions on paths and on the operating system, the
loader of modules, and the libraries that look for native binaries.
-/

namespace ModuleAssets

/-- The functions on paths. -/
inductive PathFunction where
  | join | resolve | normalize | dirname | basename | extname | relative | isAbsolute
deriving DecidableEq, Inhabited

/-- The functions on the operating system. -/
inductive OsFunction where
  | platform | arch | type | endianness
deriving DecidableEq, Inhabited

/-- What is known by name. -/
inductive Builtin where
  | path (function : PathFunction)
  | os (function : OsFunction)
  /-- The loader of modules. -/
  | require
  /-- The loader's function that finds a module. -/
  | requireResolve
  /-- The maker of applications. -/
  | express
  /-- An application. -/
  | expressApp
  /-- The finder of an addon by its name. -/
  | bindings
  /-- The library that finds an addon by a package's description. -/
  | preGyp
  /-- That library's finder. -/
  | preGypFind
  /-- The library that loads the one addon of a package. -/
  | nbind
  /-- That library's loader. -/
  | nbindInit
  /-- The function that finds a module from a given directory. -/
  | resolveFrom
deriving DecidableEq, Inhabited

namespace Builtin

/-- The builtin is a function. -/
def isCallable : Builtin → Bool
  | preGyp | nbind => false
  | _ => true

/-- The members of a builtin that are known. -/
def member? : Builtin → String → Option Builtin
  | require, "resolve" => some requireResolve
  | preGyp, "find" => some preGypFind
  | preGyp, "default" => some preGyp
  | nbind, "init" => some nbindInit
  | _, _ => none

/-- Reading the builtin alone is worth a look at the expression around it. -/
def isBinaryLocator : Builtin → Bool
  | bindings | preGyp => true
  | _ => false

end Builtin

end ModuleAssets
