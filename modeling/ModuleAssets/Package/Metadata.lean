import ModuleAssets.Files.Tree
import ModuleAssets.Json.Reader
import ModuleAssets.Path
/-!
# Packages — where a module belongs

An installed module belongs to the package below the last `node_modules` of
its path. Any module is also in the scope of the nearest directory that has a
description of a package.
-/

namespace ModuleAssets.Package

/-- The name of a package's description. -/
def descriptionName : String := "package.json"

/-- The directory of installed packages, between slashes. -/
def marker : List Char := "/node_modules/".toList

/-- What stands before and after the last occurrence of a mark. -/
def splitAtLast (mark : List Char) : List Char → Option (List Char × List Char)
  | [] => none
  | c :: cs =>
    match splitAtLast mark cs with
    | some (before, after) => some (c :: before, after)
    | none => (Text.dropPrefix? (c :: cs) mark).map fun after => ([], after)

/-- The directory of the installed package that a module belongs to. The name
of a package that starts with `@` has two segments. -/
def base? (id : String) : Option String :=
  (splitAtLast marker id.toList).bind fun (before, after) =>
    match Text.splitAtChar '/' after with
    | [] => none
    | first :: rest =>
      let name? : Option (List Char) :=
        if first = [] then none
        else if first.head? = some '@' then
          match rest with
          | second :: _ => if second = [] then none else some (first ++ '/' :: second)
          | [] => none
        else some first
      name?.map fun name => String.ofList (before ++ marker ++ name)

/-- The nearest directory around a module with a description of a package. -/
def scope? (files : FileTree) (id : String) : Option String :=
  (Path.ancestors (Path.dirname id)).find? fun directory =>
    files.isFile (directory ++ "/" ++ descriptionName)

/-- The description of the package in a directory. -/
def description? (files : FileTree) (directory : String) : Option (List (String × Json)) :=
  match files.readText (directory ++ "/" ++ descriptionName) with
  | .error _ => none
  | .ok text =>
    match (Json.read? text).map Json.merged with
    | some (.object members) => some members
    | _ => none

end ModuleAssets.Package
