import ModuleAssets.Text.Slice
/-!
# Locations — paths as they are given

Here a path keeps its spelling: it is put below another one, and it is taken
apart, without working out `.` and `..`. Only slashes and `.` at its end mean
nothing.
-/

namespace ModuleAssets.Location

/-- A path below a directory. An absolute path stands for itself. -/
def below (directory path : String) : String :=
  if Text.startsWith path "/" then path
  else if directory = "" ∨ Text.endsWith directory "/" then directory ++ path
  else directory ++ "/" ++ path

/-- The characters of a path from last to first, without those at its end
that mean nothing. -/
def dropIdle : List Char → List Char
  | '/' :: rest => dropIdle rest
  | '.' :: '/' :: rest => dropIdle rest
  | cs => cs

/-- The name that a path ends with, unless that is `..`. The root has no
name. -/
def lastName? (path : String) : Option String :=
  let name := ((dropIdle path.toList.reverse).takeWhile (· != '/')).reverse
  if name = [] ∨ name = ['.'] ∨ name = ['.', '.'] then none else some (String.ofList name)

/-- The path without its last name. The root has no parent. -/
def parent? (path : String) : Option String :=
  match dropIdle path.toList.reverse with
  | [] => none
  | cs =>
    let rest := (dropIdle (cs.dropWhile (· != '/'))).reverse
    some (if rest = [] ∧ Text.startsWith path "/" then "/" else String.ofList rest)

end ModuleAssets.Location
