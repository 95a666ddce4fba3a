import ModuleAssets.Command.Arguments
import ModuleAssets.Command.Job
import ModuleAssets.Json.Printer
/-!
# Reports — what a run has done

A report tells of every module in the order of the arguments, and of every
file and link that was written for them. It is shown to people as lines of
text and to programs as JSON.
-/

namespace ModuleAssets

/-- What became of a module. -/
structure ModuleReport where
  /-- The module as it was named. -/
  name : String
  result : Except JobError Written

/-- An asset in the output directory. -/
inductive AssetReport where
  | file (name : String) (bytes : Nat) (mode : Option Nat)
  | link (name target : String)
deriving DecidableEq, Inhabited

/-- What a run has done. -/
structure Report where
  /-- The absolute path of the output directory. -/
  outDir : String
  modules : List ModuleReport
  assets : List AssetReport

namespace ModuleReport

/-- The module failed. -/
def isFailed (m : ModuleReport) : Bool :=
  !m.result.isOk

/-- The module was written with edits. -/
def isTransformed (m : ModuleReport) : Bool :=
  match m.result with
  | .ok written => written.transformed
  | .error _ => false

/-- The line that tells of a module. -/
def line (m : ModuleReport) : String :=
  match m.result with
  | .error e => "Error: " ++ m.name ++ ": " ++ e.message ++ "\n"
  | .ok written =>
    m.name ++ " -> " ++ written.path ++ (if written.transformed then " (transformed)" else "") ++
      "\n"

/-- The object that tells of a module. -/
def toJson (m : ModuleReport) : Json :=
  match m.result with
  | .error e =>
    .object
      [("module", .string m.name), ("transformed", .bool false), ("error", .string e.message)]
  | .ok written =>
    .object
      [("module", .string m.name), ("output", .string written.path),
        ("transformed", .bool written.transformed)]

end ModuleReport

namespace AssetReport

/-- The line that tells of an asset. -/
def line : AssetReport → String
  | file name bytes _ => "  " ++ name ++ " (" ++ toString bytes ++ " bytes)\n"
  | link name target => "  " ++ name ++ " -> " ++ target ++ "\n"

/-- The object that tells of an asset. -/
def toJson : AssetReport → Json
  | file name bytes mode =>
    .object
      ([("name", .string name), ("bytes", .integer bytes)] ++
        (mode.map fun mode => ("mode", Json.integer mode)).toList)
  | link name target =>
    .object [("name", .string name), ("bytes", .integer 0), ("symlink", .string target)]

end AssetReport

namespace Report

/-- The number of modules that were written with edits. -/
def transformedCount (r : Report) : Nat :=
  r.modules.countP ModuleReport.isTransformed

/-- The number of modules that failed. -/
def errorCount (r : Report) : Nat :=
  r.modules.countP ModuleReport.isFailed

/-- A number of things, named in the singular only if it is one. -/
def counted (count : Nat) (one many : String) : String :=
  toString count ++ " " ++ (if count = 1 then one else many)

/-- The report for people. -/
def text (r : Report) : String :=
  String.join (r.modules.map ModuleReport.line) ++ String.join (r.assets.map AssetReport.line) ++
    "\n" ++ counted r.modules.length "module" "modules" ++ ", " ++
    toString r.transformedCount ++ " transformed, " ++
    counted r.assets.length "asset" "assets" ++ ", " ++
    counted r.errorCount "error" "errors" ++ "\n"

/-- The report for programs. -/
def toJson (r : Report) : Json :=
  .object
    [("outDir", .string r.outDir), ("modules", .array (r.modules.map ModuleReport.toJson)),
      ("assets", .array (r.assets.map AssetReport.toJson)),
      ("transformedCount", .integer r.transformedCount), ("errorCount", .integer r.errorCount)]

/-- The report in one of the formats. -/
def render (r : Report) : ReportFormat → String
  | .human => r.text
  | .json => r.toJson.pretty 0 ++ "\n"

/-- The status that the program ends with. -/
def exitCode (r : Report) : Nat :=
  if r.errorCount = 0 then 0 else 1

end Report

end ModuleAssets
