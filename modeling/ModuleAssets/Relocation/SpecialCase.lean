import ModuleAssets.Package.Resolution
import ModuleAssets.Relocation.Draft
import ModuleAssets.Syntax.Grammar.Program
import ModuleAssets.Value.Catalogue
/-!
# Special cases — modules that need a rule of their own

A few packages find their files in ways that no evaluation can follow. A rule
knows one module of such a package by the end of its path. It edits the
module, or changes its tree to one whose meaning the walk can follow, or
both. Nodes that are put in carry an empty span, so that they are never
edited themselves.
-/

namespace ModuleAssets

open Syntax

/-- What a rule may look at. -/
structure SpecialCaseContext where
  /-- The directory of the module. -/
  directory : String
  options : Options
  naming : Naming
  files : FileTree

/-- A rule for one module. -/
structure SpecialCase where
  /-- The end of the module's path. -/
  ending : String
  apply : SpecialCaseContext → Tree → Draft → Tree × Draft

namespace SpecialCase

/-- The span of nodes that stand nowhere in the text. -/
def nowhere : Span :=
  Span.empty 0

/-- The expression of an argument, spread or not. -/
def argumentExpression : Tree → Tree
  | .node .spread _ [e] => e
  | t => t

/-- An argument like another one, with a different expression. -/
def withExpression (argument expression : Tree) : Tree :=
  match argument with
  | .node .spread span _ => .node .spread span [expression]
  | _ => expression

/-- Changes the first statement of a program that a rule applies to. -/
def onFirstStatement (rule : Tree → Draft → Option (Tree × Draft)) (draft : Draft) :
    List Tree → List Tree × Draft
  | [] => ([], draft)
  | statement :: rest =>
    match rule statement draft with
    | some (changed, draft) => (changed :: rest, draft)
    | none =>
      let (rest, draft) := onFirstStatement rule draft rest
      (statement :: rest, draft)

/-- A rule on the first statement that it fits. -/
def ofStatement
    (rule : SpecialCaseContext → Tree → Draft → Option (Tree × Draft)) :
    SpecialCaseContext → Tree → Draft → Tree × Draft
  | ctx, .node kind span statements, draft =>
    let (statements, draft) := onFirstStatement (rule ctx) draft statements
    (.node kind span statements, draft)

/-! ## A directory of descriptions -/

/-- The variable that holds the directory gets the copy of the package next
door. Its old value is gone. -/
def googleGaxRule (ctx : SpecialCaseContext) (statement : Tree) (draft : Draft) :
    Option (Tree × Draft) :=
  match Path.resolve [ctx.directory, "../../../google-proto-files"] with
  | none => none
  | some protos =>
    if ctx.files.isDirectory protos then
      match statement with
      | .node (.declarations how) span (.node .declaration declared [name, value] :: rest) =>
        if name.kind = .binding "googleProtoFilesDir" then
          let (draft, reference) := draft.addDirectory ctx.naming protos
          match draft.patch.overwrite value.span reference with
          | .error refusal => some (statement, draft.skip refusal)
          | .ok patch =>
            some (.node (.declarations how) span (.node .declaration declared [name] :: rest),
              { draft with patch })
        else none
      | _ => none
    else none

/-- The rule for a library that reads descriptions of services. -/
def googleGax : SpecialCase where
  ending := "google-gax/build/src/grpc.js"
  apply := ofStatement googleGaxRule

/-! ## A file that is served -/

/-- The path of a module as seen from the directory of another, as an
expression. -/
def besides (span : Span) (relative : String) : Tree :=
  .node (.binary .add) span
    [.node (.identifier "__dirname") nowhere [], .node (.text (some ("/" ++ relative))) nowhere []]

/-- The specifier that a call looks up. -/
def lookedUp? : Tree → Option (Span × String)
  | .node .call span [callee, argument] =>
    if callee.isIdentifier "resolvePath" then
      match (argumentExpression argument).kind with
      | .text (some specifier) => some (span, specifier)
      | _ => none
    else none
  | _ => none

/-- A call that reads a file which it looks up gets the path of the file. -/
def pinRead (ctx : SpecialCaseContext) (t : Tree) : Tree :=
  match t with
  | .node .call span (callee :: first :: rest) =>
    if callee.isIdentifier "read" then
      let pinned? : Option Tree := do
        let (place, specifier) ← lookedUp? (argumentExpression first)
        let resolved ← Resolution.module? ctx.files specifier ctx.directory
        let relative ← Path.relative ctx.directory resolved
        some (.node .call span (callee :: withExpression first (besides place relative) :: rest))
      pinned?.getD t
    else t
  | _ => t

mutual

/-- Changes every node, its parts first. -/
def everywhere (change : Tree → Tree) : Tree → Tree
  | .node kind span parts => change (.node kind span (everywhereIn change parts))

/-- Changes every node of some trees. -/
def everywhereIn (change : Tree → Tree) : List Tree → List Tree
  | [] => []
  | t :: rest => everywhere change t :: everywhereIn change rest

end

/-- The member that serves the client's code. -/
def isServeClient : Tree → Bool
  | .node (.member "serveClient") _ [.node (.member "prototype") _ [object]] =>
    object.isIdentifier "Server"
  | _ => false

/-- The function that serves the client's code reads it at a known path. -/
def socketIoRule (ctx : SpecialCaseContext) (statement : Tree) (draft : Draft) :
    Option (Tree × Draft) :=
  match statement with
  | .node .expressionStatement span [.node (.assign none) assigned [target, value]] =>
    match value.kind with
    | .function _ =>
      if isServeClient target then
        some (.node .expressionStatement span
          [.node (.assign none) assigned [target, everywhere (pinRead ctx) value]], draft)
      else none
    | _ => none
  | _ => none

/-- The rule for a server that hands out the code of its client. -/
def socketIo : SpecialCase where
  ending := "socket.io/lib/index.js"
  apply := ofStatement socketIoRule

/-! ## A binary that is tried at several places -/

/-- The place that a node tries to load, and the node without it. -/
def probe? : Tree → Option (Span × Tree)
  | .node (.assign none) span [target, .node .call called [callee, argument]] =>
    match argumentExpression argument with
    | .node .computedMember place [places, index] =>
      if target.kind = .binding "oracledbCLib" ∧ callee.isIdentifier "require"
          ∧ places.isIdentifier "binaryLocations" ∧ index.isIdentifier "i" then
        some (place, .node (.assign none) span [target, .node .call called [callee]])
      else none
    | _ => none
  | _ => none

mutual

/-- Takes the first place that is tried out of a tree, unless one is found
already. -/
def takeProbe (found : Option Span) : Tree → Option Span × Tree
  | .node kind span parts =>
    let (found, parts) := takeProbeIn found parts
    match found with
    | some place => (some place, .node kind span parts)
    | none =>
      match probe? (.node kind span parts) with
      | some (place, t) => (some place, t)
      | none => (none, .node kind span parts)

/-- `takeProbe` for trees one after another. -/
def takeProbeIn (found : Option Span) : List Tree → Option Span × List Tree
  | [] => (found, [])
  | t :: rest =>
    let (found, t) := takeProbe found t
    let (found, rest) := takeProbeIn found rest
    (found, t :: rest)

end

/-- The binary is the one for this machine. -/
def oracleDbApply (ctx : SpecialCaseContext) (program : Tree) (draft : Draft) : Tree × Draft :=
  match takeProbe none program with
  | (some place, program) =>
    let binary :=
      "oracledb-abi" ++ ctx.options.moduleAbiVersion ++ "-" ++ Platform.name ++ "-" ++ Platform.arch
    (program, draft.overwrite place ("'../build/Release/" ++ binary ++ ".node'"))
  | (none, program) => (program, draft)

/-- The rule for a database with native binaries. -/
def oracleDb : SpecialCase where
  ending := "oracledb/lib/oracledb.js"
  apply := oracleDbApply

/-! ## A binary that is checked -/

/-- The check of a file holds. -/
def ffmpegRule (_ : SpecialCaseContext) (statement : Tree) (draft : Draft) :
    Option (Tree × Draft) :=
  match statement with
  | .node .if_ span (.node .call tested (callee :: _) :: rest) =>
    if callee.isIdentifier "verifyFile" then
      some (.node .if_ span (.node (.boolean true) tested [] :: rest), draft.overwrite tested "true")
    else none
  | _ => none

/-- The rule for a package that looks whether its binary is there. -/
def ffmpegInstaller : SpecialCase where
  ending := "@ffmpeg-installer/ffmpeg/index.js"
  apply := ofStatement ffmpegRule

/-! ## All rules -/

/-- The rules that are known. -/
def all : List SpecialCase :=
  [googleGax, socketIo, oracleDb, ffmpegInstaller]

/-- Applies the first of some rules that knows the module. -/
def applyFirst (rules : List SpecialCase) (id : String) (ctx : SpecialCaseContext)
    (program : Tree) (draft : Draft) : Tree × Draft :=
  let path := String.ofList (id.toList.map fun c => if c = '\\' then '/' else c)
  match rules.find? fun rule => Text.endsWith path rule.ending with
  | some rule => rule.apply ctx program draft
  | none => (program, draft)

end SpecialCase

end ModuleAssets
