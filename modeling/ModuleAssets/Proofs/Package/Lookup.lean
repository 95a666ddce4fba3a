import ModuleAssets.Package.Resolution
import ModuleAssets.Proofs.Path.Walked
/-!
# Lookup — the published algorithm for `require`

`CommonJs.lookup` is the algorithm by which a program finds the module of a specifier when it
runs, as it is published, for places that are told by their names. Of packages that redirect their
specifiers (`exports` and `imports`) nothing is known here. A package that is broken ends the
search, whatever the places behind it hold.

The resolution finds what the algorithm finds, and finds nothing where that does
(`Resolution.finds_by_lookup`), but for two things. It does not keep apart a directory and the
file beside it, since a slash or a step at the end of a specifier is gone once the path is worked
out. And it never gives up: a package whose main module is missing is passed over, and one whose
description cannot be read is taken for one without.
-/

namespace ModuleAssets

open ModuleAssets.Path (IsPlain Spells walk written)

/-! ## The algorithm -/

namespace CommonJs

/-- Why a lookup ends before all places are tried. -/
inductive Failure where
  /-- The description of a package is not to be read. -/
  | malformed
  /-- A description names a main module, and there is neither that nor an index. -/
  | mainMissing
deriving DecidableEq

/-- What leads to no name: nothing, and the steps. -/
def steps : List (List Char) := [[], ['.'], ['.', '.']]

/-- The specifier is a path: its first name is a step, or it starts at the root. -/
def isPath (specifier : String) : Bool :=
  steps.contains (specifier.toList.takeWhile (· != '/'))

/-- The specifier means a directory: its last name is a step, or it ends with a slash. -/
def namesDirectory (specifier : String) : Bool :=
  steps.contains (specifier.toList.reverse.takeWhile (· != '/')).reverse

/-- The directory of installed packages. -/
def modules : List Char := "node_modules".toList

/-- Where the module may be, in the order of the search. -/
def places (specifier directory : String) : List (List (List Char)) :=
  if isPath specifier then
    [walk (if Path.isAbsolute specifier then [] else walk [] directory) specifier]
  else
    ((walk [] directory).inits.reverse.filter (·.getLast? ≠ some modules)).map fun around =>
      walk (around ++ [modules]) specifier

/-- The files that a path may stand for. -/
def asFile (path : String) : List String :=
  [path, path ++ ".js", path ++ ".json", path ++ ".node"]

/-- The files that a directory may stand for. -/
def asIndex (place : List (List Char)) : List String :=
  ["index.js", "index.json", "index.node"].map fun name => written (place ++ [name.toList]) false

/-- The description of a package. -/
def description : List Char := "package.json".toList

/-- The main module that the description in a directory tells, if it does. -/
def main (files : FileTree) (place : List (List Char)) : Except Failure (Option String) :=
  if files.isFile (written (place ++ [description]) false) then
    match (files.readText (written (place ++ [description]) false)).toOption.bind Json.read? with
    | some json => .ok (((json.merged.get? "main").bind Json.string?).filter (· ≠ ""))
    | none => .error .malformed
  else .ok none

/-- The module of a directory. -/
def asDirectory (files : FileTree) (place : List (List Char)) : Except Failure (Option String) :=
  match main files place with
  | .error failure => .error failure
  | .ok none => .ok ((asIndex place).find? files.isFile)
  | .ok (some main) =>
    let target := walk place main
    let path := written target (Path.endsWithSlash main.toList)
    match (asFile path ++ asIndex target ++ asIndex place).find? files.isFile with
    | some found => .ok (some found)
    | none => .error .mainMissing

/-- The module of a place: that of a file, unless the specifier means a directory, or that of a
directory. -/
def attempt (files : FileTree) (specifier : String) (place : List (List Char)) :
    Except Failure (Option String) :=
  let file :=
    if namesDirectory specifier then none else (asFile (written place false)).find? files.isFile
  match file with
  | some found => .ok (some found)
  | none => asDirectory files place

/-- The module of the first place that has one. -/
def search (files : FileTree) (specifier : String) :
    List (List (List Char)) → Except Failure (Option String)
  | [] => .ok none
  | place :: rest =>
    match attempt files specifier place with
    | .error failure => .error failure
    | .ok (some found) => .ok (some found)
    | .ok none => search files specifier rest

/-- The module of a specifier from a directory, if it is found. -/
def lookup (files : FileTree) (specifier directory : String) : Except Failure (Option String) :=
  if specifier = "" then .ok none else search files specifier (places specifier directory)

/-- No file goes by the path of a place, whether it stands beside the place or in it. -/
def IsAlone (files : FileTree) (place : List (List Char)) : Prop :=
  ∀ path ∈ asFile (written place false) ++ asFile (written place true), files.isFile path = false

end CommonJs

namespace Resolution

open CommonJs (IsAlone asDirectory asFile asIndex attempt lookup modules namesDirectory places
  search)

variable {files : FileTree} {path specifier directory : String} {place : List (List Char)}

/-! ## One place -/

theorem file?_eq (files : FileTree) (path : String) :
    file? files path = (asFile path).find? files.isFile := rfl

theorem plain_index {name : String} (h : name ∈ ["index.js", "index.json", "index.node"]) :
    IsPlain name.toList := by
  revert name
  decide

/-- The index of a directory, however its path is spelled. -/
theorem index?_eq (h : Spells path place) :
    index? files path = (asIndex place).find? files.isFile := by
  obtain ⟨hplain, slash, rfl⟩ := h
  have hjoined {name : String} (hname : name ∈ ["index.js", "index.json", "index.node"]) :
      Path.join [written place slash, name] = written (place ++ [name.toList]) false := by
    have hjoin := Path.join_written_name hplain slash (plain_index hname)
    rwa [String.ofList_toList] at hjoin
  have hnames : extensions.map (fun ending => Path.join [written place slash, "index" ++ ending]) =
      ["index.js", "index.json", "index.node"].map fun name =>
        Path.join [written place slash, name] := rfl
  rw [index?, hnames, asIndex, List.map_congr_left fun name hname => hjoined hname]

/-- A text that can be read is that of a file. -/
theorem isFile_of_readText {text : String} (h : files.readText path = .ok text) :
    files.isFile path = true := by
  unfold FileTree.readText FileTree.read at h
  unfold FileTree.isFile
  cases htarget : files.target path with
  | error e =>
    rw [htarget] at h
    cases h
  | ok node =>
    rw [htarget] at h
    cases node with
    | file content mode => rfl
    | link target => cases h
    | directory entries => cases h

/-- What the description calls the main module is read alike. -/
theorem main?_of_main (h : Spells path place) {main : Option String}
    (hmain : CommonJs.main files place = .ok main) : (main? files path).filter (· ≠ "") = main := by
  obtain ⟨hplain, slash, rfl⟩ := h
  have hname : IsPlain CommonJs.description := by decide
  have hdescription : Path.join [written place slash, Package.descriptionName] =
      written (place ++ [CommonJs.description]) false :=
    Path.join_written_name hplain slash hname
  unfold CommonJs.main at hmain
  unfold main?
  rw [hdescription]
  cases hread : files.readText (written (place ++ [CommonJs.description]) false) with
  | error e =>
    -- a file that cannot be read is refused by the algorithm, so there is none
    rw [hread] at hmain
    split at hmain
    · cases hmain
    · exact Except.ok.inj hmain
  | ok text =>
    rw [hread, if_pos (isFile_of_readText hread), Except.toOption, Option.bind_some] at hmain
    dsimp only
    cases hjson : Json.read? text with
    | none =>
      rw [hjson] at hmain
      cases hmain
    | some json =>
      rw [hjson] at hmain
      exact Except.ok.inj hmain

/-- A description is refused only if it cannot be read. -/
theorem malformed_of_main {failure : CommonJs.Failure}
    (h : CommonJs.main files place = .error failure) : failure = .malformed := by
  unfold CommonJs.main at h
  split at h
  · split at h
    · cases h
    · exact (Except.error.inj h).symm
  · cases h

/-- The files that a directory with a main module may stand for. -/
theorem directory?_of_main (h : Spells path place) {main : String}
    (hmain : main? files path = some main) (hne : main ≠ "") :
    directory? files path =
      (asFile (written (walk place main) (Path.endsWithSlash main.toList)) ++
        asIndex (walk place main) ++ asIndex place).find? files.isFile := by
  have htarget : Spells (written (walk place main) (Path.endsWithSlash main.toList))
      (walk place main) := ⟨Path.plain_walk h.1 main, _, rfl⟩
  have hindex : index? files path = (asIndex place).find? files.isFile := index?_eq h
  obtain ⟨hplain, slash, rfl⟩ := h
  rw [directory?, hmain, Option.bind_some]
  dsimp only
  rw [Path.join_written hplain slash hne, file?_eq, index?_eq htarget, hindex, List.find?_append,
    List.find?_append]

/-- A directory without a main module stands for its index. -/
theorem directory?_of_no_main (h : Spells path place) (hfile : file? files path = none)
    (hmain : (main? files path).filter (· ≠ "") = none) :
    directory? files path = (asIndex place).find? files.isFile := by
  have hindex : index? files path = (asIndex place).find? files.isFile := index?_eq h
  obtain ⟨hplain, slash, rfl⟩ := h
  unfold directory?
  cases hname : main? files (written place slash) with
  | none =>
    rw [Option.bind_none, Option.none_or]
    exact hindex
  | some name =>
    -- an empty main module is the directory itself
    rw [hname, Option.filter_some] at hmain
    have hempty : name = "" := by
      by_contra hne
      rw [if_pos (by simpa using hne)] at hmain
      cases hmain
    rw [hempty, Option.bind_some]
    dsimp only
    rw [Path.join_written_nothing hplain, hfile, Option.none_or, Option.or_self, hindex]

/-- **A directory stands for the module of the algorithm,** if no file is taken for it. A main
module that is missing leaves nothing. -/
theorem directory?_of_asDirectory (h : Spells path place) (hfile : file? files path = none) :
    (∀ found, asDirectory files place = .ok found → directory? files path = found) ∧
      (asDirectory files place = .error .mainMissing → directory? files path = none) := by
  rw [asDirectory]
  cases hmain : CommonJs.main files place with
  | error failure =>
    obtain rfl := malformed_of_main hmain
    exact ⟨fun _ heq => (nomatch heq), fun heq => (nomatch heq)⟩
  | ok main =>
    have hread := main?_of_main h hmain
    cases main with
    | none =>
      rw [directory?_of_no_main h hfile hread]
      exact ⟨fun _ heq => Except.ok.inj heq, fun heq => (nomatch heq)⟩
    | some main =>
      obtain ⟨hname, hne⟩ := Option.filter_eq_some_iff.1 hread
      rw [directory?_of_main h hname (by simpa using hne)]
      dsimp only
      cases (asFile (written (walk place main) (Path.endsWithSlash main.toList)) ++
          asIndex (walk place main) ++ asIndex place).find? files.isFile with
      | none => exact ⟨fun _ heq => (nomatch heq), fun _ => rfl⟩
      | some found => exact ⟨fun _ heq => Except.ok.inj heq, fun heq => (nomatch heq)⟩

/-- The resolution finds at a path what the algorithm finds at a place. -/
def Answers (files : FileTree) (specifier path : String) (place : List (List Char)) : Prop :=
  (∀ found, attempt files specifier place = .ok found → path? files path = found) ∧
    (attempt files specifier place = .error .mainMissing → path? files path = none)

/-- **A place answers alike,** if no file is taken for a directory. -/
theorem answers_of_spells (h : Spells path place)
    (hpath : namesDirectory specifier = false → path = written place false)
    (hstands : namesDirectory specifier = true → file? files path = none) :
    Answers files specifier path place := by
  have hdirectory (hfile : file? files path = none) : path? files path = directory? files path := by
    rw [path?, hfile, Option.none_or]
  unfold Answers attempt
  cases hnames : namesDirectory specifier with
  | true =>
    have hfile := hstands hnames
    rw [hdirectory hfile]
    exact directory?_of_asDirectory h hfile
  | false =>
    rw [hpath hnames] at h hdirectory ⊢
    rw [if_neg Bool.false_ne_true]
    cases hfound : (asFile (written place false)).find? files.isFile with
    | some found =>
      have hfile : path? files (written place false) = some found := by
        rw [path?, file?_eq, hfound]
        rfl
      rw [hfile]
      exact ⟨fun _ heq => Except.ok.inj heq, fun heq => (nomatch heq)⟩
    | none =>
      have hfile : file? files (written place false) = none := hfound
      rw [hdirectory hfile]
      exact directory?_of_asDirectory h hfile

/-! ## Which places -/

/-- What ends with a slash means a directory. -/
theorem namesDirectory_of_slash (h : Path.endsWithSlash specifier.toList = true) :
    namesDirectory specifier = true := by
  have hlast : specifier.toList.getLast? = some '/' := beq_iff_eq.1 h
  rw [← List.head?_reverse] at hlast
  obtain ⟨rest, hrest⟩ := List.head?_eq_some_iff.1 hlast
  rw [namesDirectory, hrest]
  rfl

/-- Behind the first name there is a slash or nothing. -/
theorem eq_firstName_append (cs : List Char) :
    cs = cs.takeWhile (· != '/') ∨ ∃ rest, cs = cs.takeWhile (· != '/') ++ '/' :: rest := by
  have hsplit := List.takeWhile_append_dropWhile (p := (· != '/')) (l := cs)
  cases hdrop : cs.dropWhile (· != '/') with
  | nil =>
    rw [hdrop, List.append_nil] at hsplit
    exact .inl hsplit.symm
  | cons c rest =>
    have hc := List.head?_dropWhile_not (· != '/') cs
    rw [hdrop] at hc hsplit
    obtain rfl : c = '/' := by simpa using hc
    exact .inr ⟨rest, hsplit.symm⟩

/-- A path is told by its first name. -/
theorem isPath_eq (h : specifier ≠ "") : isPath specifier = CommonJs.isPath specifier := by
  have hcs : specifier.toList ≠ [] := fun hnil => h (String.toList_eq_nil_iff.1 hnil)
  have hone : specifier = "." ↔ specifier.toList = ['.'] := String.toList_inj.symm
  have htwo : specifier = ".." ↔ specifier.toList = ['.', '.'] := String.toList_inj.symm
  have hhere : Text.startsWith specifier "./" = true ↔ ['.', '/'] <+: specifier.toList :=
    List.isPrefixOf_iff_prefix
  have hup : Text.startsWith specifier "../" = true ↔ ['.', '.', '/'] <+: specifier.toList :=
    List.isPrefixOf_iff_prefix
  rw [Bool.eq_iff_iff, isPath, CommonJs.isPath, CommonJs.steps, Path.isAbsolute]
  simp only [Bool.or_eq_true, decide_eq_true_eq, hone, htwo, hhere, hup, List.contains_eq_mem]
  generalize specifier.toList = cs at hcs
  constructor
  · rintro ((((rfl | rfl) | ⟨rest, rfl⟩) | ⟨rest, rfl⟩) | habsolute)
    · decide
    · decide
    · simp
    · simp
    · obtain ⟨c, rest, rfl⟩ := List.exists_cons_of_ne_nil hcs
      obtain rfl : c = '/' := beq_iff_eq.1 habsolute
      simp
  · intro hfirst
    have hnames : cs.takeWhile (· != '/') = [] ∨ cs.takeWhile (· != '/') = ['.'] ∨
        cs.takeWhile (· != '/') = ['.', '.'] := by simpa using hfirst
    have hbehind := eq_firstName_append cs
    obtain hname | hname | hname := hnames <;> rw [hname] at hbehind <;>
      obtain hend | ⟨rest, hend⟩ := hbehind
    · exact absurd hend hcs
    · exact .inr (hend ▸ rfl)
    · exact .inl (.inl (.inl (.inl hend)))
    · exact .inl (.inl (.inr ⟨rest, hend.symm⟩))
    · exact .inl (.inl (.inl (.inr hend)))
    · exact .inl (.inr ⟨rest, hend.symm⟩)

theorem plain_modules (hplain : ∀ n ∈ place, IsPlain n) : ∀ n ∈ place ++ [modules], IsPlain n :=
  List.forall_mem_append.2 ⟨hplain, List.forall_mem_singleton.2 (by decide)⟩

theorem join_modules (hplain : ∀ n ∈ place, IsPlain n) (slash : Bool) (h : specifier ≠ "") :
    Path.join [written place slash, "node_modules", specifier] =
      written (walk (place ++ [modules]) specifier) (Path.endsWithSlash specifier.toList) := by
  have hjoin : Path.join ([written place slash, "node_modules"] ++ [specifier]) =
      Path.join (Path.join [written place slash, "node_modules"] :: [specifier]) :=
    Path.join_append ⟨"node_modules", by simp, by decide⟩ [specifier]
  have hfirst : Path.join [written place slash, "node_modules"] =
      written (place ++ [modules]) false :=
    Path.join_written_name hplain slash (by decide)
  rw [hfirst, Path.join_written (plain_modules hplain) false h] at hjoin
  exact hjoin

/-- A place that spells a directory of installed packages. -/
theorem basename_eq_modules_iff (h : Spells path place) :
    Path.basename path none = "node_modules" ↔ place.getLast? = some modules := by
  obtain ⟨hplain, slash, rfl⟩ := h
  obtain rfl | ⟨front, name, rfl⟩ := List.eq_nil_or_concat' place
  · have hroot : Path.basename (written [] slash) none = "" := by cases slash <;> decide
    rw [hroot]
    exact iff_of_false (by decide) (Option.some_ne_none modules).symm
  · have hname : IsPlain name := hplain name (List.mem_append_right _ List.mem_cons_self)
    rw [Path.basename_written front hname, List.getLast?_concat, Option.some_inj,
      ← String.toList_inj, String.toList_ofList]
    rfl

/-! ## The search -/

theorem file?_of_isAlone (h : IsAlone files place) (slash : Bool) :
    file? files (written place slash) = none := by
  rw [file?_eq, List.find?_eq_none]
  intro path hpath
  have hfile : files.isFile path = false := by
    cases slash with
    | false => exact h path (List.mem_append_left _ hpath)
    | true => exact h path (List.mem_append_right _ hpath)
  rw [hfile]
  exact Bool.false_ne_true

theorem search_singleton (files : FileTree) (specifier : String) (place : List (List Char)) :
    search files specifier [place] = attempt files specifier place := by
  rw [search]
  cases attempt files specifier place with
  | error failure => rfl
  | ok found => cases found <;> rfl

/-- **What the search finds** around a directory is found. -/
theorem findSome?_of_search {paths : List String} {around : List (List (List Char))}
    (h : List.Forall₂ Spells paths around) (hne : specifier ≠ "")
    (halone : namesDirectory specifier = true → ∀ place ∈ around,
      place.getLast? ≠ some modules → IsAlone files (walk (place ++ [modules]) specifier))
    {found : Option String}
    (hfound : search files specifier ((around.filter (·.getLast? ≠ some modules)).map fun around =>
      walk (around ++ [modules]) specifier) = .ok found) :
    (paths.findSome? fun path =>
      if Path.basename path none = "node_modules" then none
      else path? files (Path.join [path, "node_modules", specifier])) = found := by
  induction h with
  | nil => exact Except.ok.inj hfound
  | @cons path place paths around hspells hrest ih =>
    have ih := ih fun hnames place hplace => halone hnames place (List.mem_cons_of_mem _ hplace)
    rw [List.findSome?_cons]
    by_cases hmodules : place.getLast? = some modules
    · -- both leave out the packages of a directory of packages
      rw [if_pos ((basename_eq_modules_iff hspells).2 hmodules)]
      rw [List.filter_cons_of_neg (by simpa using hmodules)] at hfound
      exact ih hfound
    · rw [if_neg (mt (basename_eq_modules_iff hspells).1 hmodules)]
      rw [List.filter_cons_of_pos (by simpa using hmodules), List.map_cons, search] at hfound
      obtain ⟨hplain, slash, rfl⟩ := hspells
      have hplace : ∀ n ∈ walk (place ++ [modules]) specifier, IsPlain n :=
        Path.plain_walk (plain_modules hplain) specifier
      have hanswers : Answers files specifier
          (Path.join [written place slash, "node_modules", specifier])
          (walk (place ++ [modules]) specifier) := by
        rw [join_modules hplain slash hne]
        refine answers_of_spells ⟨hplace, _, rfl⟩ (fun hnames => ?_) fun hnames => ?_
        · -- the path keeps a slash only of a specifier that means a directory
          have hslash : Path.endsWithSlash specifier.toList = false := by
            by_contra hends
            rw [namesDirectory_of_slash (by simpa using hends)] at hnames
            cases hnames
          rw [hslash]
        · exact file?_of_isAlone (halone hnames place List.mem_cons_self hmodules) _
      split at hfound
      · cases hfound
      · rename_i answer hattempt
        obtain rfl := Except.ok.inj hfound
        rw [hanswers.1 _ hattempt]
      · rename_i hattempt
        rw [hanswers.1 _ hattempt]
        exact ih hfound

/-! ## Main statement -/

/-- **The resolution finds what the algorithm finds,** and nothing where that finds nothing, for
each specifier of no core module, if no file goes by the path of a directory that the specifier
means. If the algorithm ends early because a main module is missing, a path does not lead to
anything either. -/
theorem finds_by_lookup (hdirectory : Path.isAbsolute directory = true)
    (hcore : isCoreModule specifier = false)
    (halone : namesDirectory specifier = true →
      ∀ place ∈ places specifier directory, IsAlone files place) :
    (∀ found, lookup files specifier directory = .ok found →
        module? files specifier directory = found) ∧
      (CommonJs.isPath specifier = true → lookup files specifier directory = .error .mainMissing →
        module? files specifier directory = none) := by
  by_cases hne : specifier = ""
  · have hlookup : lookup files specifier directory = .ok none := if_pos hne
    have hmodule : module? files specifier directory = none := if_pos hne
    rw [hlookup, hmodule]
    exact ⟨fun _ heq => Except.ok.inj heq, fun _ _ => rfl⟩
  have hplain : ∀ n ∈ walk [] directory, IsPlain n :=
    Path.plain_walk (List.forall_mem_nil _) directory
  have hlookup : lookup files specifier directory =
      search files specifier (places specifier directory) := if_neg hne
  rw [hlookup, module?, if_neg hne, isPath_eq hne]
  unfold places at halone ⊢
  cases hpath : CommonJs.isPath specifier with
  | true =>
    rw [hpath, if_pos rfl] at halone
    rw [if_pos rfl, if_pos rfl, Path.resolve_eq_walk hdirectory, Option.bind_some, search_singleton]
    have hplace : ∀ n ∈ walk (if Path.isAbsolute specifier = true then [] else walk [] directory)
        specifier, IsPlain n := by
      refine Path.plain_walk ?_ specifier
      split
      · exact List.forall_mem_nil _
      · exact hplain
    have hanswers := answers_of_spells ⟨hplace, false, rfl⟩ (fun _ => rfl) fun hnames =>
      file?_of_isAlone (halone hnames _ List.mem_cons_self) false
    exact ⟨hanswers.1, fun _ => hanswers.2⟩
  | false =>
    rw [hpath, if_neg Bool.false_ne_true] at halone
    rw [if_neg Bool.false_ne_true, if_neg Bool.false_ne_true, hcore, if_neg Bool.false_ne_true]
    refine ⟨fun found hfound => ?_, fun heq => (nomatch heq)⟩
    refine findSome?_of_search (Path.spells_ancestors hdirectory) hne
      (fun hnames place hplace hmodules => ?_) hfound
    refine halone hnames _ (List.mem_map.2 ⟨place, List.mem_filter.2 ⟨hplace, ?_⟩, rfl⟩)
    simpa using hmodules

/-- A file without content. -/
def emptyFile : Node := .file ByteArray.empty 0o644

/-- A description that calls a module the main one. -/
def mainDescription (main : String) : Node :=
  .file ("\x7b\"main\":\"" ++ main ++ "\"\x7d").toUTF8 0o644

/-- A package with a description that calls a directory the main module. -/
def installedPackage : FileTree :=
  ⟨.directory [("p", .directory [("node_modules", .directory [("a", .directory
    [("lib", .directory [("index.js", emptyFile)]),
      ("package.json", mainDescription "./lib")])])])]⟩

/-- The package is found by its directory. -/
theorem finds_by_lookup_package :
    Path.isAbsolute "/p/q" = true ∧ isCoreModule "a/" = false ∧ namesDirectory "a/" = true ∧
      (∀ place ∈ places "a/" "/p/q", IsAlone installedPackage place) ∧
      lookup installedPackage "a/" "/p/q" = .ok (some "/p/node_modules/a/lib/index.js") ∧
      module? installedPackage "a/" "/p/q" = some "/p/node_modules/a/lib/index.js" := by
  have hdirectory : Path.isAbsolute "/p/q" = true := by decide
  have hcore : isCoreModule "a/" = false := by decide +kernel
  have halone : ∀ place ∈ places "a/" "/p/q", IsAlone installedPackage place := by
    unfold IsAlone
    decide +kernel
  have hlookup : lookup installedPackage "a/" "/p/q" =
      .ok (some "/p/node_modules/a/lib/index.js") := by decide +kernel
  exact ⟨hdirectory, hcore, by decide +kernel, halone, hlookup,
    (finds_by_lookup hdirectory hcore fun _ => halone).1 _ hlookup⟩

/-- **A file beside a directory is taken for it,** whether the specifier ends with a slash or is a
step. -/
theorem file_found_for_directory :
    let files : FileTree := ⟨.directory [("m", .directory
      [("a", .directory [("index.js", emptyFile)]), ("a.js", emptyFile)])]⟩
    lookup files "./a/" "/m" = .ok (some "/m/a/index.js") ∧
      module? files "./a/" "/m" = some "/m/a.js" ∧
      lookup files "." "/m/a" = .ok (some "/m/a/index.js") ∧
      module? files "." "/m/a" = some "/m/a.js" := by
  decide +kernel

end Resolution

end ModuleAssets
