import ModuleAssets.Proofs.Evaluate.Gives
import ModuleAssets.Proofs.Package.Lookup
import ModuleAssets.Proofs.Path.Parting
import ModuleAssets.Proofs.Path.Within
import ModuleAssets.Relocation.Walk
/-!
# The one addon of a package — what its load finds

A call that loads the one addon of a package becomes a load by a specifier, which is the way
from the module's directory to the addon. A way that begins with a dot is taken as it is, and
any other one gets a step in front that stays. So the specifier is a path, and leads back to the
addon, but for one thing: a way may also begin with a dot because the first name on it does, as
that of a hidden directory. Then the specifier names a package (`single_addon_loaded`).
-/

namespace ModuleAssets

open ModuleAssets.Path (IsPiece IsPlain dropShared normalSegments upAndDown)

/-! ## Ways into hidden directories -/

namespace Path

/-- The path lies below the directory, and the first name on the way begins with a dot. -/
def IsHiddenBelow (directory path : String) : Prop :=
  ∃ name rest, normalSegments path.toList = normalSegments directory.toList ++ name :: rest ∧
    name.head? = some '.'

theorem dropShared_append {α : Type} [DecidableEq α] (xs ys : List α) :
    dropShared xs (xs ++ ys) = ([], ys) := by
  induction xs with
  | nil => cases ys <;> rfl
  | cons x rest ih => rw [List.cons_append, dropShared, if_pos rfl, ih]

/-- The way goes down, first to a name that begins with a dot. -/
def EntersHidden (up down : List (List Char)) : Prop :=
  up = [] ∧ ∃ name rest, down = name :: rest ∧ name.head? = some '.'

theorem isHiddenBelow_iff (directory path : String) :
    IsHiddenBelow directory path ↔
      EntersHidden
        (dropShared (normalSegments directory.toList) (normalSegments path.toList)).1
        (dropShared (normalSegments directory.toList) (normalSegments path.toList)).2 := by
  constructor
  · rintro ⟨name, rest, hpath, hdot⟩
    rw [hpath, dropShared_append]
    exact ⟨rfl, name, rest, rfl, hdot⟩
  · rintro ⟨hup, name, rest, hdown, hdot⟩
    obtain ⟨shared, hdirectory, hpath⟩ :=
      exists_shared (normalSegments directory.toList) (normalSegments path.toList)
    rw [hup, List.append_nil] at hdirectory
    exact ⟨name, rest, by rw [hpath, hdown, ← hdirectory], hdot⟩

theorem isAbsolute_way {directory path way : String} (hdirectory : isAbsolute directory = true)
    (hpath : isAbsolute path = true) (h : relative directory path = some way) :
    isAbsolute way = false := by
  obtain ⟨shared, up, down, -, hdown, hway⟩ := relative_eq_some hdirectory hpath
  obtain rfl := Option.some.inj (h.symm.trans hway)
  have hplain : ∀ n ∈ down, IsPlain n := fun n hn =>
    plain_normalSegments hpath n (hdown ▸ List.mem_append_right _ hn)
  rw [isAbsolute, String.toList_ofList]
  exact isAbsoluteChars_joined (isPiece_upAndDown hplain)

/-- A step that stays changes nothing. -/
theorem resolve_here {directory way : String} (hdirectory : isAbsolute directory = true)
    (hway : isAbsolute way = false) :
    resolve [directory, "./" ++ way] = resolve [directory, way] := by
  have hchars : ("./" ++ way).toList = ['.'] ++ '/' :: way.toList := by
    rw [String.toList_append]
    rfl
  have hhere : isAbsolute ("./" ++ way) = false := by
    rw [isAbsolute, hchars]
    rfl
  have hwalk (place : List (List Char)) : walk place ("./" ++ way) = walk place way := by
    rw [walk, hchars, pieces_append]
    rfl
  rw [resolve_eq_walk hdirectory, resolve_eq_walk hdirectory, hhere, hway, hwalk]

end Path

/-! ## The specifier of a load -/

/-- The specifier of a file that lies that way from the module's directory. -/
def wayAsSpecifier (way : String) : String :=
  if Text.startsWith way "." then way else "./" ++ way

theorem startsWith_dot (way : String) :
    Text.startsWith way "." = true ↔ way.toList.head? = some '.' := by
  show ['.'].isPrefixOf way.toList = true ↔ _
  rw [List.isPrefixOf_iff_prefix, List.head?_eq_some_iff]
  exact exists_congr fun _ => eq_comm

/-- A specifier that is a way begins with a dot. -/
theorem head?_wayAsSpecifier (way : String) : (wayAsSpecifier way).toList.head? = some '.' := by
  rw [wayAsSpecifier]
  by_cases hdot : Text.startsWith way "." = true
  · rw [if_pos hdot]
    exact (startsWith_dot way).1 hdot
  · rw [if_neg hdot, String.toList_append]
    rfl

section

variable {up down rest : List (List Char)} {name : List Char}

/-- The first segment of a way decides how it is taken. -/
theorem isPath_joined (hname : IsPiece name) (rest : List (List Char)) :
    Resolution.isPath (String.ofList (Text.joinWithChar '/' (name :: rest))) =
      CommonJs.steps.contains name := by
  obtain ⟨back, hjoined, hnil, hcons⟩ := Path.Scan.joined_cons name rest
  have hne : String.ofList (Text.joinWithChar '/' (name :: rest)) ≠ "" := by
    rw [hjoined]
    simpa using fun hempty _ => hname.1 hempty
  have hpos : ∀ c ∈ name, (c != '/') = true := fun c hc => by
    simpa using fun heq : c = '/' => hname.2 (heq ▸ hc)
  have hfirst : (name ++ back).takeWhile (· != '/') = name := by
    rw [List.takeWhile_append_of_pos hpos]
    by_cases hrest : rest = []
    · rw [hnil hrest]
      exact List.append_nil name
    · rw [hcons hrest]
      exact List.append_nil name
  rw [Resolution.isPath_eq hne, CommonJs.isPath, String.toList_ofList, hjoined, hfirst]

theorem head?_joined (hname : name ≠ []) (rest : List (List Char)) :
    (Text.joinWithChar '/' (name :: rest)).head? = name.head? := by
  obtain ⟨back, hjoined, -, -⟩ := Path.Scan.joined_cons name rest
  rw [hjoined, List.head?_append_of_ne_nil _ hname]

theorem isPath_here (way : String) : Resolution.isPath ("./" ++ way) = true := by
  have hbegins : Text.startsWith ("./" ++ way) "./" = true := by
    rw [Text.startsWith, String.toList_append]
    exact List.isPrefixOf_iff_prefix.2 (List.prefix_append _ _)
  simp [Resolution.isPath, hbegins]

/-- **The way from a directory is a path for the loader**, unless it enters a hidden
directory. -/
theorem isPath_wayAsSpecifier (hdown : ∀ n ∈ down, IsPlain n) :
    Resolution.isPath (wayAsSpecifier (String.ofList (Text.joinWithChar '/' (upAndDown up down)))) =
        true ↔
      ¬ Path.EntersHidden up down := by
  have hpieces : ∀ n ∈ upAndDown up down, IsPiece n := Path.isPiece_upAndDown hdown
  have hdot : Text.startsWith (String.ofList (Text.joinWithChar '/' (upAndDown up down))) "." = true ↔
      (Text.joinWithChar '/' (upAndDown up down)).head? = some '.' := by
    rw [startsWith_dot, String.toList_ofList]
  rw [wayAsSpecifier]
  cases hway : upAndDown up down with
  | nil =>
    have hnone : down = [] := (List.append_eq_nil_iff.1 hway).2
    refine iff_of_true (by decide) ?_
    rintro ⟨-, name, rest, hsome, -⟩
    rw [hnone] at hsome
    cases hsome
  | cons first rest =>
    rw [hway] at hpieces hdot
    have hfirst := hpieces first List.mem_cons_self
    rw [head?_joined hfirst.1] at hdot
    by_cases hbegins : first.head? = some '.'
    · rw [if_pos (hdot.2 hbegins), isPath_joined hfirst]
      cases up with
      | nil =>
        -- the way begins with a name, and no name is a step
        obtain rfl : down = first :: rest := hway
        obtain ⟨hempty, hstays, hup, -⟩ := hdown first List.mem_cons_self
        have hnot : CommonJs.steps.contains first = false := by
          simp [CommonJs.steps, hempty, hstays, hup]
        rw [hnot]
        exact iff_of_false Bool.false_ne_true (not_not.2 ⟨rfl, first, rest, rfl, hbegins⟩)
      | cons step more =>
        obtain ⟨rfl, -⟩ := List.cons.inj hway
        exact iff_of_true rfl fun henters => List.cons_ne_nil _ _ henters.1
    · rw [if_neg (mt hdot.1 hbegins)]
      refine iff_of_true (isPath_here _) ?_
      rintro ⟨rfl, name, more, rfl, hname⟩
      obtain ⟨rfl, -⟩ := List.cons.inj hway
      exact hbegins hname

end

/-- There is a way from the module's directory to a file, and it is a path for the loader unless
the file is hidden below that directory. -/
theorem exists_way {directory path : String} (hdirectory : Path.isAbsolute directory = true)
    (hpath : Path.isAbsolute path = true) :
    ∃ way, Path.relative directory path = some way ∧
      (Resolution.isPath (wayAsSpecifier way) = true ↔ ¬ Path.IsHiddenBelow directory path) := by
  obtain ⟨shared, -, hdown⟩ :=
    Path.exists_shared (normalSegments directory.toList) (normalSegments path.toList)
  refine ⟨_, Path.relative_eq_upAndDown hdirectory hpath, ?_⟩
  rw [Path.isHiddenBelow_iff]
  exact isPath_wayAsSpecifier fun n hn =>
    Path.plain_normalSegments hpath n (hdown ▸ List.mem_append_right _ hn)

/-! ## What the specifier finds -/

/-- No module that is no file has a name with a dot in front. -/
theorem isCoreModule_of_dot {specifier : String} (h : specifier.toList.head? = some '.') :
    Resolution.isCoreModule specifier = false := by
  obtain ⟨cs, hcs⟩ := List.head?_eq_some_iff.1 h
  have hcore : ∀ name ∈ Resolution.coreModules, name.toList.head? ≠ some '.' := by decide
  have hnode : Text.startsWith specifier "node:" = false := by
    rw [Text.startsWith, hcs]
    rfl
  have hfirst : String.ofList (specifier.toList.takeWhile (· != '/')) ∉ Resolution.coreModules := by
    intro hmem
    refine hcore _ hmem ?_
    rw [String.toList_ofList, hcs]
    rfl
  rw [Resolution.isCoreModule, hnode, Bool.false_or]
  simpa using hfirst

section

variable {files : FileTree} {base binary directory : String}

/-- The addon that is found is a file, and if its path is absolute, that is worked out. -/
theorem Addon.of_single? (h : Addon.single? files base = some binary) :
    files.isFile binary = true ∧ (Path.isAbsolute binary = true →
      ∃ names, (∀ n ∈ names, IsPlain n) ∧ binary = String.ofList (Path.rooted names)) := by
  rw [Addon.single?] at h
  refine ⟨List.find?_some h, fun habsolute => ?_⟩
  obtain ⟨configuration, -, rfl⟩ := List.mem_map.1 (List.mem_of_find?_eq_some h)
  have hparts : Path.nonemptyParts [base, "build", configuration, "nbind.node"] =
      Path.nonemptyParts [base, "build", configuration] ++ ["nbind.node".toList] :=
    Path.nonemptyParts_append [base, "build", configuration] ["nbind.node"]
  have hfront : Path.nonemptyParts [base, "build", configuration] ≠ [] := by
    simp [Path.nonemptyParts]
  have hjoined := Path.toList_join [base, "build", configuration, "nbind.node"]
  rw [hparts, Path.joined_append hfront (List.cons_ne_nil _ _)] at hjoined
  rw [Path.isAbsolute, hjoined, Path.isAbsoluteChars_normalizeChars] at habsolute
  have hend : Path.endsWithSlash (Text.joinWithChar '/'
      (Path.nonemptyParts [base, "build", configuration]) ++
        '/' :: Text.joinWithChar '/' ["nbind.node".toList]) = false :=
    (Path.endsWithSlash_append _ (List.cons_ne_nil _ _)).trans (by decide)
  refine ⟨_, Path.plain_normalSegments habsolute, ?_⟩
  rw [← String.toList_inj, hjoined, Path.normalizeChars_eq_rooted habsolute hend]
  exact String.toList_ofList.symm

/-- **A specifier that is a path leads back to the addon.** -/
theorem module?_wayAsSpecifier {names : List (List Char)} (hdirectory : Path.isAbsolute directory = true)
    (hnames : ∀ n ∈ names, IsPlain n) (hfile : files.isFile (String.ofList (Path.rooted names)) = true)
    {way : String} (hway : Path.relative directory (String.ofList (Path.rooted names)) = some way)
    (hpath : Resolution.isPath (wayAsSpecifier way) = true) :
    Resolution.module? files (wayAsSpecifier way) directory =
      some (String.ofList (Path.rooted names)) := by
  have habsolute : Path.isAbsolute (String.ofList (Path.rooted names)) = true := by
    rw [Path.isAbsolute, String.toList_ofList]
    rfl
  obtain ⟨_, hsome, hleads⟩ := Path.exists_relative hdirectory habsolute
  obtain rfl := Option.some.inj (hway.symm.trans hsome)
  rw [Path.resolve_self hnames] at hleads
  have hspecifier : Path.resolve [directory, wayAsSpecifier way] =
      some (String.ofList (Path.rooted names)) := by
    rw [wayAsSpecifier]
    split
    · exact hleads
    · rw [Path.resolve_here hdirectory (Path.isAbsolute_way hdirectory habsolute hway), hleads]
  have hne : wayAsSpecifier way ≠ "" := by
    intro hempty
    rw [hempty] at hpath
    cases hpath
  rw [Resolution.module?, if_neg hne, if_pos hpath, hspecifier, Option.bind_some, Resolution.path?,
    Resolution.file?, List.find?_cons_of_pos hfile]
  rfl

end

/-! ## The call and its load -/

open Syntax

section

variable {w : WalkSetting} {s : WalkState} {span : Span} {callee : Tree} {arguments : List Tree}
  {binary : String}

/-- What the call gives is the addon of some directory. -/
theorem single?_of_gives (hcallee : Gives w.ctx s.env callee (.single (.builtin .nbindInit)))
    (hcall : Gives w.ctx s.env (.node .call span (callee :: arguments)) (.single (.text binary))) :
    ∃ base, Addon.single? w.ctx.files base = some binary := by
  obtain ⟨_, _, b, xs, hparts, hb, -, -, hgives⟩ := Gives.call.1 hcall
  obtain ⟨rfl, rfl⟩ := List.cons.inj hparts
  obtain rfl : b = .nbindInit := by
    have heq := hb.unique hcallee
    simpa using heq
  rw [callOutcome] at hgives
  split at hgives
  · cases hgives
  · rename_i firsts _
    have hvalue : (Builtin.nbindInit.call w.ctx firsts).value = some (.text binary) := by
      simpa [Option.bind_eq_some_iff] using hgives
    rw [Builtin.call, Evaluation.value_ofOption] at hvalue
    obtain ⟨found, hfound, heq⟩ := Option.map_eq_some_iff.1 hvalue
    obtain rfl := Value.text.inj heq
    obtain ⟨base, -, hbase⟩ := Option.bind_eq_some_iff.1 hfound
    exact ⟨base, hbase⟩
  · -- an addon that depends on a test is no single value
    simp [Option.bind_eq_some_iff] at hgives

/-- The text of a load by a specifier. -/
def directLoad (specifier : String) : String :=
  "(\x7b bind: require(" ++ Json.quote specifier ++ ").NBind.bind_value, lib: require(" ++
    Json.quote specifier ++ ") \x7d)"

/-- A step goes on with the answer and the state of the one before. -/
theorem bind_apply {α β : Type} (step : Walk α) (next : α → Walk β) (s : WalkState) :
    (step >>= next) s = next (step s).1 (step s).2 :=
  rfl

/-- The call becomes a load by the way to the addon, if there is a way. -/
theorem builtinCall?_nbindInit (hcallee : Gives w.ctx s.env callee (.single (.builtin .nbindInit)))
    {call : Tree} (hcall : Gives w.ctx s.env call (.single (.text binary))) :
    Walk.builtinCall? w call callee arguments s =
      match Path.relative w.ctx.directory binary with
      | some way =>
        (some .done, { s with
          draft := s.draft.overwrite call.span (directLoad (wayAsSpecifier way)) })
      | none => (none, s) := by
  have hknown {t : Tree} {v : Value} (ht : Gives w.ctx s.env t (.single v)) :
      Walk.known? w t s = (some v, s) := by
    show ((t.evaluate w.ctx s.env).single.value, s) = _
    rw [Evaluation.value_single, ht]
    rfl
  have hload : Walk.loadSingle w call s =
      match Path.relative w.ctx.directory binary with
      | some way =>
        (true, { s with
          draft := s.draft.overwrite call.span (directLoad (wayAsSpecifier way)) })
      | none => (false, s) := by
    rw [Walk.loadSingle, bind_apply, hknown hcall]
    dsimp only
    cases Path.relative w.ctx.directory binary <;> rfl
  rw [Walk.builtinCall?, bind_apply, hknown hcallee]
  dsimp only
  rw [bind_apply, hload]
  cases Path.relative w.ctx.directory binary <;> rfl

/-! ## Main statement -/

/-- **The load of the one addon of a package.** A call that gives such an addon is replaced if the
addon's path is absolute. The load's specifier leads from the module's directory to the addon,
unless the addon lies below a hidden directory there. Then it is no path, and it is looked for
among the packages that are installed around the module. -/
theorem single_addon_loaded (hcallee : Gives w.ctx s.env callee (.single (.builtin .nbindInit)))
    (hcall : Gives w.ctx s.env (.node .call span (callee :: arguments)) (.single (.text binary)))
    (hdirectory : Path.isAbsolute w.ctx.directory = true) :
    (Path.isAbsolute binary = false →
      Walk.builtinCall? w (.node .call span (callee :: arguments)) callee arguments s = (none, s)) ∧
    (Path.isAbsolute binary = true → ∃ specifier,
      Walk.builtinCall? w (.node .call span (callee :: arguments)) callee arguments s =
        (some .done, { s with draft := s.draft.overwrite span (directLoad specifier) }) ∧
      (¬ Path.IsHiddenBelow w.ctx.directory binary →
        Resolution.module? w.ctx.files specifier w.ctx.directory = some binary) ∧
      (Path.IsHiddenBelow w.ctx.directory binary →
        Resolution.isPath specifier = false ∧
        Resolution.module? w.ctx.files specifier w.ctx.directory =
          (Path.ancestors (Path.normalize w.ctx.directory)).findSome? fun around =>
            if Path.basename around none = "node_modules" then none
            else Resolution.path? w.ctx.files (Path.join [around, "node_modules", specifier]))) := by
  have hload : Walk.builtinCall? w _ callee arguments s = _ :=
    builtinCall?_nbindInit hcallee hcall
  obtain ⟨base, hbase⟩ := single?_of_gives hcallee hcall
  obtain ⟨hfile, hrooted⟩ := Addon.of_single? hbase
  refine ⟨fun hrelative => ?_, fun habsolute => ?_⟩
  · have hnone : Path.relative w.ctx.directory binary = none := by
      rw [Path.relative, hrelative, Bool.and_false]
      rfl
    rw [hload, hnone]
  obtain ⟨way, hway, hpath⟩ := exists_way hdirectory habsolute
  refine ⟨wayAsSpecifier way, by rw [hload, hway]; rfl, fun hplain => ?_, fun hhidden => ?_⟩
  · obtain ⟨names, hnames, rfl⟩ := hrooted habsolute
    exact module?_wayAsSpecifier hdirectory hnames hfile hway (hpath.2 hplain)
  · have hnot : Resolution.isPath (wayAsSpecifier way) = false :=
      Bool.eq_false_iff.2 (mt hpath.1 (not_not.2 hhidden))
    have hdot := head?_wayAsSpecifier way
    have hne : wayAsSpecifier way ≠ "" := by
      intro hempty
      rw [hempty] at hdot
      cases hdot
    refine ⟨hnot, ?_⟩
    rw [Resolution.module?, if_neg hne, hnot, if_neg Bool.false_ne_true, isCoreModule_of_dot hdot,
      if_neg Bool.false_ne_true]

end

/-- A package with a module and two builds of an addon, one of them in a hidden directory. A
package of the directory's name is installed beside the module. -/
def twiceBuilt : FileTree :=
  let build : Node := .directory
    [("build", .directory
      [("Release", .directory [("nbind.node", .file ByteArray.empty 0o644)])])]
  ⟨.directory
    [("p", .directory
      [("lib", build),
        ("src", .directory
          [(".lib", build), ("m.js", .file ByteArray.empty 0o644),
            ("node_modules", .directory [(".lib", build)])])])]⟩

/-- The module of that package. -/
def twiceBuiltSetting : WalkSetting where
  ctx := ⟨"/p/src/m.js", "/p/src", some "/p", none, .default, twiceBuilt⟩
  source := ""
  grammar := .script
  scopes := default
  isEntry := false

/-- The name of the function that loads an addon. -/
def initName : Tree := .node (.identifier "init") ⟨0, 4⟩ []

/-- A call of that function for a directory. -/
def initCall (directory : String) : Tree :=
  .node .call ⟨0, 6⟩ [initName, .node (.text (some directory)) ⟨5, 5⟩ []]

/-- The function is known. -/
def initKnown : WalkState :=
  ⟨⟨[("init", [⟨0, some (.builtin .nbindInit)⟩])]⟩, .start "" default, false⟩

theorem gives_initName :
    Gives twiceBuiltSetting.ctx initKnown.env initName (.single (.builtin .nbindInit)) :=
  rfl

theorem single_addon_loaded_beside :
    Gives twiceBuiltSetting.ctx initKnown.env (initCall "/p/lib")
      (.single (.text "/p/lib/build/Release/nbind.node")) ∧
    ¬ Path.IsHiddenBelow "/p/src" "/p/lib/build/Release/nbind.node" ∧
    ∃ specifier, Resolution.module? twiceBuilt specifier "/p/src" =
      some "/p/lib/build/Release/nbind.node" := by
  have hcall : Gives twiceBuiltSetting.ctx initKnown.env (initCall "/p/lib")
      (.single (.text "/p/lib/build/Release/nbind.node")) := rfl
  have hplain : ¬ Path.IsHiddenBelow "/p/src" "/p/lib/build/Release/nbind.node" := by
    rw [Path.isHiddenBelow_iff]
    exact fun henters => absurd henters.1 (by decide)
  obtain ⟨-, hloaded⟩ := single_addon_loaded gives_initName hcall (by decide)
  obtain ⟨specifier, -, hfinds, -⟩ := hloaded (by decide)
  exact ⟨hcall, hplain, specifier, hfinds hplain⟩

/-- The specifier of a hidden addon names a package and finds what is in there, where a step in
front of it finds the addon. -/
theorem hidden_addon_missed :
    Gives twiceBuiltSetting.ctx initKnown.env (initCall "/p/src/.lib")
      (.single (.text "/p/src/.lib/build/Release/nbind.node")) ∧
    Walk.builtinCall? twiceBuiltSetting (initCall "/p/src/.lib") initName [] initKnown =
      (some .done, { initKnown with
        draft := initKnown.draft.overwrite ⟨0, 6⟩
          (directLoad ".lib/build/Release/nbind.node") }) ∧
    Resolution.module? twiceBuilt ".lib/build/Release/nbind.node" "/p/src" =
      some "/p/src/node_modules/.lib/build/Release/nbind.node" ∧
    Resolution.module? twiceBuilt "./.lib/build/Release/nbind.node" "/p/src" =
      some "/p/src/.lib/build/Release/nbind.node" := by
  have hcall : Gives twiceBuiltSetting.ctx initKnown.env (initCall "/p/src/.lib")
      (.single (.text "/p/src/.lib/build/Release/nbind.node")) := rfl
  have hway : Path.relative twiceBuiltSetting.ctx.directory
      "/p/src/.lib/build/Release/nbind.node" = some ".lib/build/Release/nbind.node" := by
    decide +kernel
  have hspecifier : wayAsSpecifier ".lib/build/Release/nbind.node" =
      ".lib/build/Release/nbind.node" := by decide +kernel
  refine ⟨hcall, ?_, by decide +kernel, by decide +kernel⟩
  rw [builtinCall?_nbindInit gives_initName hcall, hway]
  dsimp only
  rw [hspecifier]
  rfl

end ModuleAssets
