import ModuleAssets.Package.Resolution
import ModuleAssets.Proofs.Path.LastName
/-!
# Upwards — from a directory to the last one around it

A step up leads to the current directory, to the root, or to what stands before a slash of the
path (`dirname_cases`). The first two are their own directories, and the last has fewer slashes;
so each step that leads elsewhere brings the end nearer (`height_dirname_lt`), and from any path
the way up ends (`up_ancestors`), soon and without coming to a directory twice (`Up.isShort`).

A search upwards goes this way as far as it has to. The two searches of packages do, for the scope
of a module and for an installed package (`searches_end`).
-/

namespace ModuleAssets

namespace Path

/-- The number of slashes in a path. -/
def slashes (path : String) : Nat :=
  path.toList.count '/'

/-- How many steps up there are at most: none from a directory that is its own. -/
def height (path : String) : Nat :=
  if dirname path = path then 0 else slashes path + 1

/-- The way up from a path: on to the directory, up to the first that is its own. -/
inductive Up : String → List String → Prop
  | top {path : String} (hself : dirname path = path) : Up path [path]
  | step {path : String} {way : List String} (hother : dirname path ≠ path)
      (hrest : Up (dirname path) way) : Up path (path :: way)

/-- What a way up from `start` is like: it ends at a directory that is its own, has no more
directories than the path has slashes, and two, and none of them twice. From an absolute path it
ends at the root, and goes by beginnings of the path only. -/
structure IsShort (start : String) (way : List String) : Prop where
  ends : ∃ top, way.getLast? = some top ∧ dirname top = top
  length_le : way.length ≤ slashes start + 2
  nodup : way.Nodup
  root : isAbsolute start = true → way.getLast? = some "/"
  begins : isAbsolute start = true → ∀ directory ∈ way, directory.toList <+: start.toList

variable {path : String} {way : List String}

/-! ## One step -/

/-- **Where a step up leads.** -/
theorem dirname_cases (path : String) :
    (dirname path = "." ∧ isAbsolute path = false) ∨
      (dirname path = "/" ∧ isAbsolute path = true) ∨
      ∃ rest, path.toList = (dirname path).toList ++ '/' :: rest := by
  rw [← String.ofList_toList (s := path), isAbsolute, String.toList_ofList]
  obtain ⟨slashes, hpath⟩ | ⟨directory, name, slashes, hparts⟩ := exists_endsInName path.toList
  · rw [hpath]
    cases slashes with
    | zero => exact .inl ⟨rfl, rfl⟩
    | succ slashes => exact .inr (.inl ⟨dirname_replicate slashes, rfl⟩)
  · rw [hparts.dirname_eq]
    have hpath := hparts.path_eq
    rw [List.append_assoc] at hpath
    cases directory with
    | none =>
      obtain ⟨c, rest, rfl⟩ := List.exists_cons_of_ne_nil hparts.nonempty
      have hc : c ≠ '/' := fun heq => hparts.not_mem (heq ▸ List.mem_cons_self)
      refine .inl ⟨rfl, ?_⟩
      rw [hpath]
      exact beq_false_of_ne hc
    | some directory =>
      rw [frontOf, List.append_assoc, List.singleton_append] at hpath
      cases directory with
      | nil =>
        refine .inr (.inl ⟨rfl, ?_⟩)
        rw [hpath]
        rfl
      | cons c rest =>
        refine .inr (.inr ⟨name ++ List.replicate slashes '/', ?_⟩)
        rw [Option.elim_some, if_neg (List.cons_ne_nil c rest), String.toList_ofList]
        exact hpath

theorem height_le (path : String) : height path ≤ slashes path + 1 := by
  unfold height
  split
  · exact Nat.zero_le _
  · exact Nat.le_refl _

/-- **A step up that leads elsewhere brings the end nearer.** -/
theorem height_dirname_lt (h : dirname path ≠ path) : height (dirname path) < height path := by
  have hpath : height path = slashes path + 1 := if_neg h
  rw [hpath]
  obtain ⟨hdirectory, -⟩ | ⟨hdirectory, -⟩ | ⟨rest, hrest⟩ := dirname_cases path
  · rw [hdirectory]
    exact Nat.succ_pos _
  · rw [hdirectory]
    exact Nat.succ_pos _
  · have hslashes : slashes path = slashes (dirname path) + (rest.count '/' + 1) := by
      rw [slashes, hrest, List.count_append, List.count_cons_self]
      rfl
    have := height_le (dirname path)
    omega

theorem prefix_dirname (h : isAbsolute path = true) : (dirname path).toList <+: path.toList := by
  obtain ⟨-, hrelative⟩ | ⟨hdirectory, -⟩ | ⟨rest, hrest⟩ := dirname_cases path
  · exact absurd h (Bool.eq_false_iff.1 hrelative)
  · rw [hdirectory]
    rw [isAbsolute] at h
    cases hchars : path.toList with
    | nil =>
      rw [hchars] at h
      cases h
    | cons c rest =>
      rw [hchars] at h
      exact ⟨rest, congrArg (· :: rest) (beq_iff_eq.1 h).symm⟩
  · exact ⟨_, hrest.symm⟩

/-- Only the root is its own directory among the absolute paths. -/
theorem eq_root_of_dirname_eq (habsolute : isAbsolute path = true) (h : dirname path = path) :
    path = "/" := by
  obtain ⟨-, hrelative⟩ | ⟨hdirectory, -⟩ | ⟨rest, hrest⟩ := dirname_cases path
  · exact absurd habsolute (Bool.eq_false_iff.1 hrelative)
  · exact h.symm.trans hdirectory
  · rw [h] at hrest
    exact absurd (List.self_eq_append_right.1 hrest) (List.cons_ne_nil _ _)

/-- No step up adds slashes. -/
theorem slashes_dirname_le (path : String) : slashes (dirname path) ≤ slashes path := by
  obtain ⟨hdirectory, -⟩ | ⟨hdirectory, habsolute⟩ | ⟨rest, hrest⟩ := dirname_cases path
  · rw [hdirectory]
    exact Nat.zero_le _
  · exact (prefix_dirname habsolute).sublist.count_le '/'
  · rw [slashes, slashes, hrest]
    exact (List.sublist_append_left _ _).count_le '/'

/-! ## The whole way -/

/-- **Enough fuel** leads all the way up. -/
theorem up_climb {fuel : Nat} (h : height path ≤ fuel) : Up path (climb fuel path) := by
  induction fuel generalizing path with
  | zero =>
    -- without fuel the path has no height, so it is its own directory
    refine .top (Classical.byContradiction fun hother => ?_)
    have := height_dirname_lt hother
    omega
  | succ fuel ih =>
    rw [climb]
    split
    · rename_i hself
      exact .top hself
    · rename_i hother
      have := height_dirname_lt hother
      exact .step hother (ih (by omega))

/-- **From any path the way up ends.** -/
theorem up_ancestors (path : String) : Up path (ancestors path) := by
  have hslashes : slashes path ≤ path.length := by
    rw [← String.length_toList]
    exact List.count_le_length
  have := height_le path
  exact up_climb (by omega)

namespace Up

theorem ends (h : Up path way) : ∃ top, way.getLast? = some top ∧ dirname top = top := by
  induction h with
  | top hself => exact ⟨_, rfl, hself⟩
  | step _ _ ih =>
    obtain ⟨top, hlast, hself⟩ := ih
    exact ⟨top, by rw [List.getLast?_cons, hlast, Option.getD_some], hself⟩

theorem length_le (h : Up path way) : way.length ≤ height path + 1 := by
  induction h with
  | top => exact Nat.le_add_left _ _
  | step hother _ ih =>
    have := height_dirname_lt hother
    rw [List.length_cons]
    omega

theorem height_le_start (h : Up path way) : ∀ directory ∈ way, height directory ≤ height path := by
  induction h with
  | top => exact List.forall_mem_singleton.2 (Nat.le_refl _)
  | step hother _ ih =>
    refine List.forall_mem_cons.2 ⟨Nat.le_refl _, fun directory hdirectory => ?_⟩
    exact (ih directory hdirectory).trans (Nat.le_of_lt (height_dirname_lt hother))

/-- Each directory is nearer to the end than all before it. -/
theorem nodup (h : Up path way) : way.Nodup := by
  induction h with
  | top => exact List.nodup_singleton _
  | step hother hrest ih =>
    refine List.nodup_cons.2 ⟨fun hmem => ?_, ih⟩
    exact absurd (hrest.height_le_start _ hmem) (Nat.not_le.2 (height_dirname_lt hother))

theorem absolute (h : Up path way) (habsolute : isAbsolute path = true) :
    way.getLast? = some "/" ∧ ∀ directory ∈ way, directory.toList <+: path.toList := by
  induction h with
  | top hself =>
    rw [eq_root_of_dirname_eq habsolute hself]
    exact ⟨rfl, List.forall_mem_singleton.2 List.prefix_rfl⟩
  | step _ _ ih =>
    obtain ⟨hlast, hbegins⟩ := ih (isAbsolute_dirname habsolute)
    refine ⟨by rw [List.getLast?_cons, hlast, Option.getD_some],
      List.forall_mem_cons.2 ⟨List.prefix_rfl, fun directory hdirectory => ?_⟩⟩
    exact (hbegins directory hdirectory).trans (prefix_dirname habsolute)

theorem isShort (h : Up path way) : IsShort path way where
  ends := h.ends
  length_le := h.length_le.trans (Nat.succ_le_succ (height_le path))
  nodup := h.nodup
  root := fun habsolute => (h.absolute habsolute).1
  begins := fun habsolute => (h.absolute habsolute).2

end Up

end Path

/-! ## Searches on the way -/

/-- A search upwards: it looks at a path, ends with what it finds there, or without anything at a
path that is its own directory, and goes on to the directory otherwise. -/
inductive Search {α : Type} (look : String → Option α) : String → List String → Option α → Prop
  | found {path : String} {x : α} (hfound : look path = some x) :
      Search look path [path] (some x)
  | top {path : String} (hnone : look path = none) (hself : Path.dirname path = path) :
      Search look path [path] none
  | step {path : String} {seen : List String} {answer : Option α} (hnone : look path = none)
      (hother : Path.dirname path ≠ path) (hrest : Search look (Path.dirname path) seen answer) :
      Search look path (path :: seen) answer

/-- The search upwards from `start` ends with `answer`, in one way only. The paths it looks at are
those of the way up, which is short: all of them if it finds nothing, and else the first of them. -/
def Ends {α : Type} (look : String → Option α) (start : String) (answer : Option α) : Prop :=
  ∃ way seen, Path.Up start way ∧ Path.IsShort start way ∧ seen <+: way ∧
    (answer = none → seen = way) ∧
    ∀ seen' answer', Search look start seen' answer' ↔ seen' = seen ∧ answer' = answer

namespace Search

variable {α : Type} {look : String → Option α} {path : String} {way seen seen' : List String}
  {answer answer' : Option α}

theorem unique (h : Search look path seen answer) (h' : Search look path seen' answer') :
    seen' = seen ∧ answer' = answer := by
  -- what is found at a path and whether it is its own directory leave one rule for each step
  induction h generalizing seen' answer' with
  | found hfound =>
    cases h' with
    | found hfound' => exact ⟨rfl, hfound'.symm.trans hfound⟩
    | top hnone => cases hnone.symm.trans hfound
    | step hnone => cases hnone.symm.trans hfound
  | top hnone hself =>
    cases h' with
    | found hfound => cases hfound.symm.trans hnone
    | top => exact ⟨rfl, rfl⟩
    | step _ hother => exact absurd hself hother
  | step hnone hother _ ih =>
    cases h' with
    | found hfound => cases hfound.symm.trans hnone
    | top _ hself => exact absurd hself hother
    | step _ _ hrest =>
      obtain ⟨rfl, rfl⟩ := ih hrest
      exact ⟨rfl, rfl⟩

/-- **A search comes to what is found first on the way up.** -/
theorem exists_of_up (look : String → Option α) (h : Path.Up path way) :
    ∃ seen, Search look path seen (way.findSome? look) ∧ seen <+: way ∧
      (way.findSome? look = none → seen = way) := by
  induction h with
  | @top path hself =>
    refine ⟨[path], ?_, List.prefix_rfl, fun _ => rfl⟩
    cases hlook : look path with
    | none =>
      rw [List.findSome?_cons, hlook]
      exact .top hlook hself
    | some x =>
      rw [List.findSome?_cons, hlook]
      exact .found hlook
  | @step path way hother _ ih =>
    obtain ⟨seen, hsearch, hseen, hall⟩ := ih
    cases hlook : look path with
    | none =>
      rw [List.findSome?_cons, hlook]
      exact ⟨path :: seen, .step hlook hother hsearch, List.cons_prefix_cons.2 ⟨rfl, hseen⟩,
        fun hnone => congrArg _ (hall hnone)⟩
    | some x =>
      rw [List.findSome?_cons, hlook]
      exact ⟨[path], .found hlook, ⟨way, rfl⟩, fun hnone => (nomatch hnone)⟩

end Search

/-- Each search among the paths around a path ends. -/
theorem ends_ancestors {α : Type} (look : String → Option α) (start : String) :
    Ends look start ((Path.ancestors start).findSome? look) := by
  have hup := Path.up_ancestors start
  obtain ⟨seen, hsearch, hseen, hall⟩ := Search.exists_of_up look hup
  refine ⟨_, seen, hup, hup.isShort, hseen, hall, fun seen' answer' => ⟨hsearch.unique, ?_⟩⟩
  rintro ⟨rfl, rfl⟩
  exact hsearch

/-- A directory that has a description of a package. -/
def described? (files : FileTree) (directory : String) : Option String :=
  if files.isFile (directory ++ "/" ++ Package.descriptionName) then some directory else none

/-- The module of an installed package in a directory. Among the installed packages themselves
nothing is looked for. -/
def installed? (files : FileTree) (specifier directory : String) : Option String :=
  if Path.basename directory none = "node_modules" then none
  else Resolution.path? files (Path.join [directory, "node_modules", specifier])

/-- The specifier is the name of a package, or a path in one. -/
def NamesPackage (specifier : String) : Prop :=
  specifier ≠ "" ∧ Resolution.isPath specifier = false ∧ Resolution.isCoreModule specifier = false

/-- **The searches of packages end,** for the scope of a module by whatever name and for an
installed package from whatever directory. The directory of a module is one step up, so the first
way is no longer than the slashes of the module's name allow, and goes by beginnings of it, too. -/
theorem searches_end (files : FileTree) (id specifier directory : String) :
    Ends (described? files) (Path.dirname id) (Package.scope? files id) ∧
      Path.slashes (Path.dirname id) ≤ Path.slashes id ∧
      (Path.isAbsolute id = true →
        Path.isAbsolute (Path.dirname id) = true ∧ (Path.dirname id).toList <+: id.toList) ∧
      (NamesPackage specifier →
        Ends (installed? files specifier) (Path.normalize directory)
          (Resolution.module? files specifier directory)) := by
  refine ⟨?_, Path.slashes_dirname_le id,
    fun h => ⟨Path.isAbsolute_dirname h, Path.prefix_dirname h⟩, ?_⟩
  · rw [Package.scope?, List.find?_eq_findSome?_guard]
    exact ends_ancestors (described? files) _
  · rintro ⟨hne, hpath, hcore⟩
    rw [Resolution.module?, if_neg hne, hpath, hcore]
    exact ends_ancestors (installed? files specifier) _

/-- Doubled slashes at the start and in the middle, and a directory above the current one. -/
theorem searches_end_doubled :
    let files : FileTree := ⟨.directory []⟩
    Path.isAbsolute "//m//x.js" = true ∧ Path.dirname "//m//x.js" = "//m/" ∧
      Ends (described? files) "//m/" none ∧
      (Path.dirname "//m//x.js").toList <+: "//m//x.js".toList ∧
      NamesPackage "a/b" ∧ Ends (installed? files "a/b") "../q/" none := by
  have habsolute : Path.isAbsolute "//m//x.js" = true := by decide
  have hnames : NamesPackage "a/b" := by
    refine ⟨by decide, by decide, ?_⟩
    decide +kernel
  obtain ⟨hscope, -, hid, hmodule⟩ := searches_end ⟨.directory []⟩ "//m//x.js" "a/b" "..//q/"
  have hnone : Package.scope? ⟨.directory []⟩ "//m//x.js" = none := by decide +kernel
  have hnone' : Resolution.module? ⟨.directory []⟩ "a/b" "..//q/" = none := by decide +kernel
  rw [hnone] at hscope
  refine ⟨habsolute, by decide, hscope, (hid habsolute).2, hnames, ?_⟩
  have hends := hmodule hnames
  rw [hnone'] at hends
  exact hends

end ModuleAssets
