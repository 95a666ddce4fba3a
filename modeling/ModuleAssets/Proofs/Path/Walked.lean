import ModuleAssets.Proofs.Path.Descending
import ModuleAssets.Proofs.Path.Normal
import ModuleAssets.Proofs.Path.Relative
import Mathlib.Data.List.Infix
/-!
# Walking — where paths lead, name by name

A place is told by the names that lead to it from the root. A path leads from a place to
another by its steps, links aside, and a place is written with a slash behind it or without
(`written`). What is put together from the text of a place and a path is the text of the place
that the path leads to, with the slash of the path (`join_written`); and the paths around
the text of a place are those of all beginnings of its names (`spells_ancestors`).
-/

namespace ModuleAssets.Path

/-- Where a step leads from a place. -/
def step (place : List (List Char)) (piece : List Char) : List (List Char) :=
  if piece = [] ∨ piece = ['.'] then place
  else if piece = ['.', '.'] then place.dropLast
  else place ++ [piece]

/-- Where a path leads from a place. -/
def walk (place : List (List Char)) (path : String) : List (List Char) :=
  (pieces path.toList).foldl step place

/-- How a place is written, with a slash behind it or without. Behind the root there is none. -/
def written (place : List (List Char)) (slash : Bool) : String :=
  String.ofList (rooted place ++ if slash = true ∧ place ≠ [] then ['/'] else [])

variable {place kept steps : List (List Char)} {slash : Bool} {path cs : List Char}
  {relative directory : String}

/-! ## Steps -/

theorem plain_step (hplace : ∀ n ∈ place, IsPlain n) {piece : List Char} (hpiece : '/' ∉ piece) :
    ∀ n ∈ step place piece, IsPlain n := by
  unfold step
  split
  · exact hplace
  · rename_i hidle
    obtain ⟨hempty, hdot⟩ := not_or.1 hidle
    split
    · exact fun n hn => hplace n (List.mem_of_mem_dropLast hn)
    · rename_i hdots
      exact List.forall_mem_append.2
        ⟨hplace, List.forall_mem_singleton.2 ⟨hempty, hdot, hdots, hpiece⟩⟩

theorem plain_walk (hplace : ∀ n ∈ place, IsPlain n) (path : String) :
    ∀ n ∈ walk place path, IsPlain n := by
  suffices hsteps : ∀ steps : List (List Char), (∀ piece ∈ steps, '/' ∉ piece) →
      ∀ place : List (List Char), (∀ n ∈ place, IsPlain n) →
        ∀ n ∈ steps.foldl step place, IsPlain n from
    hsteps _ (fun _ => not_mem_of_mem_pieces) place hplace
  intro steps hpieces
  induction steps with
  | nil => exact fun _ hplace => hplace
  | cons piece rest ih =>
    obtain ⟨hpiece, hrest⟩ := List.forall_mem_cons.1 hpieces
    exact fun place hplace => ih hrest _ (plain_step hplace hpiece)

/-- One step is one step of normalization, whose names stand the other way round. -/
theorem keepSegment_eq (hkept : ∀ n ∈ kept, IsPlain n) (piece : List Char) :
    keepSegment true kept piece = (step kept.reverse piece).reverse := by
  unfold keepSegment step
  split
  · rw [List.reverse_reverse]
  · split
    · cases kept with
      | nil => rfl
      | cons last rest =>
        -- no step up is kept, so one always takes away the last name
        dsimp only
        rw [if_neg (hkept last List.mem_cons_self).2.2.1, List.reverse_cons,
          List.dropLast_concat, List.reverse_reverse]
    · rw [List.reverse_append, List.reverse_reverse]
      rfl

theorem foldl_keepSegment (hsteps : ∀ piece ∈ steps, '/' ∉ piece) (hkept : ∀ n ∈ kept, IsPlain n) :
    steps.foldl (keepSegment true) kept = (steps.foldl step kept.reverse).reverse := by
  induction steps generalizing kept with
  | nil => exact (List.reverse_reverse kept).symm
  | cons piece rest ih =>
    obtain ⟨hpiece, hrest⟩ := List.forall_mem_cons.1 hsteps
    have hplain : ∀ n ∈ keepSegment true kept piece, IsPlain n :=
      plain_foldl (List.forall_mem_singleton.2 hpiece) hkept
    rw [List.foldl_cons, List.foldl_cons, ih hrest hplain, keepSegment_eq hkept,
      List.reverse_reverse]

/-- **The names of an absolute path are where it leads from the root.** -/
theorem normalSegments_eq_walk (h : isAbsolute directory = true) :
    normalSegments directory.toList = walk [] directory := by
  have habsolute : isAbsoluteChars directory.toList = true := h
  rw [normalSegments, habsolute, foldl_keepSegment (fun _ => not_mem_of_mem_pieces)
      (List.forall_mem_nil _),
    List.reverse_reverse]
  rfl

/-- What stands behind an absolute path goes on from its place. -/
theorem normalSegments_behind (hfront : isAbsoluteChars path = true) (relative : String) :
    normalSegments (path ++ '/' :: relative.toList) = walk (normalSegments path) relative := by
  have habsolute := isAbsoluteChars_slash hfront
  rw [normalSegments_append, habsolute, normalSegments_slash hfront,
    foldl_keepSegment (fun _ => not_mem_of_mem_pieces)
      (fun n hn => plain_normalSegments hfront n (List.mem_reverse.1 hn)),
    List.reverse_reverse, List.reverse_reverse]
  rfl

/-! ## The text of a place -/

theorem rooted_eq_root_iff (hplace : ∀ n ∈ place, IsPlain n) :
    rooted place = ['/'] ↔ place = [] := by
  refine ⟨fun hroot => ?_, fun hnil => hnil ▸ rfl⟩
  have hnames := normalSegments_rooted hplace
  rw [hroot] at hnames
  exact hnames.symm

theorem written_false (place : List (List Char)) :
    written place false = String.ofList (rooted place) := by
  rw [written, if_neg (fun h => Bool.noConfusion h.1), List.append_nil]

theorem written_true (h : place ≠ []) :
    written place true = String.ofList (rooted place ++ ['/']) := by
  rw [written, if_pos ⟨rfl, h⟩]

/-- **An absolute path is worked out to the text of its place,** with its slash. -/
theorem normalizeChars_eq_written (h : isAbsoluteChars path = true) :
    normalizeChars path = (written (normalSegments path) (endsWithSlash path)).toList := by
  have hplain := plain_normalSegments h
  have hroot : '/' :: Text.joinWithChar '/' (normalSegments path) ≠ ['/'] ↔
      normalSegments path ≠ [] := not_congr (rooted_eq_root_iff hplain)
  rw [written, String.toList_ofList, normalizeChars, if_neg (ne_nil_of_isAbsoluteChars h), h]
  dsimp only
  rw [if_pos rfl, if_neg (List.cons_ne_nil _ _)]
  by_cases hslash : endsWithSlash path = true ∧ normalSegments path ≠ []
  · rw [if_pos hslash, if_pos ⟨hslash.1, hroot.2 hslash.2⟩]
    rfl
  · rw [if_neg hslash, if_neg fun h => hslash ⟨h.1, hroot.1 h.2⟩, List.append_nil]
    rfl

theorem normalize_eq_written (h : isAbsolute directory = true) :
    normalize directory = written (walk [] directory) (endsWithSlash directory.toList) := by
  rw [normalize, normalizeChars_eq_written h, normalSegments_eq_walk h, String.ofList_toList]

theorem isAbsoluteChars_written (place : List (List Char)) (slash : Bool) :
    isAbsoluteChars (written place slash).toList = true := by
  rw [written, String.toList_ofList]
  rfl

theorem normalSegments_written (hplace : ∀ n ∈ place, IsPlain n) (slash : Bool) :
    normalSegments (written place slash).toList = place := by
  rw [written, String.toList_ofList]
  split
  · rw [normalSegments_slash rfl, normalSegments_rooted hplace]
  · rw [List.append_nil, normalSegments_rooted hplace]

theorem endsWithSlash_rooted (hne : place ≠ []) (hplace : ∀ n ∈ place, IsPlain n) :
    endsWithSlash (rooted place) = false := by
  have hpieces : ∀ n ∈ place, IsPiece n := fun n hn => (hplace n hn).isPiece
  exact (endsWithSlash_append ['/'] (joined_ne_nil hne hpieces)).trans
    (endsWithSlash_joined hne hpieces)

/-- The text tells its slash, unless it is the root. -/
theorem written_endsWithSlash (hplace : ∀ n ∈ place, IsPlain n) (slash : Bool) :
    written place (endsWithSlash (written place slash).toList) = written place slash := by
  by_cases hne : place = []
  · subst hne
    simp [written]
  · cases slash with
    | false =>
      have hslash : endsWithSlash (written place false).toList = false := by
        rw [written_false, String.toList_ofList, endsWithSlash_rooted hne hplace]
      rw [hslash]
    | true =>
      have hslash : endsWithSlash (written place true).toList = true := by
        rw [written_true hne, String.toList_ofList, endsWithSlash_append _ (List.cons_ne_nil _ _)]
        rfl
      rw [hslash]

/-! ## Paths put together -/

/-- **A path behind the text of a place** leads on from there, and keeps its slash. -/
theorem join_written (hplace : ∀ n ∈ place, IsPlain n) (slash : Bool) (hrelative : relative ≠ "") :
    join [written place slash, relative] =
      written (walk place relative) (endsWithSlash relative.toList) := by
  have hpath : isAbsoluteChars (written place slash).toList = true := isAbsoluteChars_written _ _
  have hpathNe := ne_nil_of_isAbsoluteChars hpath
  have hrelativeNe : relative.toList ≠ [] := fun hnil => hrelative (String.toList_eq_nil_iff.1 hnil)
  have hparts : nonemptyParts [written place slash, relative] =
      [(written place slash).toList, relative.toList] := by
    simp [nonemptyParts, hpathNe, hrelativeNe]
  have hjoined : Text.joinWithChar '/' [(written place slash).toList, relative.toList] =
      (written place slash).toList ++ '/' :: relative.toList := rfl
  have habsolute :
      isAbsoluteChars ((written place slash).toList ++ '/' :: relative.toList) = true := by
    rw [isAbsoluteChars_append]
    exact isAbsoluteChars_slash hpath
  refine String.toList_inj.1 ?_
  rw [toList_join, hparts, hjoined, normalizeChars_eq_written habsolute,
    normalSegments_behind hpath, normalSegments_written hplace, List.append_cons,
    endsWithSlash_append _ hrelativeNe]

theorem join_written_nothing (hplace : ∀ n ∈ place, IsPlain n) (slash : Bool) :
    join [written place slash, ""] = written place slash := by
  have hpath : isAbsoluteChars (written place slash).toList = true := isAbsoluteChars_written _ _
  have hparts : nonemptyParts [written place slash, ""] = [(written place slash).toList] := by
    simp [nonemptyParts, ne_nil_of_isAbsoluteChars hpath]
  have hjoined : Text.joinWithChar '/' [(written place slash).toList] =
      (written place slash).toList := rfl
  refine String.toList_inj.1 ?_
  rw [toList_join, hparts, hjoined, normalizeChars_eq_written hpath, normalSegments_written hplace,
    written_endsWithSlash hplace]

theorem walk_name (place : List (List Char)) {name : List Char} (h : IsPlain name) :
    walk place (String.ofList name) = place ++ [name] := by
  obtain ⟨hempty, hdot, hdots, hslash⟩ := h
  rw [walk, String.toList_ofList, pieces_eq_singleton hslash, List.foldl_cons, List.foldl_nil, step,
    if_neg (not_or.2 ⟨hempty, hdot⟩), if_neg hdots]

/-- A name behind the text of a place. -/
theorem join_written_name (hplace : ∀ n ∈ place, IsPlain n) (slash : Bool) {name : List Char}
    (h : IsPlain name) :
    join [written place slash, String.ofList name] = written (place ++ [name]) false := by
  have hne : String.ofList name ≠ "" := fun hempty => h.1 (by simpa using hempty)
  have hslash : endsWithSlash name = false :=
    beq_false_of_ne fun heq => h.2.2.2 (List.mem_of_getLast? heq)
  rw [join_written hplace slash hne, walk_name place h, String.toList_ofList, hslash]

/-- **A path is resolved** to the place where it leads from that of its directory, or from the root
if it is absolute. -/
theorem resolve_eq_walk (hdirectory : isAbsolute directory = true) (relative : String) :
    resolve [directory, relative] =
      some (written (walk (if isAbsolute relative = true then [] else walk [] directory) relative)
        false) := by
  have hplain : ∀ n ∈ walk [] directory, IsPlain n := plain_walk (List.forall_mem_nil _) directory
  have hgoOn : goOn (walk [] directory) relative.toList =
      walk (if isAbsolute relative = true then [] else walk [] directory) relative := by
    have habsoluteChars : isAbsoluteChars relative.toList = isAbsolute relative := rfl
    rw [goOn, habsoluteChars]
    by_cases habsolute : isAbsolute relative = true
    · rw [if_pos habsolute, if_pos habsolute, normalSegments_eq_walk habsolute]
    · rw [if_neg habsolute, if_neg habsolute, foldl_keepSegment (fun _ => not_mem_of_mem_pieces)
          (fun n hn => hplain n (List.mem_reverse.1 hn)),
        List.reverse_reverse, List.reverse_reverse]
      rfl
  have hresolved := resolve_concat (resolve_singleton hdirectory) relative
  rw [normalSegments_eq_walk hdirectory, resolve_rooted hplain, hgoOn, ← written_false] at hresolved
  exact hresolved

/-! ## The paths around a place -/

/-- A slash at the end does not matter for the directory and the last name of an absolute path. -/
theorem dirname_slash (h : isAbsoluteChars path = true) :
    dirname (String.ofList (path ++ ['/'])) = dirname (String.ofList path) := by
  have hne : String.ofList path ≠ "" := fun hempty =>
    ne_nil_of_isAbsoluteChars h (by simpa using hempty)
  have hslash : String.ofList (path ++ ['/']) ≠ "" := by simp
  rw [dirname, dirname, if_neg hne, if_neg hslash, String.toList_ofList, String.toList_ofList,
    trimSlashes_slash h]

theorem basename_slash (h : isAbsoluteChars path = true) :
    basename (String.ofList (path ++ ['/'])) none = basename (String.ofList path) none := by
  rw [basename, basename, String.toList_ofList, String.toList_ofList, basenameChars, basenameChars,
    trimSlashes_slash h]

variable {name : List Char}

theorem dirname_written (place : List (List Char)) (h : IsPlain name) (slash : Bool) :
    dirname (written (place ++ [name]) slash) = written place false := by
  have hdirname := dirname_rooted place h
  cases slash with
  | false => rw [written_false, hdirname, written_false]
  | true =>
    rw [written_true (List.append_ne_nil_of_right_ne_nil _ (List.cons_ne_nil _ _)),
      dirname_slash rfl, hdirname, written_false]

theorem basename_written (place : List (List Char)) (h : IsPlain name) (slash : Bool) :
    basename (written (place ++ [name]) slash) none = String.ofList name := by
  have hbasename := basename_rooted place h
  cases slash with
  | false => rw [written_false, hbasename]
  | true =>
    rw [written_true (List.append_ne_nil_of_right_ne_nil _ (List.cons_ne_nil _ _)),
      basename_slash rfl, hbasename]

/-- The path spells the place. -/
def Spells (path : String) (place : List (List Char)) : Prop :=
  (∀ n ∈ place, IsPlain n) ∧ ∃ slash, path = written place slash

/-- The directory of a place is another one. -/
theorem written_ne_dirname (hplace : ∀ n ∈ place ++ [name], IsPlain n) (slash : Bool) :
    written place false ≠ written (place ++ [name]) slash := by
  intro heq
  have hfront : ∀ n ∈ place, IsPlain n := fun n hn => hplace n (List.mem_append_left _ hn)
  have hnames := congrArg (fun path : String => normalSegments path.toList) heq
  rw [normalSegments_written hfront, normalSegments_written hplace] at hnames
  exact List.cons_ne_nil name [] (List.self_eq_append_right.1 hnames)

/-- A path and the paths around its directory. -/
theorem climb_concat (hplace : ∀ n ∈ place ++ [name], IsPlain n) (fuel : Nat) (slash : Bool) :
    climb (fuel + 1) (written (place ++ [name]) slash) =
      written (place ++ [name]) slash :: climb fuel (written place false) := by
  have hname : IsPlain name := hplace name (List.mem_append_right _ List.mem_cons_self)
  rw [climb, dirname_written place hname]
  exact if_neg (written_ne_dirname hplace slash)

theorem inits_reverse_concat (place : List (List Char)) (name : List Char) :
    (place ++ [name]).inits.reverse = (place ++ [name]) :: place.inits.reverse := by
  rw [List.inits_append]
  simp

theorem climb_written (hplace : ∀ n ∈ place, IsPlain n) {fuel : Nat} (hfuel : place.length ≤ fuel) :
    climb fuel (written place false) = place.inits.reverse.map (written · false) := by
  induction place using List.reverseRecOn generalizing fuel with
  | nil => cases fuel <;> rfl
  | append_singleton front name ih =>
    rw [List.length_append, List.length_singleton] at hfuel
    obtain ⟨fuel, rfl⟩ : ∃ less, fuel = less + 1 := ⟨fuel - 1, by omega⟩
    rw [climb_concat hplace, ih (fun n hn => hplace n (List.mem_append_left _ hn)) (by omega),
      inits_reverse_concat, List.map_cons]

theorem length_le_rooted (hplace : ∀ n ∈ place, IsPlain n) :
    place.length ≤ (rooted place).length := by
  induction place using List.reverseRecOn with
  | nil => exact Nat.zero_le _
  | append_singleton front name ih =>
    have hfront := ih fun n hn => hplace n (List.mem_append_left _ hn)
    rw [rooted_concat, List.length_append, List.length_append, List.length_cons]
    split
    · rename_i hnil
      rw [hnil]
      simp
    · simp only [List.length_cons, List.length_nil]
      omega

/-- **The paths around an absolute path** spell the beginnings of its place, the longest first. -/
theorem spells_ancestors (h : isAbsolute directory = true) :
    List.Forall₂ Spells (ancestors (normalize directory)) (walk [] directory).inits.reverse := by
  have hplain : ∀ n ∈ walk [] directory, IsPlain n := plain_walk (List.forall_mem_nil _) directory
  -- without a slash at the end, each path is the text of its place
  have hspells {place : List (List Char)} (hplace : ∀ n ∈ place, IsPlain n) :
      List.Forall₂ Spells (place.inits.reverse.map (written · false)) place.inits.reverse := by
    rw [List.forall₂_map_left_iff, List.forall₂_same]
    intro front hfront
    have hbegins : front <+: place := (List.mem_inits front place).1 (List.mem_reverse.1 hfront)
    exact ⟨fun n hn => hplace n (hbegins.subset hn), false, rfl⟩
  rw [normalize_eq_written h, ancestors]
  obtain hroot | ⟨front, name, hnames⟩ := List.eq_nil_or_concat' (walk [] directory)
  · rw [hroot]
    have hsame (slash : Bool) : written [] slash = written [] false := by simp [written]
    rw [hsame, climb_written (List.forall_mem_nil _) (Nat.zero_le _)]
    exact hspells (List.forall_mem_nil _)
  · rw [hnames] at hplain ⊢
    have hfront : ∀ n ∈ front, IsPlain n := fun n hn => hplain n (List.mem_append_left _ hn)
    -- each name has a character in the text, so the length of the text is enough fuel
    have hfuel (slash : Bool) : front.length ≤ (written (front ++ [name]) slash).length + 1 := by
      have hlength := length_le_rooted hplain
      rw [List.length_append, List.length_singleton] at hlength
      rw [written, ← String.length_toList, String.toList_ofList, List.length_append]
      omega
    rw [climb_concat hplain, climb_written hfront (hfuel _), inits_reverse_concat]
    exact .cons ⟨hplain, _, rfl⟩ (hspells hfront)

end ModuleAssets.Path
