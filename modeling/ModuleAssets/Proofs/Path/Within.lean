import ModuleAssets.Proofs.Path.Descending
import ModuleAssets.Proofs.Path.Relative
/-!
# Lying within — a beginning of the text, and a beginning of the segments

Whether a path lies within a directory is decided on the text: the path begins with the
directory's text, and that does not end in the middle of a name. Of a path that is worked
out, what stands before a slash has its first segments (`segments_prefix_of_isWithin`), and
the segments of a directory come back as such a beginning (`isWithin_of_prefix`). The way
between the two climbs exactly where the directory's segments are no beginning of the
path's (`climbs_iff`).
-/

namespace ModuleAssets.Path

variable {path base : String} {names front : List (List Char)}

/-! ## Segments -/

/-- The segments of a path as they are written. -/
def segments (path : String) : List (List Char) :=
  (pieces path.toList).filter (· ≠ [])

theorem segments_rooted (h : ∀ n ∈ names, IsPlain n) :
    segments (String.ofList (rooted names)) = names := by
  have hnames : names.filter (· ≠ []) = names :=
    List.filter_eq_self.2 fun n hn => decide_eq_true (h n hn).1
  rw [segments, String.toList_ofList, pieces_rooted h, List.filter_cons_of_neg (by simp)]
  split
  · rename_i hnil
    rw [hnil]
    rfl
  · exact hnames

/-- Slashes at the end add no segments. -/
theorem filter_pieces_slashes (cs : List Char) (slashes : Nat) :
    (pieces (cs ++ List.replicate slashes '/')).filter (· ≠ []) = (pieces cs).filter (· ≠ []) := by
  induction slashes with
  | zero => rw [List.replicate_zero, List.append_nil]
  | succ slashes ih =>
    have hempty : (pieces []).filter (· ≠ []) = [] := rfl
    rw [List.replicate_succ', ← List.append_assoc, pieces_append, List.filter_append, ih, hempty,
      List.append_nil]

/-- What is trimmed is some slashes at the end, or a path of slashes alone. -/
theorem trimSlashes_cases (path : List Char) :
    (∃ slashes, path = trimSlashes path ++ List.replicate slashes '/') ∨
      ∃ slashes, path = List.replicate slashes '/' ∧ trimSlashes path = ['/'] := by
  have hsplit := List.takeWhile_append_dropWhile (p := (· == '/')) (l := path.reverse)
  have htaken : path.reverse.takeWhile (· == '/') =
      List.replicate (path.reverse.takeWhile (· == '/')).length '/' :=
    List.eq_replicate_of_mem fun c hc =>
      beq_iff_eq.1 (List.all_eq_true.1 List.all_takeWhile c hc)
  have hpath := congrArg List.reverse hsplit
  rw [List.reverse_append, List.reverse_reverse, htaken, List.reverse_replicate] at hpath
  have htrimmed : trimSlashes path =
      if (path.reverse.dropWhile (· == '/')).reverse = [] ∧ isAbsoluteChars path = true then ['/']
      else (path.reverse.dropWhile (· == '/')).reverse := rfl
  by_cases hroot : (path.reverse.dropWhile (· == '/')).reverse = [] ∧ isAbsoluteChars path = true
  · rw [hroot.1, List.nil_append] at hpath
    exact .inr ⟨_, hpath.symm, htrimmed.trans (if_pos hroot)⟩
  · rw [htrimmed, if_neg hroot]
    exact .inl ⟨_, hpath.symm⟩

/-- To trim a path takes no segment away. -/
theorem segments_trimSlashes (path : String) :
    segments (String.ofList (trimSlashes path.toList)) = segments path := by
  rw [segments, segments, String.toList_ofList]
  obtain ⟨slashes, hpath⟩ | ⟨slashes, hpath, htrimmed⟩ := trimSlashes_cases path.toList
  · conv_rhs => rw [hpath]
    exact (filter_pieces_slashes _ slashes).symm
  · have hslashes := filter_pieces_slashes [] slashes
    rw [List.nil_append] at hslashes
    rw [htrimmed, hpath, hslashes]
    rfl

/-- What one slash at the end of an absolute path does not change, several do not change. -/
theorem eq_of_slashes {α : Type} {f : List Char → α} {path : List Char}
    (hf : ∀ cs, isAbsoluteChars cs = true → f (cs ++ ['/']) = f cs)
    (h : isAbsoluteChars path = true) (slashes : Nat) :
    f (path ++ List.replicate slashes '/') = f path := by
  induction slashes with
  | zero => rw [List.replicate_zero, List.append_nil]
  | succ slashes ih =>
    have habsolute : isAbsoluteChars (path ++ List.replicate slashes '/') = true := by
      obtain ⟨c, rest, rfl⟩ := List.exists_cons_of_ne_nil (ne_nil_of_isAbsoluteChars h)
      exact h
    rw [List.replicate_succ', ← List.append_assoc, hf _ habsolute, ih]

/-! ## Within a directory -/

/-- What lies within a directory goes on after it with a slash, if at all. -/
theorem isWithin_iff :
    isWithin path base = true ↔ ∃ rest, path.toList = trimSlashes base.toList ++ rest ∧
      (rest = [] ∨ isAbsoluteChars rest = true ∨ trimSlashes base.toList = ['/']) := by
  unfold isWithin
  dsimp only
  constructor
  · intro h
    split at h
    · rename_i rest hrest
      refine ⟨rest, Text.dropPrefix?_eq_some.1 hrest, ?_⟩
      simpa [or_assoc] using h
    · cases h
  · rintro ⟨rest, hpath, hends⟩
    rw [Text.dropPrefix?_eq_some.2 hpath]
    simpa [or_assoc] using hends

/-- **What lies within a directory begins with its segments,** however these are written. -/
theorem segments_prefix_of_isWithin (hnames : ∀ n ∈ names, IsPlain n)
    (h : isWithin (String.ofList (rooted names)) base = true) : segments base <+: names := by
  obtain ⟨rest, hpath, hends⟩ := isWithin_iff.1 h
  rw [String.toList_ofList] at hpath
  rw [← segments_trimSlashes base, segments, String.toList_ofList]
  have hself : (pieces (rooted names)).filter (· ≠ []) = names := by
    have hsegments := segments_rooted hnames
    rwa [segments, String.toList_ofList] at hsegments
  -- the path is the directory itself, or a slash follows, or the directory is the root
  obtain rfl | habsolute | hroot := hends
  · rw [List.append_nil] at hpath
    rw [← hpath, hself]
  · obtain ⟨c, back, rfl⟩ := List.exists_cons_of_ne_nil (ne_nil_of_isAbsoluteChars habsolute)
    obtain rfl : c = '/' := beq_iff_eq.1 habsolute
    rw [hpath, pieces_append, List.filter_append] at hself
    exact ⟨_, hself⟩
  · rw [hroot]
    exact List.nil_prefix

theorem rooted_append {more : List (List Char)} (hfront : front ≠ []) (hmore : more ≠ []) :
    rooted (front ++ more) = rooted front ++ '/' :: Text.joinWithChar '/' more := by
  rw [rooted, joined_append hfront hmore]
  rfl

/-- **What begins with the segments of a directory lies within it.** -/
theorem isWithin_of_prefix (hbase : trimSlashes base.toList = rooted front) (h : front <+: names) :
    isWithin (String.ofList (rooted names)) base = true := by
  obtain ⟨more, rfl⟩ := h
  rw [isWithin_iff, hbase, String.toList_ofList]
  by_cases hroot : front = []
  · rw [hroot]
    exact ⟨Text.joinWithChar '/' more, rfl, .inr (.inr rfl)⟩
  by_cases hsame : more = []
  · rw [hsame, List.append_nil]
    exact ⟨[], (List.append_nil _).symm, .inl rfl⟩
  · exact ⟨_, rooted_append hroot hsame, .inr (.inl rfl)⟩

/-! ## The way from a directory -/

theorem dropShared_eq_nil_iff {α : Type} [DecidableEq α] {xs ys : List α} :
    (dropShared xs ys).1 = [] ↔ xs <+: ys := by
  induction xs generalizing ys with
  | nil => cases ys <;> exact iff_of_true rfl List.nil_prefix
  | cons x xs ih =>
    cases ys with
    | nil => exact iff_of_false (List.cons_ne_nil _ _) fun h => nomatch List.prefix_nil.1 h
    | cons y ys =>
      rw [dropShared, List.cons_prefix_cons]
      by_cases hsame : x = y
      · rw [if_pos hsame, ih, and_iff_right hsame]
      · rw [if_neg hsame]
        exact iff_of_false (List.cons_ne_nil _ _) fun h => hsame h.1

/-- The first segment of a path, if it has one. -/
def firstSegment? (path : String) : Option (List Char) :=
  (pieces path.toList).head?

/-- **The way does not climb exactly if there is nothing to go up.** -/
theorem climbs_iff {up down : List (List Char)} (hdown : ∀ n ∈ down, IsPlain n) :
    String.ofList (Text.joinWithChar '/' (upAndDown up down)) = "" ∨
        firstSegment? (String.ofList (Text.joinWithChar '/' (upAndDown up down))) ≠
          some ['.', '.'] ↔
      up = [] := by
  have hpieces : ∀ n ∈ upAndDown up down, IsPiece n := isPiece_upAndDown hdown
  by_cases hnone : upAndDown up down = []
  · have hup : up = [] := by
      obtain ⟨hreplicate, -⟩ := List.append_eq_nil_iff.1 hnone
      exact List.length_eq_zero_iff.1 ((List.replicate_eq_nil_iff _).1 hreplicate)
    rw [hnone]
    exact iff_of_true (.inl rfl) hup
  have hway : String.ofList (Text.joinWithChar '/' (upAndDown up down)) ≠ "" := fun hempty =>
    joined_ne_nil hnone hpieces (by simpa using hempty)
  rw [firstSegment?, String.toList_ofList, pieces_joined hnone fun n hn => (hpieces n hn).2,
    or_iff_right hway]
  cases up with
  | nil =>
    -- the way begins with a name, and no name is a step up
    refine iff_of_true (fun hfirst => ?_) rfl
    exact (hdown _ (List.mem_of_head? hfirst)).2.2.1 rfl
  | cons name rest => exact iff_of_false (fun hfirst => hfirst rfl) (List.cons_ne_nil _ _)

/-- The way between two paths, by the segments that they do not share. -/
theorem relative_eq_upAndDown {start target : String} (hstart : isAbsolute start = true)
    (htarget : isAbsolute target = true) :
    relative start target = some (String.ofList (Text.joinWithChar '/'
      (upAndDown (dropShared (normalSegments start.toList) (normalSegments target.toList)).1
        (dropShared (normalSegments start.toList) (normalSegments target.toList)).2))) := by
  rw [relative, if_pos (by rw [hstart, htarget]; rfl)]
  dsimp only
  rw [segments_of_absolute hstart, segments_of_absolute htarget, List.map_const']
  rfl

/-! ## Main statement -/

/-- **Lying within is a beginning of segments,** for paths that are worked out, with any number
of slashes after the directory. Then, and only then, the way from the directory to the path is
empty or does not begin with a step up. -/
theorem isWithin_iff_segments_prefix (hpath : ∃ segments, resolve segments = some path)
    (hbase : ∃ segments, resolve segments = some base) (slashes : Nat) :
    let directory := base ++ String.ofList (List.replicate slashes '/')
    (isWithin path directory = true ↔ segments directory <+: segments path) ∧
      ∃ way, relative directory path = some way ∧
        (isWithin path directory = true ↔ way = "" ∨ firstSegment? way ≠ some ['.', '.']) := by
  intro directory
  obtain ⟨_, hpath⟩ := hpath
  obtain ⟨_, hbase⟩ := hbase
  obtain ⟨names, hnames, rfl⟩ := exists_rooted_of_resolve hpath
  obtain ⟨front, hfront, rfl⟩ := exists_rooted_of_resolve hbase
  have hdirectory : directory.toList = rooted front ++ List.replicate slashes '/' := by
    rw [String.toList_append, String.toList_ofList, String.toList_ofList]
  have htrimmed : trimSlashes directory.toList = rooted front := by
    rw [hdirectory, eq_of_slashes (fun _ => trimSlashes_slash) rfl, trimSlashes_rooted hfront]
  have hsegments : segments directory = front := by
    rw [← segments_trimSlashes, htrimmed, segments_rooted hfront]
  have hwithin : isWithin (String.ofList (rooted names)) directory = true ↔ front <+: names :=
    ⟨fun h => hsegments ▸ segments_prefix_of_isWithin hnames h, isWithin_of_prefix htrimmed⟩
  rw [hsegments, segments_rooted hnames]
  refine ⟨hwithin, ?_⟩
  have habsolute (cs : List Char) (h : isAbsoluteChars cs = true) :
      isAbsolute (String.ofList cs) = true := by
    rwa [isAbsolute, String.toList_ofList]
  have hstart : isAbsolute directory = true := by
    rw [isAbsolute, hdirectory]
    rfl
  have hnormal : normalSegments directory.toList = front := by
    rw [hdirectory, eq_of_slashes (fun _ => normalSegments_slash) rfl, normalSegments_rooted hfront]
  refine ⟨_, relative_eq_upAndDown hstart (habsolute _ rfl), ?_⟩
  rw [String.toList_ofList, hnormal, normalSegments_rooted hnames, hwithin]
  obtain ⟨shared, -, hdown⟩ := exists_shared front names
  rw [climbs_iff fun n hn => hnames n (hdown ▸ List.mem_append_right _ hn), dropShared_eq_nil_iff]

/-- A name that begins with two dots lies within, and what only begins with the directory's text
does not. -/
theorem isWithin_iff_segments_prefix_dots :
    (∃ segments, resolve segments = some "/p/a/..b") ∧
      (∃ segments, resolve segments = some "/p/a") ∧
      isWithin "/p/a/..b" "/p/a//" = true ∧ segments "/p/a//" <+: segments "/p/a/..b" ∧
      relative "/p/a//" "/p/a/..b" = some "..b" ∧
      ("..b" = "" ∨ firstSegment? "..b" ≠ some ['.', '.']) ∧
      isWithin "/p/a..b" "/p/a//" = false := by
  have hpath : ∃ segments, resolve segments = some "/p/a/..b" :=
    ⟨["/p/x/../a/", "..b/"], by decide +kernel⟩
  have hbase : ∃ segments, resolve segments = some "/p/a" := ⟨["/p", "./a"], by decide +kernel⟩
  have hwithin : isWithin "/p/a/..b" "/p/a//" = true := by decide +kernel
  have hrelative : relative "/p/a//" "/p/a/..b" = some "..b" := by decide +kernel
  obtain ⟨hsegments, way, hway, hclimbs⟩ := isWithin_iff_segments_prefix hpath hbase 2
  obtain rfl : way = "..b" := Option.some.inj (hway.symm.trans hrelative)
  exact ⟨hpath, hbase, hwithin, hsegments.1 hwithin, hrelative, hclimbs.1 hwithin,
    by decide +kernel⟩

end ModuleAssets.Path
