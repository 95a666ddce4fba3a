import ModuleAssets.Proofs.Path.Rooted
/-!
# Normal paths — working out a path part by part

What is left of a path once its steps are worked out is a run of steps up and behind it names,
and the run is empty below the root (`worksOut_normalSegments`). The invariant is on the
segments kept so far. Such segments stay as they are when they are worked out again, so that
a path can be replaced by its normal form wherever more of a path comes behind it
(`normalizeChars_front`): this is what lets segments be joined two at a time.
-/

namespace ModuleAssets.Path

variable {absolute : Bool} {kept segments : List (List Char)} {piece path front back : List Char}

/-! ## Segments that are worked out -/

/-- Steps up come first and names behind them. Below the root there are no steps up. -/
def WorksOut (absolute : Bool) (segments : List (List Char)) : Prop :=
  ∃ ups names, segments = List.replicate ups ['.', '.'] ++ names ∧ (∀ n ∈ names, IsPlain n) ∧
    (absolute = true → ups = 0)

theorem WorksOut.isPiece (h : WorksOut absolute segments) : ∀ s ∈ segments, IsPiece s := by
  obtain ⟨ups, names, rfl, hplain, -⟩ := h
  intro s hs
  rcases List.mem_append.1 hs with hup | hname
  · rw [List.eq_of_mem_replicate hup]
    exact ⟨by decide, by decide⟩
  · exact (hplain s hname).isPiece

/-- One more step up. It takes the last name away, and where there is none it is kept
unless the root is reached. -/
theorem WorksOut.keepUp (h : WorksOut absolute kept.reverse) :
    WorksOut absolute (keepSegment absolute kept ['.', '.']).reverse := by
  obtain ⟨ups, names, hkept, hplain, hroot⟩ := h
  rw [List.reverse_eq_iff] at hkept
  unfold keepSegment
  rw [if_neg (by decide), if_pos rfl]
  rcases List.eq_nil_or_concat' names with rfl | ⟨front, last, rfl⟩
  · -- only steps up are kept
    rw [List.append_nil, List.reverse_replicate] at hkept
    cases ups with
    | zero =>
      rw [hkept]
      cases habsolute : absolute with
      | true => exact ⟨0, [], rfl, List.forall_mem_nil _, fun _ => rfl⟩
      | false => exact ⟨1, [], rfl, List.forall_mem_nil _, fun h => by cases h⟩
    | succ ups =>
      have hup : (['.', '.'] :: kept).reverse = List.replicate (ups + 2) ['.', '.'] ++ [] := by
        rw [hkept, ← List.replicate_succ, List.reverse_replicate, List.append_nil]
      have hfalse : absolute ≠ true := fun habsolute => Nat.succ_ne_zero ups (hroot habsolute)
      rw [hkept, List.replicate_succ] at hup ⊢
      exact ⟨ups + 2, [], hup, List.forall_mem_nil _, fun habsolute => absurd habsolute hfalse⟩
  · -- the last segment kept is a name
    have hlast : IsPlain last := hplain last (List.mem_append_right _ List.mem_cons_self)
    rw [← List.append_assoc, List.reverse_concat] at hkept
    rw [hkept]
    dsimp only
    rw [if_neg hlast.2.2.1, List.reverse_reverse]
    exact ⟨ups, front, rfl, fun n hn => hplain n (List.mem_append_left _ hn), hroot⟩

/-- One more piece. -/
theorem WorksOut.keepSegment (h : WorksOut absolute kept.reverse) (hpiece : '/' ∉ piece) :
    WorksOut absolute (keepSegment absolute kept piece).reverse := by
  by_cases hidle : piece = [] ∨ piece = ['.']
  · unfold Path.keepSegment
    rw [if_pos hidle]
    exact h
  by_cases hup : piece = ['.', '.']
  · rw [hup]
    exact h.keepUp
  · obtain ⟨hempty, hdot⟩ := not_or.1 hidle
    have hplain : IsPlain piece := ⟨hempty, hdot, hup, hpiece⟩
    obtain ⟨ups, names, hkept, hnames, hroot⟩ := h
    refine ⟨ups, names ++ [piece], ?_, ?_, hroot⟩
    · rw [keepSegment_plain hplain, List.reverse_cons, hkept, List.append_assoc]
    · intro n hn
      rcases List.mem_append.1 hn with hn | hn
      · exact hnames n hn
      · rw [List.mem_singleton.1 hn]
        exact hplain

/-- **What is left of a path is worked out.** The induction is on the pieces, from the first
on. -/
theorem worksOut_normalSegments (path : List Char) :
    WorksOut (isAbsoluteChars path) (normalSegments path) := by
  have hfold (steps : List (List Char)) (hsteps : ∀ s ∈ steps, '/' ∉ s) :
      ∀ kept : List (List Char), WorksOut (isAbsoluteChars path) kept.reverse →
        WorksOut (isAbsoluteChars path)
          (steps.foldl (Path.keepSegment (isAbsoluteChars path)) kept).reverse := by
    induction steps with
    | nil => exact fun kept h => h
    | cons s rest ih =>
      intro kept h
      exact ih (fun r hr => hsteps r (List.mem_cons_of_mem _ hr)) _
        (h.keepSegment (hsteps s List.mem_cons_self))
  exact hfold (pieces path) (fun _ => not_mem_of_mem_pieces) []
    ⟨0, [], rfl, List.forall_mem_nil _, fun _ => rfl⟩

theorem foldl_ups {ups : Nat} (h : absolute = true → ups = 0) :
    (List.replicate ups ['.', '.']).foldl (keepSegment absolute) [] =
      List.replicate ups ['.', '.'] := by
  induction ups with
  | zero => rfl
  | succ ups ih =>
    obtain rfl : absolute = false := Bool.eq_false_iff.2 fun habsolute => by
      have := h habsolute
      omega
    rw [List.replicate_succ', List.foldl_append, ih nofun, ← List.replicate_succ']
    cases ups with
    | zero => rfl
    | succ ups => rfl

/-- **Nothing changes when they are worked out again.** -/
theorem WorksOut.foldl (h : WorksOut absolute segments) :
    (segments.foldl (Path.keepSegment absolute) []).reverse = segments := by
  obtain ⟨ups, names, rfl, hplain, hroot⟩ := h
  rw [List.foldl_append, foldl_ups hroot, foldl_plain hplain, List.reverse_append,
    List.reverse_reverse, List.reverse_replicate]

/-! ## The normal form of a path -/

/-- The segments that are left, put together again. -/
def body (path : List Char) : List Char :=
  if isAbsoluteChars path then rooted (normalSegments path)
  else Text.joinWithChar '/' (normalSegments path)

theorem body_eq_nil_iff :
    body path = [] ↔ isAbsoluteChars path = false ∧ normalSegments path = [] := by
  have hpieces := (worksOut_normalSegments path).isPiece
  rw [body]
  split
  · rename_i habsolute
    simp [rooted, habsolute]
  · rename_i hrelative
    refine ⟨fun hnil => ⟨by simpa using hrelative, ?_⟩, fun h => by rw [h.2]; rfl⟩
    by_contra hne
    exact joined_ne_nil hne hpieces hnil

theorem isAbsoluteChars_body : isAbsoluteChars (body path) = isAbsoluteChars path := by
  rw [body]
  split
  · rename_i habsolute
    exact habsolute.symm
  · rename_i hrelative
    rw [isAbsoluteChars_joined (worksOut_normalSegments path).isPiece]
    simpa using hrelative

theorem normalSegments_body : normalSegments (body path) = normalSegments path := by
  have hworked := worksOut_normalSegments path
  by_cases habsolute : isAbsoluteChars path = true
  · rw [body, if_pos habsolute, normalSegments_rooted (plain_normalSegments habsolute)]
  · have hrelative : isAbsoluteChars (body path) = false := by
      rw [isAbsoluteChars_body]
      simpa using habsolute
    rw [show isAbsoluteChars path = false by simpa using habsolute] at hworked
    by_cases hnil : normalSegments path = []
    · rw [body, if_neg habsolute, hnil]
      rfl
    · have hpieces : pieces (body path) = normalSegments path := by
        rw [body, if_neg habsolute]
        exact pieces_joined hnil fun s hs => (hworked.isPiece s hs).2
      rw [normalSegments, hpieces, hrelative]
      exact hworked.foldl

/-- Only of the root a slash stands at the end. -/
theorem endsWithSlash_body (h : body path ≠ ['/']) : endsWithSlash (body path) = false := by
  have hpieces := (worksOut_normalSegments path).isPiece
  rw [body] at h ⊢
  by_cases hnil : normalSegments path = []
  · rw [hnil] at h ⊢
    split at h
    · exact absurd rfl h
    · rename_i hrelative
      rw [if_neg hrelative]
      rfl
  · have hjoined := endsWithSlash_joined hnil hpieces
    split
    · rw [rooted, ← List.singleton_append, endsWithSlash_append _ (joined_ne_nil hnil hpieces)]
      exact hjoined
    · exact hjoined

/-- **The four forms of a path that is worked out:** nothing is left of it, with or without a
slash at its end, or something is, and the slash stays unless the root alone is left. -/
theorem normalizeChars_cases (path : List Char) :
    (body path = [] ∧ endsWithSlash path = true ∧ normalizeChars path = ['.', '/']) ∨
      (body path = [] ∧ endsWithSlash path = false ∧ normalizeChars path = ['.']) ∨
      (body path ≠ [] ∧ body path ≠ ['/'] ∧ endsWithSlash path = true ∧
        normalizeChars path = body path ++ ['/']) ∨
      (body path ≠ [] ∧ (body path ≠ ['/'] → endsWithSlash path = false) ∧
        normalizeChars path = body path) := by
  by_cases hempty : path = []
  · subst hempty
    exact .inr (.inl ⟨rfl, rfl, rfl⟩)
  have hform : normalizeChars path =
      if body path = [] then (if endsWithSlash path then ['.', '/'] else ['.'])
      else if endsWithSlash path ∧ body path ≠ ['/'] then body path ++ ['/']
      else body path := by
    rw [normalizeChars, if_neg hempty]
    rfl
  rw [hform]
  by_cases hnil : body path = []
  · cases hslash : endsWithSlash path with
    | true => exact .inl ⟨hnil, rfl, by rw [if_pos hnil, if_pos rfl]⟩
    | false => exact .inr (.inl ⟨hnil, rfl, by rw [if_pos hnil, if_neg Bool.false_ne_true]⟩)
  · rw [if_neg hnil]
    by_cases hkeeps : endsWithSlash path = true ∧ body path ≠ ['/']
    · exact .inr (.inr (.inl ⟨hnil, hkeeps.2, hkeeps.1, if_pos hkeeps⟩))
    · refine .inr (.inr (.inr ⟨hnil, fun hroot => ?_, if_neg hkeeps⟩))
      by_contra hslash
      exact hkeeps ⟨by simpa using hslash, hroot⟩

theorem normalizeChars_ne_nil (path : List Char) : normalizeChars path ≠ [] := by
  rcases normalizeChars_cases path with ⟨-, -, h⟩ | ⟨-, -, h⟩ | ⟨-, -, -, h⟩ | ⟨hne, -, h⟩
  · rw [h]; exact List.cons_ne_nil _ _
  · rw [h]; exact List.cons_ne_nil _ _
  · rw [h]; exact List.append_ne_nil_of_right_ne_nil _ (List.cons_ne_nil _ _)
  · rw [h]; exact hne

theorem isAbsoluteChars_normalizeChars (path : List Char) :
    isAbsoluteChars (normalizeChars path) = isAbsoluteChars path := by
  rcases normalizeChars_cases path with ⟨hnil, -, h⟩ | ⟨hnil, -, h⟩ | ⟨hne, -, -, h⟩ | ⟨-, -, h⟩
  · rw [h, (body_eq_nil_iff.1 hnil).1]; rfl
  · rw [h, (body_eq_nil_iff.1 hnil).1]; rfl
  · rw [h, isAbsoluteChars_concat hne, isAbsoluteChars_body]
  · rw [h, isAbsoluteChars_body]

theorem normalSegments_normalizeChars (path : List Char) :
    normalSegments (normalizeChars path) = normalSegments path := by
  rcases normalizeChars_cases path with ⟨hnil, -, h⟩ | ⟨hnil, -, h⟩ | ⟨hne, -, -, h⟩ | ⟨-, -, h⟩
  · rw [h, (body_eq_nil_iff.1 hnil).2]; rfl
  · rw [h, (body_eq_nil_iff.1 hnil).2]; rfl
  · rw [h, normalSegments_concat hne, normalSegments_body]
  · rw [h, normalSegments_body]

theorem endsWithSlash_normalizeChars (h : normalizeChars path ≠ ['/']) :
    endsWithSlash (normalizeChars path) = endsWithSlash path := by
  rcases normalizeChars_cases path with
    ⟨-, hslash, hout⟩ | ⟨-, hslash, hout⟩ | ⟨-, -, hslash, hout⟩ | ⟨-, hslash, hout⟩
  · rw [hout, hslash]; rfl
  · rw [hout, hslash]; rfl
  · rw [hout, hslash, endsWithSlash_append _ (List.cons_ne_nil _ _)]; rfl
  · rw [hout] at h ⊢
    rw [hslash h, endsWithSlash_body h]

/-- The root alone is left of an absolute path without segments. -/
theorem normalizeChars_eq_root_iff :
    normalizeChars path = ['/'] ↔ isAbsoluteChars path = true ∧ normalSegments path = [] := by
  constructor
  · intro hroot
    rw [← isAbsoluteChars_normalizeChars, ← normalSegments_normalizeChars, hroot]
    exact ⟨rfl, rfl⟩
  · rintro ⟨habsolute, hnil⟩
    have hbody : body path = ['/'] := by
      rw [body, if_pos habsolute, hnil]
      rfl
    rcases normalizeChars_cases path with ⟨hempty, -⟩ | ⟨hempty, -⟩ | ⟨-, hne, -⟩ | ⟨-, -, hout⟩
    · rw [hbody] at hempty; cases hempty
    · rw [hbody] at hempty; cases hempty
    · exact absurd hbody hne
    · rw [hout, hbody]

/-- **A path that is worked out is not changed by working it out again.** -/
theorem normalizeChars_normalizeChars (path : List Char) :
    normalizeChars (normalizeChars path) = normalizeChars path := by
  by_cases hroot : normalizeChars path = ['/']
  · rw [hroot]
    rfl
  by_cases hempty : path = []
  · subst hempty
    rfl
  · exact normalizeChars_congr (normalizeChars_ne_nil path) hempty
      (isAbsoluteChars_normalizeChars path) (normalSegments_normalizeChars path)
      (endsWithSlash_normalizeChars hroot)

/-- **What stands before a slash may be worked out first.** -/
theorem normalizeChars_front (h : front ≠ []) (back : List Char) :
    normalizeChars (normalizeChars front ++ '/' :: back) =
      normalizeChars (front ++ '/' :: back) := by
  have hne := normalizeChars_ne_nil front
  have habsolute : isAbsoluteChars (normalizeChars front ++ ['/']) =
      isAbsoluteChars (front ++ ['/']) := by
    rw [isAbsoluteChars_concat hne, isAbsoluteChars_concat h, isAbsoluteChars_normalizeChars]
  refine normalizeChars_congr (by simp) (by simp) ?_ ?_ ?_
  · rw [isAbsoluteChars_append, habsolute, ← isAbsoluteChars_append front back]
  · rw [normalSegments_append, normalSegments_append front back, habsolute,
      normalSegments_concat hne, normalSegments_concat h, normalSegments_normalizeChars]
  · rw [endsWithSlash_append _ (List.cons_ne_nil _ _),
      endsWithSlash_append _ (List.cons_ne_nil _ _)]

/-- The segments of what is worked out are those that are left. Where none is left of a
relative path, a step that leads nowhere stands for them. -/
theorem segments_normalizeChars (path : List Char) :
    (pieces (normalizeChars path)).filter (· ≠ []) =
      if body path = [] then [['.']] else normalSegments path := by
  have hpieces := (worksOut_normalSegments path).isPiece
  have hall : (normalSegments path).filter (· ≠ []) = normalSegments path :=
    List.filter_eq_self.2 fun s hs => decide_eq_true (hpieces s hs).1
  have hbody (hne : body path ≠ []) :
      (pieces (body path)).filter (· ≠ []) = normalSegments path := by
    by_cases habsolute : isAbsoluteChars path = true
    · rw [body, if_pos habsolute, pieces_rooted (plain_normalSegments habsolute)]
      by_cases hnil : normalSegments path = []
      · rw [hnil]
        rfl
      · rw [if_neg hnil, List.filter_cons_of_neg (by simp), hall]
    · have hnil : normalSegments path ≠ [] := fun hnil =>
        hne (body_eq_nil_iff.2 ⟨by simpa using habsolute, hnil⟩)
      rw [body, if_neg habsolute, pieces_joined hnil fun s hs => (hpieces s hs).2, hall]
  rcases normalizeChars_cases path with ⟨hnil, -, h⟩ | ⟨hnil, -, h⟩ | ⟨hne, -, -, h⟩ | ⟨hne, -, h⟩
  · rw [h, if_pos hnil]; rfl
  · rw [h, if_pos hnil]; rfl
  · have hlast : (pieces []).filter (· ≠ []) = [] := rfl
    rw [h, if_neg hne, pieces_append, List.filter_append, hbody hne, hlast, List.append_nil]
  · rw [h, if_neg hne, hbody hne]

theorem segments_of_absolute (h : isAbsoluteChars path = true) :
    (pieces (normalizeChars path)).filter (· ≠ []) = normalSegments path := by
  have hbody : body path ≠ [] := fun hnil => by
    rw [(body_eq_nil_iff.1 hnil).1] at h
    cases h
  rw [segments_normalizeChars, if_neg hbody]

/-! ## Segments put together -/

theorem joined_ne_nil_of_ne {parts : List (List Char)} (hne : parts ≠ [])
    (h : ∀ part ∈ parts, part ≠ []) : Text.joinWithChar '/' parts ≠ [] := by
  obtain ⟨first, rest, rfl⟩ := List.exists_cons_of_ne_nil hne
  have hfirst : first ≠ [] := h first List.mem_cons_self
  cases rest with
  | nil => exact hfirst
  | cons next rest => exact List.append_ne_nil_of_left_ne_nil hfirst _

/-- The segments that are no empty texts. -/
def nonemptyParts (segments : List String) : List (List Char) :=
  (segments.map String.toList).filter (· ≠ [])

theorem toList_join (segments : List String) :
    (join segments).toList = normalizeChars (Text.joinWithChar '/' (nonemptyParts segments)) := by
  rw [join]
  split
  · rename_i hnone
    rw [nonemptyParts, hnone]
    rfl
  · exact String.toList_ofList

theorem nonemptyParts_append (segments rest : List String) :
    nonemptyParts (segments ++ rest) = nonemptyParts segments ++ nonemptyParts rest := by
  rw [nonemptyParts, List.map_append, List.filter_append]
  rfl

theorem nonemptyParts_join (segments rest : List String) :
    nonemptyParts (join segments :: rest) = (join segments).toList :: nonemptyParts rest := by
  have hne : (join segments).toList ≠ [] := toList_join segments ▸ normalizeChars_ne_nil _
  rw [nonemptyParts, List.map_cons, List.filter_cons_of_pos (by simpa using hne)]
  rfl

/-- **Some of the segments may be joined first,** unless they are all empty. -/
theorem join_append {segments : List String} (h : ∃ s ∈ segments, s ≠ "") (rest : List String) :
    join (segments ++ rest) = join (join segments :: rest) := by
  have hne : nonemptyParts segments ≠ [] := by
    obtain ⟨s, hs, hempty⟩ := h
    have hpart : s.toList ≠ [] := fun hnil => hempty (String.toList_eq_nil_iff.1 hnil)
    exact List.ne_nil_of_mem (List.mem_filter.2 ⟨List.mem_map_of_mem hs, by simpa using hpart⟩)
  have hfront : Text.joinWithChar '/' (nonemptyParts segments) ≠ [] :=
    joined_ne_nil_of_ne hne fun part hpart => by simpa using (List.mem_filter.1 hpart).2
  refine String.toList_inj.1 ?_
  rw [toList_join, toList_join, nonemptyParts_append, nonemptyParts_join, toList_join]
  by_cases hnone : nonemptyParts rest = []
  · rw [hnone, List.append_nil]
    exact (normalizeChars_normalizeChars _).symm
  · have hbehind (part : List Char) : Text.joinWithChar '/' (part :: nonemptyParts rest) =
        part ++ '/' :: Text.joinWithChar '/' (nonemptyParts rest) :=
      joined_append (List.cons_ne_nil part []) hnone
    rw [joined_append hne hnone, hbehind, normalizeChars_front hfront]

/-! ## Main statement -/

/-- What a path is like once it is worked out. -/
structure WorkedOut (path out : String) : Prop where
  nonempty : out ≠ ""
  absolute : isAbsolute out = isAbsolute path
  /-- Steps up come first and nowhere else, and only in a relative path. -/
  ups : ∃ ups rest, (pieces out.toList).filter (· ≠ []) = List.replicate ups ['.', '.'] ++ rest ∧
    ['.', '.'] ∉ rest ∧ (isAbsolute path = true → ups = 0)
  /-- The root is what is left of an absolute path without segments. -/
  root : out = "/" ↔ isAbsolute path = true ∧ normalSegments path.toList = []
  /-- Of all else a slash at the end stays, and none is added. -/
  slash : out ≠ "/" → endsWithSlash out.toList = endsWithSlash path.toList
  /-- Of a relative path without segments a step that leads nowhere is left. -/
  emptied : isAbsolute path = false → normalSegments path.toList = [] →
    out = if endsWithSlash path.toList then "./" else "."

theorem workedOut_normalize (path : String) : WorkedOut path (normalize path) where
  nonempty := by
    rw [normalize, ne_eq, ← String.toList_eq_nil_iff, String.toList_ofList]
    exact normalizeChars_ne_nil _
  absolute := by
    rw [isAbsolute, normalize, String.toList_ofList]
    exact isAbsoluteChars_normalizeChars _
  ups := by
    rw [normalize, String.toList_ofList, segments_normalizeChars]
    split
    · exact ⟨0, [['.']], rfl, by decide, fun _ => rfl⟩
    · obtain ⟨ups, names, hsegments, hplain, hroot⟩ := worksOut_normalSegments path.toList
      exact ⟨ups, names, hsegments, fun hmem => (hplain _ hmem).2.2.1 rfl, hroot⟩
  root := by
    rw [normalize, ← String.toList_inj, String.toList_ofList]
    exact normalizeChars_eq_root_iff
  slash := by
    intro h
    rw [normalize, String.toList_ofList]
    refine endsWithSlash_normalizeChars fun hroot => h ?_
    rw [normalize, hroot]
  emptied := by
    intro hrelative hnil
    have hbody : body path.toList = [] := body_eq_nil_iff.2 ⟨hrelative, hnil⟩
    rw [normalize]
    rcases normalizeChars_cases path.toList with
      ⟨-, hslash, h⟩ | ⟨-, hslash, h⟩ | ⟨hne, -⟩ | ⟨hne, -⟩
    · rw [h, hslash]; rfl
    · rw [h, hslash]; rfl
    · exact absurd hbody hne
    · exact absurd hbody hne

/-- **Working out is a congruence.** A path may be worked out as often as one likes, whole or
before more of it comes, and segments may be joined two at a time, unless the first two are
both empty. -/
theorem normalize_congruence :
    (∀ path, normalize (normalize path) = normalize path) ∧
      (∀ front back, front ≠ "" →
        normalize (front ++ "/" ++ back) = normalize (normalize front ++ "/" ++ back)) ∧
      (∀ first second rest, first ≠ "" ∨ second ≠ "" →
        join (first :: second :: rest) = join (join [first, second] :: rest)) ∧
      ∀ path, WorkedOut path (normalize path) := by
  refine ⟨fun path => ?_, fun front back hne => ?_, fun first second rest hne => ?_,
    workedOut_normalize⟩
  · rw [normalize, normalize, String.toList_ofList, normalizeChars_normalizeChars]
  · have hfront : front.toList ≠ [] := fun hnil => hne (String.toList_eq_nil_iff.1 hnil)
    have hbehind (path : String) :
        (path ++ "/" ++ back).toList = path.toList ++ '/' :: back.toList := by
      rw [String.toList_append, String.toList_append]
      exact List.append_assoc _ _ _
    have hprefix := (normalizeChars_front hfront back.toList).symm
    rw [normalize, hbehind, hprefix, normalize, hbehind, normalize, String.toList_ofList]
  · have hsome : ∃ s ∈ [first, second], s ≠ "" := by
      rcases hne with hfirst | hsecond
      · exact ⟨first, by simp, hfirst⟩
      · exact ⟨second, by simp, hsecond⟩
    exact join_append hsome rest

/-- More steps up than names before a slash, and a first segment that is empty. -/
theorem normalize_congruence_above :
    "a/../../" ≠ "" ∧
      normalize ("a/../../" ++ "/" ++ "../b/") =
        normalize (normalize "a/../../" ++ "/" ++ "../b/") ∧
      ("" ≠ "" ∨ "a/.." ≠ "") ∧
      join ["", "a/..", "", "/b/"] = join [join ["", "a/.."], "", "/b/"] ∧
      join ["", "a/..", "", "/b/"] = "b/" := by
  have hfront : "a/../../" ≠ "" := by decide
  have hsecond : "" ≠ "" ∨ "a/.." ≠ "" := .inr (by decide)
  exact ⟨hfront, normalize_congruence.2.1 "a/../../" "../b/" hfront, hsecond,
    normalize_congruence.2.2.1 "" "a/.." ["", "/b/"] hsecond, by decide +kernel⟩

end ModuleAssets.Path
