import ModuleAssets.Proofs.Path.Rooted
import Mathlib.Data.List.TakeWhile
/-!
# Scans — paths read character by character

When a program runs, its path module reads a path from left to right. It keeps the text
written so far, the length of the last segment in it, and what it has read of the segment
at hand (`Scan`). A slash closes the segment at hand. This is how paths are worked out,
joined and resolved, and here it is shown to give what working on lists of segments gives
(`Scan.normalize_eq`, `Scan.join_eq`, `Scan.resolve_eq`).
-/

namespace ModuleAssets.Path

/-- What a scan has at hand. -/
structure Scan where
  /-- What is written so far. -/
  written : List Char
  /-- The number of characters of the last segment written. -/
  lastLength : Nat
  /-- What is read of the segment at hand. -/
  segment : List Char
  /-- The number of dots in the segment at hand while it has nothing else. -/
  dots : Option Nat

namespace Scan

/-- Nothing is read. -/
def start : Scan :=
  ⟨[], 0, [], some 0⟩

/-- The text before its last slash, and nothing if it has none. -/
def beforeLast (cs : List Char) : List Char :=
  ((cs.reverse.dropWhile (· != '/')).drop 1).reverse

/-- The number of characters after the last slash. -/
def lengthAfterLast (cs : List Char) : Nat :=
  (cs.reverse.takeWhile (· != '/')).length

/-- Goes on with the next segment. -/
def next (written : List Char) (lastLength : Nat) : Scan :=
  ⟨written, lastLength, [], some 0⟩

/-- Writes a segment. -/
def append (s : Scan) (segment : List Char) : Scan :=
  next (if s.written = [] then segment else s.written ++ '/' :: segment) segment.length

/-- The last segment written leads up. -/
def endsUp (s : Scan) : Bool :=
  2 ≤ s.written.length && s.lastLength == 2 && ['.', '.'].isSuffixOf s.written

/-- Takes back the last segment written. Where there is none, or one that leads up, a
segment that leads up is written with `above`, and else nothing. -/
def up (above : Bool) (s : Scan) : Scan :=
  if s.endsUp = false ∧ 2 < s.written.length then
    next (beforeLast s.written) (lengthAfterLast (beforeLast s.written))
  else if s.endsUp = false ∧ s.written ≠ [] then next [] 0
  else if above then s.append ['.', '.']
  else next s.written s.lastLength

/-- The segment at hand is over. -/
def close (above : Bool) (s : Scan) : Scan :=
  if s.segment = [] ∨ s.dots = some 1 then next s.written s.lastLength
  else if s.dots = some 2 then s.up above
  else s.append s.segment

/-- Reads a character. -/
def step (above : Bool) (s : Scan) (c : Char) : Scan :=
  if c = '/' then s.close above
  else { s with segment := s.segment ++ [c], dots := if c = '.' then s.dots.map (· + 1) else none }

/-- What is written of a path. Its end closes the last segment. -/
def scanned (above : Bool) (path : List Char) : List Char :=
  ((path.foldl (step above) start).close above).written

/-! ## Segments written -/

theorem not_slash_of_mem_reverse {name : List Char} (h : '/' ∉ name) :
    ∀ c ∈ name.reverse, (c != '/') = true := fun c hc => by
  simpa using fun heq : c = '/' => h (heq ▸ List.mem_reverse.1 hc)

theorem beforeLast_joined {front : List (List Char)} {last : List Char} (hlast : '/' ∉ last) :
    beforeLast (Text.joinWithChar '/' (front ++ [last])) = Text.joinWithChar '/' front := by
  have hpos := not_slash_of_mem_reverse hlast
  by_cases hfront : front = []
  · subst hfront
    show ((last.reverse.dropWhile (· != '/')).drop 1).reverse = []
    rw [List.dropWhile_eq_nil_iff.2 hpos]
    rfl
  · rw [joined_append hfront (List.cons_ne_nil _ _), beforeLast, List.reverse_append,
      List.reverse_cons, List.append_assoc]
    show ((last.reverse ++ _).dropWhile _ |>.drop 1).reverse = _
    rw [List.dropWhile_append_of_pos hpos]
    exact List.reverse_reverse _

theorem lengthAfterLast_joined {front : List (List Char)} {last : List Char} (hlast : '/' ∉ last) :
    lengthAfterLast (Text.joinWithChar '/' (front ++ [last])) = last.length := by
  have hpos := not_slash_of_mem_reverse hlast
  by_cases hfront : front = []
  · subst hfront
    show (last.reverse.takeWhile (· != '/')).length = _
    rw [List.takeWhile_eq_self_iff.2 hpos, List.length_reverse]
  · rw [joined_append hfront (List.cons_ne_nil _ _), lengthAfterLast, List.reverse_append,
      List.reverse_cons, List.append_assoc]
    show ((last.reverse ++ _).takeWhile _).length = _
    rw [List.takeWhile_append_of_pos hpos, List.length_append, List.length_reverse]
    rfl

/-- The number of characters of the last segment kept. -/
def lengthOfLast (kept : List (List Char)) : Nat :=
  (kept.head?.map List.length).getD 0

theorem lengthAfterLast_kept {kept : List (List Char)} (h : ∀ p ∈ kept, IsPiece p) :
    lengthAfterLast (Text.joinWithChar '/' kept.reverse) = lengthOfLast kept := by
  cases kept with
  | nil => rfl
  | cons last rest =>
    rw [List.reverse_cons, lengthAfterLast_joined (h last List.mem_cons_self).2]
    rfl

theorem joined_concat {front : List (List Char)} (h : ∀ p ∈ front, IsPiece p)
    (last : List Char) :
    Text.joinWithChar '/' (front ++ [last]) =
      if Text.joinWithChar '/' front = [] then last
      else Text.joinWithChar '/' front ++ '/' :: last := by
  by_cases hfront : front = []
  · subst hfront
    rfl
  · rw [if_neg (joined_ne_nil hfront h), joined_append hfront (List.cons_ne_nil _ _)]
    rfl

/-- Two segments need three characters and more. -/
theorem eq_nil_of_length_joined {front : List (List Char)} {last : List Char}
    (h : ∀ p ∈ front ++ [last], IsPiece p)
    (hlength : (Text.joinWithChar '/' (front ++ [last])).length ≤ 2) : front = [] := by
  by_contra hfront
  have hpieces := List.forall_mem_append.1 h
  have hjoined := List.length_pos_of_ne_nil (joined_ne_nil hfront hpieces.1)
  have hlast := List.length_pos_of_ne_nil (hpieces.2 last List.mem_cons_self).1
  rw [joined_append hfront (List.cons_ne_nil _ _), List.length_append, List.length_cons] at hlength
  change _ + (last.length + 1) ≤ 2 at hlength
  omega

/-! ## The segment at hand -/

/-- The scan has written the segments kept, the last of them first, and has read
`segment` since. -/
structure Keeps (above : Bool) (kept : List (List Char)) (segment : List Char) (s : Scan) :
    Prop where
  written : s.written = Text.joinWithChar '/' kept.reverse
  lastLength : s.lastLength = lengthOfLast kept
  atHand : s.segment = segment
  dots : s.dots = if segment.all (· == '.') then some segment.length else none
  isPiece : ∀ p ∈ kept, IsPiece p
  /-- Only above the root segments lead up. -/
  up : ['.', '.'] ∈ kept → above = true

variable {above : Bool} {kept : List (List Char)} {segment : List Char} {s : Scan}

theorem keeps_start (above : Bool) : Keeps above [] [] start :=
  ⟨rfl, rfl, rfl, rfl, List.forall_mem_nil _, fun h => absurd h List.not_mem_nil⟩

theorem keeps_next (hpieces : ∀ p ∈ kept, IsPiece p) (hup : ['.', '.'] ∈ kept → above = true)
    {written : List Char} {n : Nat} (hwritten : written = Text.joinWithChar '/' kept.reverse)
    (hlength : n = lengthOfLast kept) : Keeps above kept [] (next written n) :=
  ⟨hwritten, hlength, rfl, rfl, hpieces, hup⟩

theorem Keeps.read (h : Keeps above kept segment s) {c : Char} (hc : c ≠ '/') :
    Keeps above kept (segment ++ [c]) (s.step above c) := by
  rw [step, if_neg hc]
  refine ⟨h.written, h.lastLength, congrArg (· ++ [c]) h.atHand, ?_, h.isPiece, h.up⟩
  dsimp only
  rw [h.dots, List.all_append, List.length_append]
  by_cases hdot : c = '.'
  · subst hdot
    by_cases hall : segment.all (· == '.') = true <;> simp [hall]
  · simp [hdot]

/-- Of the segments that are dots only, each has another number of dots. -/
theorem Keeps.dots_eq_some (h : Keeps above kept segment s) {n : Nat} :
    s.dots = some n ↔ segment = List.replicate n '.' := by
  rw [h.dots, List.eq_replicate_iff]
  by_cases hall : segment.all (· == '.') = true
  · rw [if_pos hall, Option.some.injEq]
    exact ⟨fun hn => ⟨hn, fun c hc => eq_of_beq (List.all_eq_true.1 hall c hc)⟩, And.left⟩
  · rw [if_neg hall]
    refine iff_of_false nofun fun hsegment => hall ?_
    exact List.all_eq_true.2 fun c hc => beq_iff_eq.2 (hsegment.2 c hc)

/-- The scan sees whether the last segment written leads up. -/
theorem Keeps.endsUp (h : Keeps above kept segment s) :
    s.endsUp = true ↔ kept.head? = some ['.', '.'] := by
  unfold Scan.endsUp
  rw [h.written, h.lastLength]
  cases kept with
  | nil => simp [lengthOfLast]
  | cons last rest =>
    have hlength : lengthOfLast (last :: rest) = last.length := rfl
    obtain ⟨front, hwritten⟩ : ∃ front,
        Text.joinWithChar '/' (last :: rest).reverse = front ++ last := by
      rw [List.reverse_cons, joined_concat fun p hp =>
        h.isPiece p (List.mem_cons_of_mem _ (List.mem_reverse.1 hp))]
      split
      · exact ⟨[], rfl⟩
      · exact ⟨_ ++ ['/'], List.append_cons _ _ _⟩
    rw [hlength, hwritten, List.head?_cons, Option.some.injEq, Bool.and_eq_true, Bool.and_eq_true,
      decide_eq_true_iff, beq_iff_eq, List.isSuffixOf_iff_suffix, List.length_append]
    constructor
    · rintro ⟨⟨-, htwo⟩, hsuffix⟩
      exact ((List.suffix_of_suffix_length_le hsuffix (List.suffix_append front last)
        htwo.ge).eq_of_length htwo.symm).symm
    · rintro rfl
      exact ⟨⟨Nat.le_add_left _ _, rfl⟩, List.suffix_append _ _⟩

theorem Keeps.append (h : Keeps above kept segment s) {piece : List Char} (hpiece : IsPiece piece)
    (hup : piece = ['.', '.'] → above = true) : Keeps above (piece :: kept) [] (s.append piece) := by
  refine keeps_next (List.forall_mem_cons.2 ⟨hpiece, h.isPiece⟩) (fun hmem => ?_) ?_ rfl
  · obtain heq | hmem := List.mem_cons.1 hmem
    · exact hup heq.symm
    · exact h.up hmem
  · rw [List.reverse_cons, joined_concat (fun p hp => h.isPiece p (List.mem_reverse.1 hp)),
      h.written]

theorem Keeps.climb (h : Keeps above kept segment s) :
    Keeps above (keepSegment (!above) kept ['.', '.']) [] (s.up above) := by
  have hstep : IsPiece ['.', '.'] := ⟨by decide, by decide⟩
  unfold Scan.up
  cases kept with
  | nil =>
    have hwritten : s.written = [] := h.written
    rw [hwritten, if_neg fun hlong => absurd hlong.2 (by decide), if_neg fun hsome => hsome.2 rfl]
    cases above with
    | true => exact h.append hstep fun _ => rfl
    | false => exact keeps_next (List.forall_mem_nil _) h.up rfl h.lastLength
  | cons last rest =>
    obtain ⟨hlast, hrest⟩ := List.forall_mem_cons.1 h.isPiece
    have hkept : keepSegment (!above) (last :: rest) ['.', '.'] =
        if last = ['.', '.'] then ['.', '.'] :: last :: rest else rest := rfl
    rw [hkept]
    by_cases hup : last = ['.', '.']
    · -- what leads up is kept above the root only
      have hends : s.endsUp ≠ false := by
        rw [ne_eq, Bool.not_eq_false, h.endsUp, List.head?_cons, hup]
      have habove : above = true := h.up (hup ▸ List.mem_cons_self)
      rw [if_pos hup, if_neg fun hlong => hends hlong.1, if_neg fun hsome => hends hsome.1,
        if_pos habove]
      exact h.append hstep fun _ => habove
    · have hends : s.endsUp = false := by
        rw [← Bool.not_eq_true, h.endsUp]
        exact fun heq => hup (Option.some.inj heq)
      have hupRest : ['.', '.'] ∈ rest → above = true :=
        fun hmem => h.up (List.mem_cons_of_mem _ hmem)
      have hwritten : s.written = Text.joinWithChar '/' (rest.reverse ++ [last]) :=
        h.written.trans (by rw [List.reverse_cons])
      have hpieces : ∀ p ∈ rest.reverse ++ [last], IsPiece p := by
        rw [← List.reverse_cons]
        exact fun p hp => h.isPiece p (List.mem_reverse.1 hp)
      rw [if_neg hup]
      by_cases hlong : 2 < s.written.length
      · rw [if_pos ⟨hends, hlong⟩, hwritten, beforeLast_joined hlast.2]
        exact keeps_next hrest hupRest rfl (lengthAfterLast_kept hrest)
      · -- a text this short has no other segment
        have hnone : rest = [] := List.reverse_eq_nil_iff.1
          (eq_nil_of_length_joined hpieces (hwritten ▸ Nat.le_of_not_lt hlong))
        have hne : s.written ≠ [] := hwritten ▸ joined_ne_nil (by simp) hpieces
        rw [if_neg fun hlong' => hlong hlong'.2, if_pos ⟨hends, hne⟩]
        subst hnone
        exact keeps_next hrest hupRest rfl rfl

/-- **A slash does to what is written what its segment does to those kept.** -/
theorem Keeps.close (h : Keeps above kept segment s) (hslash : '/' ∉ segment) :
    Keeps above (keepSegment (!above) kept segment) [] (s.close above) := by
  have hone : s.dots = some 1 ↔ segment = ['.'] := h.dots_eq_some
  have htwo : s.dots = some 2 ↔ segment = ['.', '.'] := h.dots_eq_some
  simp only [Scan.close, h.atHand, hone, htwo]
  by_cases hup : segment = ['.', '.']
  · subst hup
    exact h.climb
  · unfold keepSegment
    rw [if_neg hup, if_neg hup]
    split
    · exact keeps_next h.isPiece h.up h.written h.lastLength
    · rename_i hidle
      exact h.append ⟨(not_or.1 hidle).1, hslash⟩ fun heq => absurd heq hup

/-- A path that is read, and its end, do to what is written what its segments do. -/
theorem Keeps.foldl (h : Keeps above kept segment s) (hslash : '/' ∉ segment) (path : List Char) :
    Keeps above ((pieces (segment ++ path)).foldl (keepSegment (!above)) kept) []
      ((path.foldl (step above) s).close above) := by
  induction path generalizing kept segment s with
  | nil =>
    rw [List.append_nil, pieces_eq_singleton hslash]
    exact h.close hslash
  | cons c rest ih =>
    rw [List.foldl_cons]
    by_cases hc : c = '/'
    · subst hc
      rw [pieces_append, pieces_eq_singleton hslash, List.foldl_append]
      exact ih (h.close hslash) List.not_mem_nil
    · rw [List.append_cons]
      exact ih (h.read hc) (by simp [hslash, Ne.symm hc])

theorem keeps_scanned (path : List Char) :
    Keeps (!isAbsoluteChars path) (normalSegments path).reverse []
      ((path.foldl (step (!isAbsoluteChars path)) start).close (!isAbsoluteChars path)) := by
  have h := (keeps_start (!isAbsoluteChars path)).foldl List.not_mem_nil path
  rw [Bool.not_not] at h
  rw [normalSegments, List.reverse_reverse]
  exact h

/-- **What is scanned are the segments left once all steps are worked out.** -/
theorem scanned_eq (path : List Char) :
    scanned (!isAbsoluteChars path) path = Text.joinWithChar '/' (normalSegments path) := by
  rw [scanned, (keeps_scanned path).written, List.reverse_reverse]

theorem isPiece_normalSegments (path : List Char) : ∀ p ∈ normalSegments path, IsPiece p :=
  fun p hp => (keeps_scanned path).isPiece p (List.mem_reverse.2 hp)

/-! ## Whole paths -/

/-- Works out a path. -/
def normalize (path : List Char) : List Char :=
  if path = [] then ['.']
  else
    let written := scanned (!isAbsoluteChars path) path
    if written = [] then
      if isAbsoluteChars path then ['/'] else if endsWithSlash path then ['.', '/'] else ['.']
    else
      let closed := if endsWithSlash path then written ++ ['/'] else written
      if isAbsoluteChars path then '/' :: closed else closed

theorem normalize_eq (path : List Char) : normalize path = normalizeChars path := by
  unfold normalize normalizeChars
  split
  · rfl
  dsimp only
  rw [scanned_eq]
  by_cases habsolute : isAbsoluteChars path = true
  · rw [if_pos habsolute, if_pos habsolute, if_pos habsolute, if_neg (List.cons_ne_nil _ _)]
    split
    · rename_i hnil
      rw [hnil, if_neg fun h => h.2 rfl]
    · rename_i hne
      have hroot : '/' :: Text.joinWithChar '/' (normalSegments path) ≠ ['/'] :=
        fun heq => hne (List.cons.inj heq).2
      by_cases hend : endsWithSlash path = true
      · rw [if_pos hend, if_pos ⟨hend, hroot⟩]
        rfl
      · rw [if_neg hend, if_neg fun h => hend h.1]
  · rw [if_neg habsolute, if_neg habsolute, if_neg habsolute]
    split
    · rfl
    · have hroot : Text.joinWithChar '/' (normalSegments path) ≠ ['/'] := fun heq => by
        have hrelative := isAbsoluteChars_joined (isPiece_normalSegments path)
        rw [heq] at hrelative
        cases hrelative
      by_cases hend : endsWithSlash path = true
      · rw [if_pos hend, if_pos ⟨hend, hroot⟩]
      · rw [if_neg hend, if_neg fun h => hend h.1]

/-- Puts segments together. -/
def join (segments : List (List Char)) : List Char :=
  let parts := segments.filter (· ≠ [])
  if parts = [] then ['.'] else normalize (Text.joinWithChar '/' parts)

theorem join_eq (segments : List String) :
    String.ofList (join (segments.map String.toList)) = Path.join segments := by
  unfold join Path.join
  dsimp only
  split
  · rfl
  · rw [normalize_eq]

/-- Writes segments in front of a path, from the last one on, until one is absolute. Each
segment looked at has to be a text. -/
def gather (path : List Char) : List (Option (List Char)) → Option (List Char × Bool)
  | [] => some (path, false)
  | none :: _ => none
  | some segment :: before =>
    if segment = [] then gather path before
    else if isAbsoluteChars segment then some (segment ++ '/' :: path, true)
    else gather (segment ++ '/' :: path) before

/-- The path that segments lead to from a directory. -/
def resolve (directory : List Char) (segments : List (Option (List Char))) :
    Option (List Char) :=
  (gather [] (segments.reverse ++ [some directory])).map fun (path, absolute) =>
    let written := scanned (!absolute) path
    if absolute then '/' :: written else if written = [] then ['.'] else written

theorem gather_eq {segments parts : List (List Char)} (h : sinceAbsolute segments = some parts)
    (path : List Char) (before : List (Option (List Char))) :
    gather path (segments.map some ++ before) =
      some (Text.joinWithChar '/' parts ++ '/' :: path, true) := by
  induction segments generalizing parts path with
  | nil => cases h
  | cons segment rest ih =>
    rw [sinceAbsolute] at h
    rw [List.map_cons, List.cons_append, gather]
    split at h
    · rename_i hempty
      rw [if_pos hempty]
      exact ih h path
    rename_i hne
    rw [if_neg hne]
    split at h
    · rename_i habsolute
      obtain rfl := Option.some.inj h
      rw [if_pos habsolute]
      rfl
    · rename_i hrelative
      obtain ⟨found, hfound, rfl⟩ := Option.map_eq_some_iff.1 h
      have hfoundNe : found ≠ [] := by
        rintro rfl
        exact Bool.false_ne_true (isAbsoluteChars_sinceAbsolute hfound)
      rw [if_neg hrelative, ih hfound, joined_append hfoundNe (List.cons_ne_nil _ _),
        List.append_assoc]
      rfl

/-- Segments that lead somewhere do so from any directory. -/
theorem resolve_eq {segments : List String} {path : String} (h : Path.resolve segments = some path)
    (directory : List Char) :
    resolve directory (segments.map (some ·.toList)) = some path.toList := by
  obtain ⟨parts, hparts, rfl⟩ := Option.map_eq_some_iff.1 h
  have habsolute := isAbsoluteChars_sinceAbsolute hparts
  have hgather := gather_eq hparts [] [some directory]
  rw [List.map_reverse, List.map_map] at hgather
  have hscanned := scanned_eq (Text.joinWithChar '/' parts ++ ['/'])
  rw [isAbsoluteChars_slash habsolute, normalSegments_slash habsolute] at hscanned
  rw [resolve, show segments.map (some ·.toList) = segments.map (some ∘ String.toList) from rfl,
    hgather, Option.map_some]
  dsimp only
  rw [if_pos rfl, hscanned, String.toList_ofList, trimSlashes_normalizeChars habsolute]
  rfl

end Scan

end ModuleAssets.Path
