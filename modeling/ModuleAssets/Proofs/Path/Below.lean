import ModuleAssets.Path
import Mathlib.Data.List.Infix
/-!
# Paths — from a directory back up to one above

A path that starts in a directory and first goes up as many steps as the directory
lies below another leads to where the rest of it leads from that other one
(`normalize_climb`). The steps up take away the segments of the directory one by one,
whatever comes after them.
-/

namespace ModuleAssets

theorem Text.splitAtChar_ne_nil (mark : Char) (cs : List Char) : splitAtChar mark cs ≠ [] := by
  cases cs with
  | nil => exact List.cons_ne_nil _ _
  | cons c rest =>
    rw [splitAtChar]
    split
    · exact List.cons_ne_nil _ _
    · split
      · exact List.cons_ne_nil _ _
      · exact List.cons_ne_nil _ _

theorem Text.splitAtChar_append (mark : Char) (front back : List Char) :
    splitAtChar mark (front ++ mark :: back) = splitAtChar mark front ++ splitAtChar mark back := by
  induction front with
  | nil =>
    rw [List.nil_append, splitAtChar]
    exact if_pos (beq_self_eq_true mark)
  | cons c front ih =>
    rw [List.cons_append, splitAtChar, splitAtChar, ih]
    split
    · rfl
    · cases hfront : splitAtChar mark front with
      | nil => exact absurd hfront (splitAtChar_ne_nil mark front)
      | cons piece pieces => rfl

namespace Path

theorem pieces_append (front back : List Char) :
    pieces (front ++ '/' :: back) = pieces front ++ pieces back :=
  Text.splitAtChar_append '/' front back

theorem isAbsoluteChars_append (front back : List Char) :
    isAbsoluteChars (front ++ '/' :: back) = isAbsoluteChars (front ++ ['/']) := by
  cases front <;> rfl

/-- What comes after a directory works on the segments of the directory. -/
theorem normalSegments_append (front back : List Char) :
    normalSegments (front ++ '/' :: back) =
      ((pieces back).foldl (keepSegment (isAbsoluteChars (front ++ ['/'])))
        (normalSegments (front ++ ['/'])).reverse).reverse := by
  rw [normalSegments, normalSegments, pieces_append, pieces_append, isAbsoluteChars_append,
    List.foldl_append, List.foldl_append, List.reverse_reverse]
  rfl

/-- The first directory lies that many segments below the second. None of them is a
step up. -/
def LiesBelow (steps : Nat) (directory root : List Char) : Prop :=
  isAbsoluteChars (directory ++ ['/']) = isAbsoluteChars (root ++ ['/']) ∧
    ∃ segments : List (List Char), segments.length = steps ∧ ['.', '.'] ∉ segments ∧
      normalSegments (directory ++ ['/']) = normalSegments (root ++ ['/']) ++ segments

theorem LiesBelow.refl (root : List Char) : LiesBelow 0 root root :=
  ⟨rfl, [], rfl, List.not_mem_nil, (List.append_nil _).symm⟩

/-- A segment that is no step. -/
def IsPlain (segment : List Char) : Prop :=
  segment ≠ [] ∧ segment ≠ ['.'] ∧ segment ≠ ['.', '.'] ∧ '/' ∉ segment

theorem pieces_eq_singleton {segment : List Char} (h : '/' ∉ segment) :
    pieces segment = [segment] := by
  induction segment with
  | nil => rfl
  | cons c rest ih =>
    obtain ⟨hc, hrest⟩ := not_or.1 (List.mem_cons.not.1 h)
    have hpieces : Text.splitAtChar '/' rest = [rest] := ih hrest
    rw [pieces, Text.splitAtChar, hpieces]
    exact if_neg (by simpa using Ne.symm hc)

/-- So does a directory of that directory. -/
theorem LiesBelow.descend {steps : Nat} {directory root segment : List Char}
    (h : LiesBelow steps directory root) (hplain : IsPlain segment) :
    LiesBelow (steps + 1) (directory ++ '/' :: segment) root := by
  obtain ⟨habsolute, segments, hlength, hup, hsegments⟩ := h
  obtain ⟨hempty, hdot, hdots, hslash⟩ := hplain
  refine ⟨?_, segments ++ [segment], by rw [List.length_append, hlength]; rfl, ?_, ?_⟩
  · rw [List.append_assoc, List.cons_append, isAbsoluteChars_append, habsolute]
  · simp only [List.mem_append, List.mem_singleton, not_or]
    exact ⟨hup, hdots.symm⟩
  · have hpieces : pieces (segment ++ ['/']) = [segment, []] := by
      rw [pieces_append, pieces_eq_singleton hslash]
      rfl
    rw [List.append_assoc, List.cons_append, normalSegments_append, hpieces, hsegments]
    simp only [List.foldl_cons, List.foldl_nil, keepSegment, hempty, hdot, hdots, false_or, if_false,
      true_or, if_true, List.reverse_cons, List.reverse_reverse, List.append_assoc]

/-- Steps up, one after another. -/
def climbing (steps : Nat) : List Char :=
  (List.replicate steps ['.', '.', '/']).flatten

theorem pieces_climbing (steps : Nat) (rest : List Char) :
    pieces (climbing steps ++ rest) = List.replicate steps ['.', '.'] ++ pieces rest := by
  induction steps with
  | zero => rfl
  | succ steps ih =>
    show pieces (['.', '.'] ++ '/' :: (climbing steps ++ rest)) = _
    rw [pieces_append, ih]
    rfl

/-- Steps up take away as many segments. -/
theorem foldl_climbing {absolute : Bool} {segments : List (List Char)} (h : ['.', '.'] ∉ segments)
    (kept : List (List Char)) :
    (List.replicate segments.length ['.', '.']).foldl (keepSegment absolute) (segments ++ kept) =
      kept := by
  induction segments with
  | nil => rfl
  | cons segment rest ih =>
    obtain ⟨hsegment, hrest⟩ := not_or.1 (List.mem_cons.not.1 h)
    have hstep : keepSegment absolute (segment :: (rest ++ kept)) ['.', '.'] = rest ++ kept := by
      rw [keepSegment, if_neg (by decide), if_pos rfl]
      exact if_neg (Ne.symm hsegment)
    rw [List.length_cons, List.replicate_succ, List.foldl_cons, List.cons_append, hstep]
    exact ih hrest

theorem normalizeChars_congr {path path' : List Char} (hpath : path ≠ []) (hpath' : path' ≠ [])
    (habsolute : isAbsoluteChars path = isAbsoluteChars path')
    (hsegments : normalSegments path = normalSegments path')
    (hslash : endsWithSlash path = endsWithSlash path') :
    normalizeChars path = normalizeChars path' := by
  rw [normalizeChars, normalizeChars, if_neg hpath, if_neg hpath', habsolute, hsegments, hslash]

theorem endsWithSlash_append (front : List Char) {back : List Char} (h : back ≠ []) :
    endsWithSlash (front ++ back) = endsWithSlash back := by
  rw [endsWithSlash, endsWithSlash, List.getLast?_append_of_ne_nil _ h]

theorem endsWithSlash_climbing (steps : Nat) : endsWithSlash ('/' :: climbing steps) = true := by
  induction steps with
  | zero => rfl
  | succ steps ih =>
    show endsWithSlash (['/', '.', '.'] ++ '/' :: climbing steps) = true
    rw [endsWithSlash_append _ (List.cons_ne_nil _ _), ih]

/-- **Going up to where one came from.** -/
theorem normalizeChars_climb {steps : Nat} {directory root : List Char}
    (h : LiesBelow steps directory root) (rest : List Char) :
    normalizeChars (directory ++ '/' :: (climbing steps ++ rest)) =
      normalizeChars (root ++ '/' :: rest) := by
  obtain ⟨habsolute, segments, rfl, hup, hsegments⟩ := h
  refine normalizeChars_congr (by simp) (by simp) ?_ ?_ ?_
  · rw [isAbsoluteChars_append, habsolute, isAbsoluteChars_append root rest]
  · rw [normalSegments_append directory, normalSegments_append root rest, habsolute, hsegments,
      pieces_climbing, List.foldl_append, List.reverse_append, ← List.length_reverse,
      foldl_climbing (List.mem_reverse.not.2 hup)]
  · rw [endsWithSlash_append _ (List.cons_ne_nil _ _), endsWithSlash_append _ (List.cons_ne_nil _ _)]
    by_cases hrest : rest = []
    · rw [hrest, List.append_nil, endsWithSlash_climbing]
      rfl
    · rw [← List.cons_append, endsWithSlash_append _ hrest, ← List.singleton_append,
        endsWithSlash_append _ hrest]

end Path

end ModuleAssets
