import ModuleAssets.Path
import Mathlib.Data.List.Infix
/-!
# Paths — the extension ends the path

A path that does not end with a slash ends with its last segment, and that
with the extension, so that a path is its extension after some stem.
-/

namespace ModuleAssets.Path

/-- Without a slash at the end there is nothing to trim. -/
theorem trimSlashes_eq_self {path : List Char} (h : endsWithSlash path = false) :
    trimSlashes path = path := by
  have hdrop : path.reverse.dropWhile (· == '/') = path.reverse := by
    cases hrev : path.reverse with
    | nil => rfl
    | cons c rest =>
      have hlast : path.getLast? = some c := by
        rw [← List.head?_reverse, hrev, List.head?_cons]
      rw [endsWithSlash, hlast] at h
      exact List.dropWhile_cons_of_neg (by simpa using h)
  rw [trimSlashes, hdrop, List.reverse_reverse]
  split
  · rename_i hempty
    obtain ⟨rfl, habsolute⟩ := hempty
    cases habsolute
  · rfl

theorem reverse_takeWhile_reverse_isSuffix (p : Char → Bool) (cs : List Char) :
    (cs.reverse.takeWhile p).reverse <:+ cs := by
  rw [← List.reverse_prefix, List.reverse_reverse]
  exact List.takeWhile_prefix p

/-- What stands after the last slash ends the path. -/
theorem splitLast_isSuffix (path : List Char) : (splitLast path).2 <:+ path := by
  rw [splitLast]
  split
  · exact reverse_takeWhile_reverse_isSuffix _ path
  · exact List.suffix_rfl

theorem basenameChars_isSuffix {path : List Char} (h : endsWithSlash path = false) :
    basenameChars path <:+ path := by
  rw [basenameChars, trimSlashes_eq_self h]
  split
  · exact List.nil_suffix
  · exact splitLast_isSuffix path

/-- The extension of a name ends it, its dot being the last one. -/
theorem extension_isSuffix (name : List Char) : extension name <:+ name := by
  rw [extension]
  split
  · rename_i hlength
    have hsplit := List.takeWhile_append_dropWhile (p := (· != '.')) (l := name.reverse)
    cases hrest : name.reverse.dropWhile (· != '.') with
    | nil =>
      rw [hrest, List.append_nil] at hsplit
      rw [hsplit, List.reverse_reverse] at hlength
      omega
    | cons c rest =>
      have hdot := List.head?_dropWhile_not (· != '.') name.reverse
      rw [hrest] at hdot hsplit
      have hc : c = '.' := by simpa using hdot
      refine ⟨rest.reverse, ?_⟩
      have hname := congrArg List.reverse hsplit
      rw [List.reverse_append, List.reverse_cons, List.reverse_reverse, hc] at hname
      rw [List.append_assoc, List.singleton_append] at hname
      exact hname
  · exact List.nil_suffix

/-- **A path is its extension after some stem**, unless it ends with a slash. -/
theorem exists_eq_append_extname {path : String} (h : endsWithSlash path.toList = false) :
    ∃ stem, path = stem ++ extname path := by
  have hsuffix : (extname path).toList <:+ path.toList := by
    rw [extname]
    split
    · exact List.nil_suffix
    · rw [String.toList_ofList]
      exact (extension_isSuffix _).trans (basenameChars_isSuffix h)
  obtain ⟨stem, hstem⟩ := hsuffix
  refine ⟨String.ofList stem, String.toList_inj.1 ?_⟩
  rw [String.toList_append, String.toList_ofList, hstem]

end ModuleAssets.Path
