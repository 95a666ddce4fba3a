import ModuleAssets.Proofs.Path.Descending
import Mathlib.Data.List.TakeWhile
/-!
# The last name — what stands in front of it and behind it

A path has slashes only, or it ends in a name: in front of the name there may be a directory
and a slash, and behind it there may be more slashes (`exists_endsInName`). The directory, the
last segment and the extension of a path are read off these parts (`dirname_eq`,
`basenameChars_eq`, `extension_eq`).
-/

namespace ModuleAssets.Path

/-! ## Parts of a path -/

section

variable {α : Type} {slash : α} {path name : List α} {directory : Option (List α)} {slashes : Nat}

/-- What stands in front of a name: nothing, or a directory and a slash. -/
def frontOf (slash : α) : Option (List α) → List α
  | none => []
  | some directory => directory ++ [slash]

/-- The path is a name with a directory in front of it, if any, and slashes behind it. -/
structure EndsInName (slash : α) (path : List α) (directory : Option (List α)) (name : List α)
    (slashes : Nat) : Prop where
  path_eq : path = frontOf slash directory ++ name ++ List.replicate slashes slash
  nonempty : name ≠ []
  not_mem : slash ∉ name

namespace EndsInName

theorem concat (h : EndsInName slash path directory name slashes) :
    EndsInName slash (path ++ [slash]) directory name (slashes + 1) :=
  ⟨by rw [h.path_eq, List.append_assoc, List.replicate_succ'], h.nonempty, h.not_mem⟩

theorem ne_nil (h : EndsInName slash path directory name slashes) : path ≠ [] := by
  intro hnil
  have hparts := h.path_eq.symm.trans hnil
  exact h.nonempty (List.append_eq_nil_iff.1 (List.append_eq_nil_iff.1 hparts).1).2

/-- A path with a name has something else than slashes. -/
theorem not_replicate (h : EndsInName slash path directory name slashes) (n : Nat) :
    path ≠ List.replicate n slash := by
  intro hpath
  obtain ⟨c, rest, hname⟩ := List.exists_cons_of_ne_nil h.nonempty
  have hmem : c ∈ path := by
    rw [h.path_eq, hname]
    simp
  rw [hpath] at hmem
  exact h.not_mem (List.eq_of_mem_replicate hmem ▸ hname ▸ List.mem_cons_self)

end EndsInName

end

/-- **A path is slashes, or it ends in a name.** The induction is on the path, from its end. -/
theorem exists_endsInName (path : List Char) :
    (∃ slashes, path = List.replicate slashes '/') ∨
      ∃ directory name slashes, EndsInName '/' path directory name slashes := by
  induction path using List.reverseRecOn with
  | nil => exact .inl ⟨0, rfl⟩
  | append_singleton path c ih =>
    by_cases hc : c = '/'
    · subst hc
      obtain ⟨slashes, rfl⟩ | ⟨directory, name, slashes, hparts⟩ := ih
      · exact .inl ⟨slashes + 1, List.replicate_succ'.symm⟩
      · exact .inr ⟨directory, name, slashes + 1, hparts.concat⟩
    · obtain hnone | ⟨front, last, hlast, hslash⟩ := exists_lastOf '/' (path ++ [c])
      · exact .inr ⟨none, path ++ [c], 0, (List.append_nil _).symm, by simp, hnone⟩
      · have hne : last ≠ [] := by
          rintro rfl
          exact hc (List.append_inj_right' hlast rfl |> List.cons.inj |>.1)
        refine .inr ⟨some front, last, 0, ?_, hne, hslash⟩
        rw [hlast, frontOf, List.append_assoc, List.append_assoc]
        exact congrArg _ (congrArg _ (List.append_nil _).symm)

/-! ## Slashes alone -/

theorem trimSlashes_replicate (slashes : Nat) :
    trimSlashes (List.replicate (slashes + 1) '/') = ['/'] := by
  rw [trimSlashes, List.reverse_replicate, List.dropWhile_replicate]
  rfl

theorem dirname_replicate (slashes : Nat) :
    dirname (String.ofList (List.replicate (slashes + 1) '/')) = "/" := by
  have hne : String.ofList (List.replicate (slashes + 1) '/') ≠ "" := by
    simp [List.replicate_succ]
  rw [dirname, if_neg hne, String.toList_ofList, trimSlashes_replicate]
  rfl

theorem basenameChars_replicate (slashes : Nat) :
    basenameChars (List.replicate slashes '/') = [] := by
  cases slashes with
  | zero => rfl
  | succ slashes => rw [basenameChars, trimSlashes_replicate, if_pos rfl]

/-! ## Names -/

variable {path name : List Char} {directory : Option (List Char)} {slashes : Nat}

theorem splitLast_frontOf (directory : Option (List Char)) (h : '/' ∉ name) :
    splitLast (frontOf '/' directory ++ name) = (directory, name) := by
  cases directory with
  | none =>
    have hall : (name.reverse.takeWhile (· != '/')).reverse = name := by
      rw [List.takeWhile_eq_self_iff.2, List.reverse_reverse]
      intro c hc
      simpa using fun heq : c = '/' => h (heq ▸ List.mem_reverse.1 hc)
    rw [frontOf, List.nil_append, splitLast, hall]
    exact if_neg (Nat.lt_irrefl _)
  | some directory =>
    rw [frontOf, List.append_assoc]
    exact splitLast_name directory h

namespace EndsInName

theorem trimSlashes_eq (h : EndsInName '/' path directory name slashes) :
    trimSlashes path = frontOf '/' directory ++ name := by
  obtain ⟨front, c, rfl⟩ := (List.eq_nil_or_concat' name).resolve_left h.nonempty
  have hc : c ≠ '/' := fun heq => h.not_mem (heq ▸ List.mem_append_right _ List.mem_cons_self)
  have hdrop : path.reverse.dropWhile (· == '/') =
      (frontOf '/' directory ++ (front ++ [c])).reverse := by
    rw [h.path_eq, List.reverse_append, List.reverse_replicate, List.dropWhile_append_of_pos]
    · rw [← List.append_assoc, List.reverse_append]
      exact List.dropWhile_cons_of_neg (by simpa using hc)
    · exact fun d hd => beq_iff_eq.2 (List.eq_of_mem_replicate hd)
  rw [trimSlashes, hdrop, List.reverse_reverse]
  exact if_neg fun hnil => h.nonempty (List.append_eq_nil_iff.1 hnil.1).2

/-- **The directory is what stands in front of the slash before the name.** -/
theorem dirname_eq (h : EndsInName '/' path directory name slashes) :
    dirname (String.ofList path) =
      directory.elim "." fun directory =>
        if directory = [] then "/" else String.ofList directory := by
  have hne : String.ofList path ≠ "" := by simpa using h.ne_nil
  rw [dirname, if_neg hne, String.toList_ofList, h.trimSlashes_eq,
    splitLast_frontOf directory h.not_mem]
  cases directory with
  | none => rfl
  | some directory => cases directory <;> rfl

theorem basenameChars_eq (h : EndsInName '/' path directory name slashes) :
    basenameChars path = name := by
  have hroot : frontOf '/' directory ++ name ≠ ['/'] := by
    intro hroot
    have hname : name <:+ ['/'] := ⟨_, hroot⟩
    obtain hwhole | hnil := List.suffix_cons_iff.1 hname
    · exact h.not_mem (hwhole ▸ List.mem_cons_self)
    · exact h.nonempty (List.suffix_nil.1 hnil)
  rw [basenameChars, h.trimSlashes_eq, if_neg hroot, splitLast_frontOf directory h.not_mem]

end EndsInName

/-- Without a slash in front the directory of an absolute path is the root. -/
theorem isAbsolute_dirname {path : String} (h : isAbsolute path = true) :
    isAbsolute (dirname path) = true := by
  rw [← String.ofList_toList (s := path)] at h ⊢
  rw [isAbsolute, String.toList_ofList] at h
  obtain ⟨slashes, hpath⟩ | ⟨directory, name, slashes, hparts⟩ := exists_endsInName path.toList
  · cases slashes with
    | zero =>
      rw [hpath] at h
      cases h
    | succ slashes =>
      rw [hpath, dirname_replicate]
      rfl
  · rw [hparts.dirname_eq]
    rw [hparts.path_eq, List.append_assoc] at h
    cases directory with
    | none =>
      obtain ⟨c, rest, rfl⟩ := List.exists_cons_of_ne_nil hparts.nonempty
      exact absurd (beq_iff_eq.1 h ▸ List.mem_cons_self) hparts.not_mem
    | some directory =>
      cases directory with
      | nil => rfl
      | cons c rest =>
        show isAbsolute (String.ofList (c :: rest)) = true
        rw [isAbsolute, String.toList_ofList]
        exact h

/-! ## Extensions -/

theorem extension_of_not_mem (h : '.' ∉ name) : extension name = [] := by
  have hall : (name.reverse.takeWhile (· != '.')).reverse = name := by
    rw [List.takeWhile_eq_self_iff.2, List.reverse_reverse]
    intro c hc
    simpa using fun heq : c = '.' => h (heq ▸ List.mem_reverse.1 hc)
  rw [extension, hall]
  exact if_neg (by omega)

/-- The extension goes from the last dot on, unless the name begins with that. -/
theorem extension_eq (stem : List Char) {tail : List Char} (h : '.' ∉ tail) :
    extension (stem ++ '.' :: tail) = if stem = [] then [] else '.' :: tail := by
  have htail : ((stem ++ '.' :: tail).reverse.takeWhile (· != '.')).reverse = tail := by
    rw [List.reverse_append, List.reverse_cons, List.append_assoc, List.takeWhile_append_of_pos]
    · simp
    · intro c hc
      simpa using fun heq : c = '.' => h (heq ▸ List.mem_reverse.1 hc)
  have hlength : (stem ++ '.' :: tail).length = stem.length + (tail.length + 1) :=
    List.length_append
  rw [extension, htail, hlength]
  by_cases hstem : stem = []
  · rw [if_pos hstem, hstem]
    exact if_neg (by simp)
  · have hpos := List.length_pos_of_ne_nil hstem
    rw [if_neg hstem]
    exact if_pos (by omega)

end ModuleAssets.Path
