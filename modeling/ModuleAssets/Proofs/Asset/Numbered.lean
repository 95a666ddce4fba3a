import ModuleAssets.Asset.Registry
import ModuleAssets.Proofs.Json.Members
import ModuleAssets.Proofs.Path.Extension
import Mathlib.Data.List.Perm.Subperm
import Mathlib.Data.List.Range
import Mathlib.Data.Nat.Find
/-!
# Registry — the search for an open name

A preferred name that an asset may not have is followed by names with the
numbers from one on. No two of these are the same, so that one of them is open
before there are more of them than names taken, and the search ends with the
first that is.
-/

namespace ModuleAssets.Registry

/-! ## Numbered names -/

theorem toList_numbered (preferred : String) (number : Nat) :
    (numbered preferred number).toList =
      preferred.toList.take (preferred.length - (Path.extname preferred).length) ++
        Nat.toDigits 10 number ++ (Path.extname preferred).toList := by
  rw [numbered, String.toList_append, String.toList_ofList]

/-- The number stands between the stem and the extension. -/
theorem numbered_eq {stem preferred : String} (h : preferred = stem ++ Path.extname preferred)
    (number : Nat) :
    numbered preferred number = stem ++ toString number ++ Path.extname preferred := by
  have hlength : preferred.length - (Path.extname preferred).length = stem.toList.length := by
    have := congrArg String.length h
    rw [String.length_append] at this
    rw [String.length_toList]
    omega
  have hstem : preferred.toList.take stem.toList.length = stem.toList := by
    have := congrArg String.toList h
    rw [String.toList_append] at this
    rw [this, List.take_left]
  apply String.toList_inj.1
  rw [toList_numbered, hlength, hstem, String.toList_append, String.toList_append]
  congr 2
  exact Nat.toList_repr.symm

/-- **Different numbers make different names.** -/
theorem numbered_inj {preferred : String} {j k : Nat}
    (h : numbered preferred j = numbered preferred k) : j = k := by
  have hlist := congrArg String.toList h
  rw [toList_numbered, toList_numbered] at hlist
  -- stem and extension are the same, so the digits are, and their value
  have hdigits := List.append_cancel_left (List.append_cancel_right hlist)
  have hvalue := congrArg (fun cs => Nat.ofDigitChars 10 cs 0) hdigits
  simpa only [Nat.ofDigitChars_ten_toDigits] using hvalue

/-- A number makes the name longer. -/
theorem numbered_ne (preferred : String) (number : Nat) :
    numbered preferred number ≠ preferred := by
  intro h
  have hlength := congrArg String.length h
  rw [← String.length_toList, toList_numbered, List.length_append, List.length_append,
    List.length_take, String.length_toList, String.length_toList] at hlength
  have hpos := Nat.length_toDigits_pos (b := 10) (n := number)
  omega

/-! ## The search -/

variable {r : Registry} {path preferred name : String}

theorem isOpenTo_iff : r.isOpenTo path name = true ↔
    r.owner? name = none ∨ r.owner? name = some (some path) := by
  rw [isOpenTo]
  cases r.owner? name with
  | none => simp
  | some owner => simp

theorem mem_names_of_not_isOpenTo (h : ¬ r.isOpenTo path name = true) :
    name ∈ r.names.map (·.1) := by
  by_contra hmem
  have hnone : r.owner? name = none := Json.member?_eq_none.2 hmem
  exact h (isOpenTo_iff.2 (.inl hnone))

/-- **One of the first numbers is open**: there are not more names taken, and
the preferred one is among these. -/
theorem exists_isOpenTo_numbered (h : ¬ r.isOpenTo path preferred = true) :
    ∃ k, 1 ≤ k ∧ k ≤ r.names.length ∧ r.isOpenTo path (numbered preferred k) = true := by
  by_contra hnone
  have htaken : ∀ k, 1 ≤ k → k ≤ r.names.length →
      numbered preferred k ∈ r.names.map (·.1) := fun k hpos hle =>
    mem_names_of_not_isOpenTo fun hopen => hnone ⟨k, hpos, hle, hopen⟩
  -- one name more than are taken, no two alike, and yet all of them taken
  let tried := (List.range' 1 r.names.length).map (numbered preferred)
  have hnodup : (preferred :: tried).Nodup := by
    refine List.nodup_cons.2 ⟨?_, List.Nodup.map (fun _ _ => numbered_inj) List.nodup_range'⟩
    intro hmem
    obtain ⟨k, -, hk⟩ := List.mem_map.1 hmem
    exact numbered_ne preferred k hk
  have hsubset : preferred :: tried ⊆ r.names.map (·.1) := by
    refine List.cons_subset.2 ⟨mem_names_of_not_isOpenTo h, fun n hn => ?_⟩
    obtain ⟨k, hk, rfl⟩ := List.mem_map.1 hn
    rw [List.mem_range'_1] at hk
    exact htaken k hk.1 (by omega)
  have hlength := (hnodup.subperm hsubset).length_le
  rw [List.length_cons, List.length_map, List.length_map, List.length_range'] at hlength
  omega

/-- The search ends with the first name that is open, if there is one among
those it may try. -/
theorem firstOpen_eq {tries number k : Nat} (hlow : number ≤ k) (hhigh : k ≤ number + tries)
    (hopen : r.isOpenTo path (numbered preferred k) = true)
    (hleast : ∀ j, number ≤ j → j < k → ¬ r.isOpenTo path (numbered preferred j) = true) :
    r.firstOpen path preferred tries number = numbered preferred k := by
  induction tries generalizing number with
  | zero => rw [firstOpen, Nat.le_antisymm hlow hhigh]
  | succ tries ih =>
    rw [firstOpen]
    rcases Nat.eq_or_lt_of_le hlow with rfl | hlt
    · rw [if_pos hopen]
    · rw [if_neg (hleast number (Nat.le_refl _) hlt)]
      exact ih hlt (by omega) fun j hj hjk => hleast j (by omega) hjk

/-- **The name that is found**: the preferred one if the asset may have it,
and else the first numbered one that it may have. -/
theorem openName_spec (r : Registry) (path preferred : String) :
    r.isOpenTo path (r.openName path preferred) = true ∧
      (r.isOpenTo path preferred = true ∧ r.openName path preferred = preferred ∨
        ¬ r.isOpenTo path preferred = true ∧ ∃ k, 1 ≤ k ∧ k ≤ r.names.length ∧
          r.openName path preferred = numbered preferred k ∧
          ∀ j, 1 ≤ j → j < k → ¬ r.isOpenTo path (numbered preferred j) = true) := by
  rw [openName]
  by_cases h : r.isOpenTo path preferred = true
  · rw [if_pos h]
    exact ⟨h, .inl ⟨h, rfl⟩⟩
  · rw [if_neg h]
    have hex : ∃ k, 1 ≤ k ∧ k ≤ r.names.length ∧
        r.isOpenTo path (numbered preferred k) = true := exists_isOpenTo_numbered h
    obtain ⟨hpos, hle, hopen⟩ := Nat.find_spec hex
    have hleast : ∀ j, 1 ≤ j → j < Nat.find hex →
        ¬ r.isOpenTo path (numbered preferred j) = true := fun j hj hlt hjopen =>
      Nat.find_min hex hlt ⟨hj, by omega, hjopen⟩
    have hfirst : r.firstOpen path preferred r.names.length 1 =
        numbered preferred (Nat.find hex) := firstOpen_eq hpos (by omega) hopen hleast
    rw [hfirst]
    exact ⟨hopen, .inr ⟨h, _, hpos, hle, rfl, hleast⟩⟩

end ModuleAssets.Registry
