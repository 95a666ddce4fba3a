import ModuleAssets.Json.Value
import Mathlib.Data.List.Nodup
import Mathlib.Tactic.Common
/-!
# Members — tables with keys

Members are kept as a list of keys with values. `setMember` and `member?`
make it a table: what is looked up is what was set last, and a key that is set
again keeps its place.
-/

namespace ModuleAssets.Json

variable {α : Type} {members more : List (String × α)} {key other : String} {value : α}

theorem member?_cons (k : String) (v : α) (rest : List (String × α)) (key : String) :
    member? ((k, v) :: rest) key = if k = key then some v else member? rest key := by
  rw [member?, List.find?_cons]
  by_cases h : k = key
  · rw [if_pos h, beq_iff_eq.2 h, Option.map_some]
  · rw [if_neg h, beq_false_of_ne h, member?]

theorem member?_eq_none : member? members key = none ↔ key ∉ members.map (·.1) := by
  rw [member?, Option.map_eq_none_iff, List.find?_eq_none, List.mem_map]
  constructor
  · rintro h ⟨m, hm, hkey⟩
    exact h m hm (beq_iff_eq.2 hkey)
  · intro h m hm hkey
    exact h ⟨m, hm, beq_iff_eq.1 hkey⟩

/-- **What is set is looked up**, and nothing else changes. -/
theorem member?_setMember (members : List (String × α)) (key : String) (value : α)
    (other : String) : member? (setMember members key value) other =
      if key = other then some value else member? members other := by
  induction members with
  | nil => rw [setMember, member?_cons]
  | cons m rest ih =>
    obtain ⟨k, v⟩ := m
    rw [setMember]
    by_cases h : k = key
    · rw [if_pos h, member?_cons, member?_cons, h]
      split
      · rfl
      · rfl
    · rw [if_neg h, member?_cons, member?_cons, ih]
      by_cases hother : key = other
      · rw [if_pos hother, if_pos hother, if_neg (hother ▸ h)]
      · rw [if_neg hother, if_neg hother]

/-- A new key comes last. -/
theorem setMember_of_member?_eq_none (h : member? members key = none) (value : α) :
    setMember members key value = members ++ [(key, value)] := by
  induction members with
  | nil => rfl
  | cons m rest ih =>
    obtain ⟨k, v⟩ := m
    rw [member?_cons] at h
    by_cases hk : k = key
    · rw [if_pos hk] at h
      cases h
    · rw [if_neg hk] at h
      rw [setMember, if_neg hk, ih h, List.cons_append]

/-- An old key keeps its place. -/
theorem map_fst_setMember_of_mem (h : key ∈ members.map (·.1)) (value : α) :
    (setMember members key value).map (·.1) = members.map (·.1) := by
  induction members with
  | nil => cases h
  | cons m rest ih =>
    obtain ⟨k, v⟩ := m
    rw [setMember]
    by_cases hk : k = key
    · rw [if_pos hk, List.map_cons, List.map_cons]
    · rw [if_neg hk, List.map_cons, List.map_cons]
      rw [List.map_cons, List.mem_cons] at h
      rw [ih (h.resolve_left (Ne.symm hk))]

/-- Keys that occur once go on to do so. -/
theorem nodup_setMember (h : (members.map (·.1)).Nodup) (key : String) (value : α) :
    ((setMember members key value).map (·.1)).Nodup := by
  by_cases hkey : key ∈ members.map (·.1)
  · rwa [map_fst_setMember_of_mem hkey]
  · rw [setMember_of_member?_eq_none (member?_eq_none.2 hkey), List.map_append]
    exact h.append (List.nodup_singleton _) (by simpa using hkey)

/-- Setting what is there changes nothing. -/
theorem setMember_of_member?_eq_some (h : member? members key = some value) :
    setMember members key value = members := by
  induction members with
  | nil => cases h
  | cons m rest ih =>
    obtain ⟨k, v⟩ := m
    rw [member?_cons] at h
    by_cases hk : k = key
    · rw [if_pos hk, Option.some.injEq] at h
      rw [setMember, if_pos hk, h]
    · rw [if_neg hk] at h
      rw [setMember, if_neg hk, ih h]

theorem foldl_setMember (h : ((members ++ more).map (·.1)).Nodup) :
    more.foldl (fun merged m => setMember merged m.1 m.2) members = members ++ more := by
  induction more generalizing members with
  | nil => exact (List.append_nil _).symm
  | cons m more ih =>
    obtain ⟨key, value⟩ := m
    have hnew : key ∉ members.map (·.1) := by
      intro hkey
      rw [List.map_append, List.map_cons, List.nodup_middle, List.nodup_cons] at h
      exact h.1 (List.mem_append_left _ hkey)
    rw [List.foldl_cons, setMember_of_member?_eq_none (member?_eq_none.2 hnew), ih,
      List.append_assoc, List.singleton_append]
    rwa [List.append_assoc]

/-- Keys that occur once keep their members. -/
theorem mergeMembers_eq_self (h : (members.map (·.1)).Nodup) : mergeMembers members = members :=
  foldl_setMember (List.nil_append members ▸ h)

/-- Merged members have each key once. -/
theorem nodup_mergeMembers (members : List (String × α)) :
    ((mergeMembers members).map (·.1)).Nodup := by
  have hfold (merged : List (String × α)) (h : (merged.map (·.1)).Nodup) :
      ((members.foldl (fun merged m => setMember merged m.1 m.2) merged).map (·.1)).Nodup := by
    induction members generalizing merged with
    | nil => exact h
    | cons m rest ih => exact ih _ (nodup_setMember h m.1 m.2)
  exact hfold [] List.nodup_nil

/-- Where keys occur once, what is looked up is what stands in the list. -/
theorem member?_eq_some (h : (members.map (·.1)).Nodup) :
    member? members key = some value ↔ (key, value) ∈ members := by
  induction members with
  | nil => simp [member?]
  | cons m rest ih =>
    obtain ⟨k, v⟩ := m
    rw [List.map_cons, List.nodup_cons] at h
    rw [member?_cons, List.mem_cons, Prod.mk.injEq]
    by_cases hk : k = key
    · have hrest : (key, value) ∉ rest := fun hmem =>
        h.1 (hk ▸ List.mem_map.2 ⟨_, hmem, rfl⟩)
      rw [if_pos hk, Option.some.injEq]
      constructor
      · intro hv
        exact .inl ⟨hk.symm, hv.symm⟩
      · rintro (⟨-, hv⟩ | hmem)
        · exact hv.symm
        · exact absurd hmem hrest
    · rw [if_neg hk, ih h.2]
      constructor
      · exact .inr
      · rintro (⟨hkey, -⟩ | hmem)
        · exact absurd hkey.symm hk
        · exact hmem

end ModuleAssets.Json
