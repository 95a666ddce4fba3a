import ModuleAssets.Text.Units
import Mathlib.Data.List.Infix
import Mathlib.Data.List.Induction
/-!
# Code units — a text ends where its units end

A character beyond the basic plane has two units, and the second of them is no unit of its own.
So the last unit of a text tells whether the one before belongs to it, and texts can be read off
their units from the end: one text ends with another exactly if its units end with those of the
other (`units_suffix_iff`).
-/

namespace ModuleAssets.Text

variable {c d : Char} {cs ds : List Char}

/-- The units of a character tell it, if it is one of the first 128. -/
theorem mem_unitsOf_iff (hd : d.toNat < 0x80) : d.toNat ∈ unitsOf c ↔ c = d := by
  unfold unitsOf
  split
  · rw [List.mem_singleton, Char.toNat_inj, eq_comm]
  · rename_i hbeyond
    refine iff_of_false (fun hmem => ?_) fun heq => hbeyond (by rw [heq]; omega)
    simp only [List.mem_cons, List.not_mem_nil, or_false] at hmem
    omega

theorem unitsOf_ne_nil (c : Char) : unitsOf c ≠ [] := by
  unfold unitsOf
  split
  · exact List.cons_ne_nil _ _
  · exact List.cons_ne_nil _ _

/-- A character is a unit that is no half of two, or it is two halves. -/
theorem unitsOf_cases (c : Char) :
    (unitsOf c = [c.toNat] ∧ (c.toNat < 0xD800 ∨ 0xDFFF < c.toNat)) ∨
      ∃ high low, unitsOf c = [0xD800 + high, 0xDC00 + low] ∧ low < 0x400 ∧
        c.toNat = 0x10000 + high * 0x400 + low := by
  have hvalid : c.toNat < 0xD800 ∨ 0xDFFF < c.toNat ∧ c.toNat < 0x110000 := c.valid
  unfold unitsOf
  split
  · exact .inl ⟨rfl, by omega⟩
  · exact .inr ⟨_, _, rfl, Nat.mod_lt _ (by decide), by omega⟩

theorem eq_of_unitsOf_suffix (h : unitsOf c <:+ unitsOf d) : c = d := by
  rw [← Char.toNat_inj]
  rcases unitsOf_cases c with ⟨hc, hsingle⟩ | ⟨high, low, hc, hlow, hcode⟩ <;>
    rcases unitsOf_cases d with ⟨hd, hsingle'⟩ | ⟨high', low', hd, hlow', hcode'⟩
  · rw [hc, hd, List.suffix_cons_iff] at h
    simpa using h
  · -- a single unit is no second half
    rw [hc, hd] at h
    have heq : c.toNat = 0xDC00 + low' := by
      simpa [List.suffix_cons_iff] using h
    omega
  · rw [hc, hd] at h
    exact absurd h.length_le (by simp)
  · rw [hc, hd] at h
    have heq := h.eq_of_length rfl
    simp only [List.cons.injEq, and_true] at heq
    omega

/-- **A text ends with another if its units do.** The induction is on the other one, from its
end. -/
theorem units_suffix_iff : ds.flatMap unitsOf <:+ cs.flatMap unitsOf ↔ ds <:+ cs := by
  constructor
  · intro h
    induction ds using List.reverseRecOn generalizing cs with
    | nil => exact List.nil_suffix
    | append_singleton front d ih =>
      rw [List.flatMap_append, List.flatMap_singleton] at h
      obtain rfl | ⟨before, c, rfl⟩ := List.eq_nil_or_concat' cs
      · exact absurd (List.append_eq_nil_iff.1 (List.suffix_nil.1 h)).2 (unitsOf_ne_nil d)
      rw [List.flatMap_append, List.flatMap_singleton] at h
      have hd := (List.suffix_append _ _).trans h
      have hcd : c = d := by
        obtain hsuffix | hsuffix :=
          List.suffix_or_suffix_of_suffix (List.suffix_append (before.flatMap unitsOf) (unitsOf c)) hd
        · exact eq_of_unitsOf_suffix hsuffix
        · exact (eq_of_unitsOf_suffix hsuffix).symm
      obtain ⟨more, hmore⟩ := h
      rw [hcd, ← List.append_assoc, List.append_cancel_right_eq] at hmore
      obtain ⟨rest, hrest⟩ := ih ⟨more, hmore⟩
      exact ⟨rest, by rw [← List.append_assoc, hrest, hcd]⟩
  · rintro ⟨front, rfl⟩
    rw [List.flatMap_append]
    exact List.suffix_append _ _

theorem units_inj : cs.flatMap unitsOf = ds.flatMap unitsOf ↔ cs = ds := by
  refine ⟨fun h => ?_, congrArg _⟩
  have hsuffix : cs <:+ ds := units_suffix_iff.1 (h ▸ List.suffix_rfl)
  have hsuffix' : ds <:+ cs := units_suffix_iff.1 (h ▸ List.suffix_rfl)
  exact hsuffix.eq_of_length (Nat.le_antisymm hsuffix.length_le hsuffix'.length_le)

end ModuleAssets.Text
