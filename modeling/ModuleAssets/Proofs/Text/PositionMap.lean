import ModuleAssets.Proofs.Sorted
import ModuleAssets.Text.PositionMap
import Mathlib.Data.List.Pairwise
/-!
# Position maps — looking up positions in both directions

Where the spans of the patched text come one after another, the binary search
finds the one mapping that a position lies in, and nothing in the gaps. Where
the given spans do so too, the first match in the other direction is the only
one, and both directions are inverse to each other on text that is copied.
-/

namespace ModuleAssets

theorem Span.contains_eq_true {s : Span} {n : Nat} :
    s.contains n = true ↔ s.start ≤ n ∧ n < s.stop := by
  simp [Span.contains]

namespace PositionMap

/-- The spans of the patched text are not empty, and each of them ends before
the next one begins. -/
structure Ordered (map : PositionMap) : Prop where
  nonempty : ∀ m ∈ map.mappings, m.generated.start < m.generated.stop
  apart : map.mappings.Pairwise fun a b => a.generated.stop ≤ b.generated.start

/-- The given spans, too, come one after another. -/
structure Aligned (map : PositionMap) : Prop extends map.Ordered where
  given : map.mappings.Pairwise fun a b => a.given.stop ≤ b.given.start

variable {map : PositionMap} {m m' : Mapping} {offset : Nat}

/-! ## From the patched text -/

/-- The mappings behind a position are behind all others. -/
theorem Ordered.greaterLast (h : map.Ordered) (offset : Nat) :
    GreaterLast (fun m => compare m.generated.start offset) map.mappings := by
  refine h.apart.imp_of_mem fun {a b} ha _ hab hgt => ?_
  have := h.nonempty a ha
  simp only [Nat.compare_eq_gt] at hgt ⊢
  omega

/-- **The search finds the mapping that a position lies in.** -/
theorem Ordered.mappingAt?_of_contains (h : map.Ordered) (hm : m ∈ map.mappings)
    (hcontains : m.generated.contains offset) : map.mappingAt? offset = some m := by
  obtain ⟨k, hk⟩ := List.mem_iff_getElem?.1 hm
  have hbounds := Span.contains_eq_true.1 hcontains
  have hfound := binarySearch_of_last (h.greaterLast offset) hk
    (by simp only [ne_eq, Nat.compare_eq_gt]; omega) fun j x hj hx => by
      -- a later mapping starts behind the one that the position lies in
      obtain ⟨hklt, rfl⟩ := List.getElem?_eq_some_iff.1 hk
      obtain ⟨hjlt, rfl⟩ := List.getElem?_eq_some_iff.1 hx
      have := List.pairwise_iff_getElem.1 h.apart k j hklt hjlt hj
      simp only [Nat.compare_eq_gt]
      omega
  rw [mappingAt?, hfound]
  split
  · rename_i index heq
    split at heq
    · cases heq
      simp [hk, hcontains]
    · cases heq
  · rename_i index heq
    split at heq
    · cases heq
    · cases heq
      simp [hk, hcontains]

/-- **A position has a mapping if and only if it lies in that one.** -/
theorem Ordered.mappingAt?_eq_some (h : map.Ordered) :
    map.mappingAt? offset = some m ↔ m ∈ map.mappings ∧ m.generated.contains offset := by
  constructor
  · intro hfound
    obtain ⟨hm, hcontains⟩ := Option.filter_eq_some_iff.1 hfound
    exact ⟨List.mem_of_getElem? hm, hcontains⟩
  · rintro ⟨hm, hcontains⟩
    exact h.mappingAt?_of_contains hm hcontains

theorem Ordered.givenPosition_of_contains (h : map.Ordered) (hm : m ∈ map.mappings)
    (hcontains : m.generated.contains offset) :
    map.givenPosition offset = some (transfer m.generated m.given offset) := by
  rw [givenPosition, h.mappingAt?_of_contains hm hcontains, Option.map_some]

theorem Ordered.givenPosition_eq_none (h : map.Ordered)
    (hnone : ∀ m ∈ map.mappings, ¬ m.generated.contains offset) :
    map.givenPosition offset = none := by
  rw [givenPosition, Option.map_eq_none_iff, Option.eq_none_iff_forall_ne_some]
  intro m hm
  obtain ⟨hmem, hcontains⟩ := h.mappingAt?_eq_some.1 hm
  exact hnone m hmem hcontains

/-! ## From the given text -/

/-- Of two mappings one comes before the other, in both texts. -/
theorem Aligned.before_or_after (h : map.Aligned) (hm : m ∈ map.mappings) (hm' : m' ∈ map.mappings)
    (hne : m ≠ m') :
    (m.generated.stop ≤ m'.generated.start ∧ m.given.stop ≤ m'.given.start) ∨
      (m'.generated.stop ≤ m.generated.start ∧ m'.given.stop ≤ m.given.start) := by
  let Before (a b : Mapping) : Prop :=
    (a.generated.stop ≤ b.generated.start ∧ a.given.stop ≤ b.given.start) ∨
      (b.generated.stop ≤ a.generated.start ∧ b.given.stop ≤ a.given.start)
  have hsymm : Std.Symm Before := ⟨fun _ _ => Or.symm⟩
  have hpair : map.mappings.Pairwise Before := (h.apart.and h.given).imp Or.inl
  exact hpair.forall hm hm' hne

/-- **The first match is the only one.** -/
theorem Aligned.generatedPosition_of_contains (h : map.Aligned) (hm : m ∈ map.mappings)
    (hcontains : m.given.contains offset) :
    map.generatedPosition offset = some (transfer m.given m.generated offset) := by
  have hfound : map.mappings.find? (·.given.contains offset) = some m := by
    cases hfind : map.mappings.find? (·.given.contains offset) with
    | none => exact absurd hcontains (List.find?_eq_none.1 hfind m hm)
    | some m' =>
      refine congrArg some (Classical.byContradiction fun hne => ?_)
      have hmatch : m'.given.contains offset = true := by simpa using List.find?_some hfind
      have hfirst := Span.contains_eq_true.1 hmatch
      have hbounds := Span.contains_eq_true.1 hcontains
      have := h.before_or_after (List.mem_of_find?_eq_some hfind) hm hne
      omega
  rw [generatedPosition, hfound, Option.map_some]

theorem generatedPosition_eq_none (hnone : ∀ m ∈ map.mappings, ¬ m.given.contains offset) :
    map.generatedPosition offset = none := by
  rw [generatedPosition, Option.map_eq_none_iff, List.find?_eq_none]
  exact hnone

theorem transfer_shift (n size k : Nat) (outside : Span) :
    transfer ⟨n, n + size⟩ outside (n + k) = transfer ⟨0, size⟩ outside k := by
  have hlength : (Span.mk n (n + size)).length = (Span.mk 0 size).length := by
    simp [Span.length]
  rw [transfer, transfer, hlength, Nat.add_sub_cancel_left]
  rfl

theorem transfer_of_length_eq {inside outside : Span} (h : inside.length = outside.length) :
    transfer inside outside offset = outside.start + (offset - inside.start) := by
  rw [transfer, if_pos h]

/-- **There and back.** On text that is copied the two directions are inverse
to each other. -/
theorem Aligned.exists_generatedPosition (h : map.Aligned) (hm : m ∈ map.mappings)
    (hlength : m.generated.length = m.given.length) (hcontains : m.given.contains offset) :
    ∃ g, map.generatedPosition offset = some g ∧ map.givenPosition g = some offset := by
  have hbounds := Span.contains_eq_true.1 hcontains
  refine ⟨_, h.generatedPosition_of_contains hm hcontains, ?_⟩
  rw [transfer_of_length_eq hlength.symm]
  rw [Span.length, Span.length] at hlength
  have hthere : m.generated.contains (m.generated.start + (offset - m.given.start)) :=
    Span.contains_eq_true.2 (by omega)
  rw [h.givenPosition_of_contains hm hthere, transfer_of_length_eq hlength, Option.some.injEq]
  omega

end PositionMap

end ModuleAssets
