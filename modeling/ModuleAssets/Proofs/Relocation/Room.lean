import ModuleAssets.Proofs.Patch.Edits
import ModuleAssets.Proofs.Relocation.Layout
import ModuleAssets.Relocation.Walk
/-!
# Room — where a draft accepts edits

A draft accepts an overwrite that covers some of its text and has none across its
ends. `Ready` says that it accepts one of each node of a tree. What happens outside
of the tree keeps that, so that between two drafts only the regions count in which
edits were made.
-/

namespace ModuleAssets

open Syntax

/-! ## Patches -/

theorem Span.Admits.conflict?_eq_none {s other : Span} (h : s.Admits other) :
    Patch.conflict? s other = none := by
  have hfree : (!other.overlaps s || s.containsSpan other) = true := by
    simp only [Span.Admits, Span.Within, Span.Apart] at h
    simp only [Span.overlaps, Span.containsSpan, Bool.or_eq_true, Bool.not_eq_true',
      Bool.and_eq_true, Bool.and_eq_false_iff, decide_eq_true_eq, decide_eq_false_iff_not]
    omega
  rw [Patch.conflict?, if_pos hfree]

namespace Patch

theorem exists_overwrite {p : Patch} {span : Span} (hcovers : span.start < span.stop)
    (hbounded : span.stop ≤ p.length) (hadmits : ∀ o ∈ p.overwrites, span.Admits o.span)
    (text : String) : ∃ q, p.overwrite span text = .ok q := by
  have hbounds : ¬(p.length < span.stop ∨ span.stop < span.start) := by omega
  have hempty : ¬span.isEmpty = true := by
    simp only [Span.isEmpty, beq_iff_eq]
    omega
  have hfree : p.overwrites.findSome? (conflict? span ·.span) = none :=
    List.findSome?_eq_none_iff.2 fun o ho => (hadmits o ho).conflict?_eq_none
  rw [overwrite, if_neg hbounds, if_neg hempty, hfree]
  exact ⟨_, rfl⟩

theorem exists_appendRight {p : Patch} {position : Nat} (hbounded : position ≤ p.length)
    (hfree : ∀ o ∈ p.overwrites, o.span.containsInner position = false) (text : String) :
    ∃ q, p.appendRight position text = .ok q := by
  have hnone : p.overwrites.find? (·.span.containsInner position) = none :=
    List.find?_eq_none.2 fun o ho => by simp [hfree o ho]
  rw [appendRight, if_neg (Nat.not_lt.2 hbounded), hnone]
  exact ⟨_, rfl⟩

end Patch

namespace Draft

/-- An overwrite of the span is accepted. -/
structure Accepts (d : Draft) (span : Span) : Prop where
  covers : span.start < span.stop
  bounded : span.stop ≤ d.patch.length
  admits : ∀ o ∈ d.patch.overwrites, span.Admits o.span

/-- The second draft comes from the first by overwrites within the regions. None of
its edits was left out. -/
structure EditedIn (regions : List Span) (d d' : Draft) : Prop where
  skipped : d'.skipped = d.skipped
  length : d'.patch.length = d.patch.length
  overwrites : ∀ o ∈ d'.patch.overwrites,
    o ∈ d.patch.overwrites ∨ ∃ region ∈ regions, o.span.Within region

/-- All of a tree that is laid out over the text may be overwritten. -/
structure Ready (d : Draft) (t : Tree) : Prop where
  laid : t.Laid
  covers : t.isBare = false → t.span.start < t.span.stop ∧ t.span.stop ≤ d.patch.length
  admits : ∀ o ∈ d.patch.overwrites, t.Admits o.span

variable {d d' d'' : Draft} {regions regions' : List Span} {span : Span} {t inner : Tree}

namespace EditedIn

theorem refl (regions : List Span) (d : Draft) : d.EditedIn regions d :=
  ⟨rfl, rfl, fun _ ho => .inl ho⟩

theorem trans (h : d.EditedIn regions d') (h' : d'.EditedIn regions d'') :
    d.EditedIn regions d'' where
  skipped := h'.skipped.trans h.skipped
  length := h'.length.trans h.length
  overwrites o ho := (h'.overwrites o ho).elim (h.overwrites o) .inr

theorem mono (h : d.EditedIn regions d')
    (hregions : ∀ region ∈ regions, ∃ larger ∈ regions', region.Within larger) :
    d.EditedIn regions' d' where
  skipped := h.skipped
  length := h.length
  overwrites o ho := (h.overwrites o ho).imp_right fun ⟨region, hregion, hwithin⟩ =>
    let ⟨larger, hlarger, hregions⟩ := hregions region hregion
    ⟨larger, hlarger, hwithin.trans hregions⟩

/-- Without regions nothing is overwritten. -/
theorem of_nil (h : d.EditedIn [] d') (regions : List Span) : d.EditedIn regions d' :=
  h.mono fun _ hregion => absurd hregion List.not_mem_nil

end EditedIn

/-! ## Single edits -/

/-- **An overwrite that is accepted changes its span only.** -/
theorem Accepts.edited_overwrite (h : d.Accepts span) (text : String) :
    d.EditedIn [span] (d.overwrite span text) := by
  obtain ⟨q, hq⟩ := Patch.exists_overwrite h.covers h.bounded h.admits text
  rw [overwrite, hq]
  obtain ⟨-, -, -, rfl⟩ := Patch.overwrite_eq_ok hq
  refine ⟨rfl, rfl, fun o ho => ?_⟩
  obtain hold | hnew := List.mem_append.1 ho
  · exact .inl (List.mem_filter.1 hold).1
  · obtain rfl := List.mem_singleton.1 hnew
    exact .inr ⟨span, List.mem_singleton_self span, .refl span⟩

theorem edited_appendRight {position : Nat} (hbounded : position ≤ d.patch.length)
    (hfree : ∀ o ∈ d.patch.overwrites, o.span.containsInner position = false) (text : String) :
    d.EditedIn [] (d.appendRight position text) := by
  obtain ⟨q, hq⟩ := Patch.exists_appendRight hbounded hfree text
  rw [appendRight, hq]
  obtain ⟨-, -, rfl⟩ := Patch.appendRight_eq_ok hq
  exact ⟨rfl, rfl, fun _ ho => .inl ho⟩

/-! ## Room that stays -/

theorem Accepts.edited (h : d.Accepts span) (hedited : d.EditedIn regions d')
    (hregions : ∀ region ∈ regions, span.Admits region) : d'.Accepts span where
  covers := h.covers
  bounded := hedited.length ▸ h.bounded
  admits o ho := by
    obtain hold | ⟨region, hregion, hwithin⟩ := hedited.overwrites o ho
    · exact h.admits o hold
    · exact (hregions region hregion).mono hwithin

/-- Where nothing is overwritten, the same overwrites are accepted. -/
theorem Accepts.of_nil (h : d.Accepts span) (hedited : d.EditedIn [] d') : d'.Accepts span :=
  h.edited hedited fun _ hregion => absurd hregion List.not_mem_nil

namespace Ready

theorem accepts (h : d.Ready t) (hbare : t.isBare = false) : d.Accepts t.span where
  covers := (h.covers hbare).1
  bounded := (h.covers hbare).2
  admits o ho := h.admits o ho t (.refl t) hbare

/-- **A tree stays ready as long as edits keep clear of it.** -/
theorem edited (h : d.Ready t) (hedited : d.EditedIn regions d')
    (hregions : ∀ region ∈ regions, t.Admits region) : d'.Ready t where
  laid := h.laid
  covers hbare := hedited.length ▸ h.covers hbare
  admits o ho := by
    obtain hold | ⟨region, hregion, hwithin⟩ := hedited.overwrites o ho
    · exact h.admits o hold
    · exact (hregions region hregion).mono hwithin

theorem part (h : d.Ready t) (hpart : inner ∈ t.parts) : d.Ready inner where
  laid := h.laid.part hpart
  covers hbare :=
    have hplaced := (h.laid.arranged.1 inner hpart).within hbare
    ⟨hplaced.1, Nat.le_trans hplaced.2.2 (h.covers (Tree.not_bare_of_mem hpart)).2⟩
  admits o ho := (h.admits o ho).part hpart

end Ready

end Draft

end ModuleAssets
