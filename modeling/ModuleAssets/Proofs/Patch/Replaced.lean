import ModuleAssets.Proofs.Patch.Positions
/-!
# Patches — the positions of replaced text

A mapping does not tell whether its text is copied or put in the place of other text. A
lookup goes by the lengths: where the two spans of a mapping have one length, positions
correspond one to one, and otherwise all of them go to the start. So what a position inside
replaced text is mapped to depends on whether the text is as long as what it replaces
(`positions_of_replaced`). Both lookups find the mapping of the replaced text whatever stands
beside it, since the spans of the parts rise in both texts (`aligned_apply`).
-/

namespace ModuleAssets

namespace Patch

variable {p : Patch} {text : String} {edits : List Edit} {o : Overwrite} {front back : List Piece}
variable {k : Nat}

/-- Every overwrite that is held has its part. -/
theorem exists_replaced (h : o ∈ p.overwrites) (text : String) :
    ∃ front back, p.parts text = front ++ .replaced o.span o.text :: back :=
  List.append_of_mem (replaced_mem_pieces.2 (mem_sortedOverwrites.2 h))

/-- The bytes of the replacement are where its part is written. -/
theorem lies_replaced (h : p.parts text = front ++ .replaced o.span o.text :: back)
    (hk : k < Text.byteLength o.text.toList) :
    Lies (p.parts text) (sizeOfParts front + k) (.replaced o.span o.text) k :=
  ⟨front, back, h, rfl, hk⟩

theorem givenPosition_of_replaced (h : p.parts text = front ++ .replaced o.span o.text :: back)
    (hk : k < Text.byteLength o.text.toList) :
    (p.apply text).map.givenPosition (sizeOfParts front + k) =
      some (if Text.byteLength o.text.toList = o.span.length then o.span.start + k
        else o.span.start) := by
  have hposition := givenPosition_of_lies (lies_replaced h hk)
  have hlength : (Span.mk 0 (Text.byteLength o.text.toList)).length =
      Text.byteLength o.text.toList := Nat.sub_zero _
  have htransfer : PositionMap.transfer ⟨0, Text.byteLength o.text.toList⟩ o.span k =
      if Text.byteLength o.text.toList = o.span.length then o.span.start + k else o.span.start := by
    rw [PositionMap.transfer, hlength]
    rfl
  rw [hposition, ← htransfer]
  rfl

theorem generatedPosition_of_replaced (hsound : Sound text.toList p)
    (h : p.parts text = front ++ .replaced o.span o.text :: back)
    (hne : 0 < Text.byteLength o.text.toList) (hk : k < o.span.length) :
    (p.apply text).map.generatedPosition (o.span.start + k) =
      some (if Text.byteLength o.text.toList = o.span.length then sizeOfParts front + k
        else sizeOfParts front) := by
  have hmapping := (lies_replaced h hne).mapping_mem rfl
  have hwritten : (Span.mk (sizeOfParts front)
      (sizeOfParts front + Text.byteLength o.text.toList)).length =
        Text.byteLength o.text.toList := Nat.add_sub_cancel_left _ _
  have hcontains : o.span.contains (o.span.start + k) = true := by
    rw [Span.length] at hk
    rw [Span.contains_eq_true]
    omega
  have hfound := (aligned_apply hsound).generatedPosition_of_contains hmapping hcontains
  have htransfer : PositionMap.transfer o.span ⟨sizeOfParts front,
      sizeOfParts front + Text.byteLength o.text.toList⟩ (o.span.start + k) =
        if Text.byteLength o.text.toList = o.span.length then sizeOfParts front + k
        else sizeOfParts front := by
    rw [PositionMap.transfer, hwritten, Nat.add_sub_cancel_left]
    exact if_congr eq_comm rfl rfl
  rw [hfound, ← htransfer]
  rfl

/-! ## Main statement -/

/-- **Replaced text is mapped by its length.** After any calls, the text of each overwrite
that is held and not empty is found in the patched text. If it is not as long as what it
replaces, all its positions are mapped to the start of that, and all positions of that to its
own start. If it is as long, positions correspond one to one. So all of them are mapped to the
starts exactly if the lengths differ or are one. -/
theorem positions_of_replaced (h : o ∈ ((ofText text).run edits).overwrites) (hne : o.text ≠ "") :
    let p := (ofText text).run edits
    let map := (p.apply text).map
    let size := Text.byteLength o.text.toList
    ∃ front back, p.parts text = front ++ .replaced o.span o.text :: back ∧
      (∀ k < size, map.givenPosition (sizeOfParts front + k) =
        some (if size = o.span.length then o.span.start + k else o.span.start)) ∧
      (∀ k < o.span.length, map.generatedPosition (o.span.start + k) =
        some (if size = o.span.length then sizeOfParts front + k else sizeOfParts front)) ∧
      (((∀ k < size, map.givenPosition (sizeOfParts front + k) = some o.span.start) ∧
          ∀ k < o.span.length,
            map.generatedPosition (o.span.start + k) = some (sizeOfParts front)) ↔
        size ≠ o.span.length ∨ o.span.length = 1) := by
  intro p map size
  have hsound : Sound text.toList p := (sound_ofText text).run edits
  have hsize : 0 < size := Nat.pos_of_ne_zero fun hzero =>
    hne (String.toList_eq_nil_iff.1 (Text.byteLength_eq_zero.1 hzero))
  obtain ⟨front, back, hparts⟩ := exists_replaced h text
  have hgiven (k : Nat) (hk : k < size) := givenPosition_of_replaced hparts hk
  have hgenerated (k : Nat) (hk : k < o.span.length) :=
    generatedPosition_of_replaced hsound hparts hsize hk
  refine ⟨front, back, hparts, hgiven, hgenerated, ?_⟩
  constructor
  · rintro ⟨hstart, -⟩
    by_contra hsame
    obtain ⟨hlength, hlong⟩ := not_or.1 hsame
    rw [not_not] at hlength
    -- the second byte is mapped to the second byte
    have hsecond := hgiven 1 (by omega)
    rw [if_pos hlength, hstart 1 (by omega), Option.some.injEq] at hsecond
    omega
  · intro hlength
    refine ⟨fun k hk => ?_, fun k hk => ?_⟩
    · rw [hgiven k hk]
      split
      · have hzero : k = 0 := by omega
        rw [hzero, Nat.add_zero]
      · rfl
    · rw [hgenerated k hk]
      split
      · have hzero : k = 0 := by omega
        rw [hzero, Nat.add_zero]
      · rfl

/-- A replacement that is longer than what it replaces, beside one that is as long and a
removal. -/
theorem positions_of_replaced_longer :
    let edits : List Edit := [.overwrite ⟨1, 2⟩ "BC", .overwrite ⟨2, 3⟩ "Z", .remove ⟨3, 4⟩]
    let p := (ofText "abcde").run edits
    (⟨⟨1, 2⟩, "BC"⟩ : Overwrite) ∈ p.overwrites ∧ "BC" ≠ "" ∧
      ∃ front back, p.parts "abcde" = front ++ .replaced ⟨1, 2⟩ "BC" :: back ∧
        (∀ k < 2, (p.apply "abcde").map.givenPosition (sizeOfParts front + k) = some 1) ∧
        ∀ k < 1, (p.apply "abcde").map.generatedPosition (1 + k) = some (sizeOfParts front) := by
  intro edits p
  have h : (⟨⟨1, 2⟩, "BC"⟩ : Overwrite) ∈ p.overwrites := by decide
  have hne : "BC" ≠ "" := by decide
  obtain ⟨front, back, hparts, -, -, hstarts⟩ := positions_of_replaced h hne
  exact ⟨h, hne, front, back, hparts, hstarts.2 (.inr rfl)⟩

/-- **A replacement as long as what it replaces is mapped like a copy.** Its second byte does
not lead to the start of what is replaced, nor does that go to the start of the replacement. -/
theorem replaced_like_copied :
    let p := (ofText "abcd").run [.overwrite ⟨1, 3⟩ "XY"]
    (⟨⟨1, 3⟩, "XY"⟩ : Overwrite) ∈ p.overwrites ∧ (p.apply "abcd").code = "aXYd" ∧
      (p.apply "abcd").map.givenPosition 2 = some 2 ∧
      (p.apply "abcd").map.generatedPosition 2 = some 2 := by
  decide +kernel

end Patch

end ModuleAssets
