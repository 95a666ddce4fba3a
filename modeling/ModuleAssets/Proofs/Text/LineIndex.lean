import ModuleAssets.Proofs.Sorted
import ModuleAssets.Proofs.Text.Slice
import ModuleAssets.Text.LineIndex
import Mathlib.Data.List.Induction
/-!
# Line index — a search in a table against a count of bytes

The table of a text holds where its lines start: at its own start and just behind each line feed
among its bytes (`ofText_eq`). An offset cuts the table: the lines up to that of the offset start
at or before it, all others behind it (`exists_cut`). So the search ends at the line of the offset,
whether that starts there or before (`lineAt_of_cut`), and the position found is what a count of
the bytes before the offset gives (`positions_exact`).
-/

namespace ModuleAssets

/-- One position comes before another: in an earlier line, or earlier in the same one. -/
def LineCol.Before (p q : LineCol) : Prop :=
  p.line < q.line ∨ p.line = q.line ∧ p.col < q.col

namespace LineIndex

/-- The byte of a line feed. -/
def feed : UInt8 := 10

/-- The position just behind some bytes, counted: the line feeds among them, and the bytes behind
the last of these or, without any, all bytes. -/
def positionBehind (before : List UInt8) : LineCol :=
  ⟨before.count feed, (before.reverse.takeWhile (· ≠ feed)).length⟩

/-- The offsets just behind the line feeds among bytes, the first byte being at `offset`. -/
def startsBehind (offset : Nat) : List UInt8 → List Nat
  | [] => []
  | b :: bs =>
    if b = feed then (offset + 1) :: startsBehind (offset + 1) bs else startsBehind (offset + 1) bs

variable {bytes : List UInt8} {offset start n : Nat}

/-! ## The table -/

theorem startsBehind_append (offset : Nat) (front back : List UInt8) :
    startsBehind offset (front ++ back) =
      startsBehind offset front ++ startsBehind (offset + front.length) back := by
  induction front generalizing offset with
  | nil => rfl
  | cons b bs ih =>
    have hlength : offset + 1 + bs.length = offset + (b :: bs).length := by
      rw [List.length_cons]
      omega
    rw [List.cons_append, startsBehind, startsBehind, ih, hlength]
    split
    · rfl
    · rfl

/-- There is a line for each line feed. -/
theorem length_startsBehind (offset : Nat) (bytes : List UInt8) :
    (startsBehind offset bytes).length = bytes.count feed := by
  induction bytes generalizing offset with
  | nil => rfl
  | cons b bs ih =>
    rw [startsBehind]
    split
    · rename_i hb
      rw [hb, List.length_cons, ih, List.count_cons_self]
    · rename_i hb
      rw [ih, List.count_cons_of_ne hb]

theorem bounds_of_mem_startsBehind (h : n ∈ startsBehind offset bytes) :
    offset < n ∧ n ≤ offset + bytes.length := by
  induction bytes generalizing offset with
  | nil => cases h
  | cons b bs ih =>
    rw [startsBehind] at h
    rw [List.length_cons]
    split at h
    · obtain rfl | hrest := List.mem_cons.1 h
      · omega
      · have := ih hrest
        omega
    · have := ih h
      omega

theorem startsBehind_of_not_mem (h : feed ∉ bytes) : startsBehind offset bytes = [] := by
  rw [← List.length_eq_zero_iff, length_startsBehind, List.count_eq_zero_of_not_mem h]

/-- The bytes of a character that has more than one are no bytes of a character that has one. -/
theorem le_of_mem_utf8EncodeChar {c : Char} {b : UInt8} (hc : 127 < c.toNat)
    (hb : b ∈ String.utf8EncodeChar c) : 128 ≤ b.toNat := by
  change 127 < c.val.toNat at hc
  unfold String.utf8EncodeChar at hb
  dsimp only at hb
  rw [if_neg (by omega)] at hb
  -- two, three or four bytes, each of them with its highest bit set
  split_ifs at hb <;> simp only [List.mem_cons, List.not_mem_nil, or_false] at hb
  · obtain rfl | rfl := hb <;> rw [UInt8.toNat_ofNat'] <;> omega
  · obtain rfl | rfl | rfl := hb <;> rw [UInt8.toNat_ofNat'] <;> omega
  · obtain rfl | rfl | rfl | rfl := hb <;> rw [UInt8.toNat_ofNat'] <;> omega

/-- A line feed is no byte of any other character. -/
theorem feed_mem_utf8EncodeChar {c : Char} : feed ∈ String.utf8EncodeChar c ↔ c = '\n' := by
  constructor
  · intro h
    have hfeed : feed.toNat = 10 := rfl
    have hsmall : c.toNat ≤ 127 := by
      by_contra hlarge
      have := le_of_mem_utf8EncodeChar (Nat.not_le.1 hlarge) h
      omega
    have hsingle : String.utf8EncodeChar c = [UInt8.ofNat c.toNat] := if_pos hsmall
    rw [hsingle, List.mem_singleton, ← UInt8.toNat_inj, UInt8.toNat_ofNat'] at h
    rw [← Char.toNat_inj]
    show c.toNat = 10
    omega
  · rintro rfl
    decide

theorem startsAfter_eq (offset : Nat) (cs : List Char) :
    startsAfter offset cs = startsBehind offset (Text.bytes cs) := by
  induction cs generalizing offset with
  | nil => rfl
  | cons c cs ih =>
    have hbytes : Text.bytes (c :: cs) = String.utf8EncodeChar c ++ Text.bytes cs := rfl
    rw [startsAfter, hbytes, startsBehind_append, String.length_utf8EncodeChar, ih]
    by_cases hc : c = '\n'
    · subst hc
      rfl
    · rw [startsBehind_of_not_mem (mt feed_mem_utf8EncodeChar.1 hc), List.nil_append]
      exact if_neg (by simpa using hc)

/-- The bytes of a text are those of its characters. -/
theorem toUTF8_eq_bytes (text : String) : text.toUTF8.data.toList = Text.bytes text.toList :=
  List.ext_getElem? fun n => by
    rw [← Text.byteAt?_eq_bytes, Text.byteAt?, Array.getElem?_toList]

theorem narrow_of_lt (h : n < UInt32.size) : narrow n = n :=
  Nat.mod_eq_of_lt h

/-- The index of lines behind the line feeds of some bytes. -/
def ofBytes (bytes : List UInt8) : LineIndex :=
  ⟨0 :: startsBehind 0 bytes, bytes.length⟩

/-- **Nothing is lost in 32 bits** if the text is short enough for them. -/
theorem ofText_eq {text : String} (h : text.utf8ByteSize < UInt32.size) :
    ofText text = ofBytes text.toUTF8.data.toList := by
  have hlength : (Text.bytes text.toList).length < UInt32.size := by
    rw [← toUTF8_eq_bytes]
    exact h
  have hstarts : (startsBehind 0 (Text.bytes text.toList)).map narrow =
      startsBehind 0 (Text.bytes text.toList) := by
    refine (List.map_congr_left fun n hn => ?_).trans (List.map_id _)
    -- no line starts behind the end of the text
    have := bounds_of_mem_startsBehind hn
    exact narrow_of_lt (by omega)
  rw [ofText, startsAfter_eq, hstarts, toUTF8_eq_bytes, ofBytes, ← Text.length_bytes,
    narrow_of_lt hlength]

/-! ## The line of an offset -/

/-- The last line that starts among some bytes is the one that stands behind them. -/
theorem exists_last_start (before : List UInt8) :
    ∃ front start, 0 :: startsBehind 0 before = front ++ [start] ∧ start ≤ before.length ∧
      positionBehind before = ⟨front.length, before.length - start⟩ := by
  -- from the end, where the last byte tells whether the line goes on
  induction before using List.reverseRecOn with
  | nil => exact ⟨[], 0, rfl, Nat.le_refl _, rfl⟩
  | append_singleton bs b ih =>
    obtain ⟨front, start, hstarts, hle, hposition⟩ := ih
    rw [positionBehind, LineCol.mk.injEq] at hposition
    obtain ⟨hline, hcol⟩ := hposition
    rw [startsBehind_append, ← List.cons_append, hstarts, Nat.zero_add, positionBehind,
      List.reverse_concat, List.length_append, List.length_singleton]
    by_cases hb : b = feed
    · -- just behind a line feed a line starts
      subst hb
      refine ⟨front ++ [start], bs.length + 1, rfl, Nat.le_refl _, ?_⟩
      rw [List.count_append, hline, List.length_append, Nat.sub_self]
      rfl
    · have hnot : feed ∉ [b] := by simpa using Ne.symm hb
      refine ⟨front, start, ?_, by omega, ?_⟩
      · rw [startsBehind_of_not_mem hnot, List.append_nil]
      · rw [List.count_append, List.count_eq_zero_of_not_mem hnot, hline,
          List.takeWhile_cons_of_pos (by simpa using hb), List.length_cons, hcol, LineCol.mk.injEq]
        omega

/-- **An offset cuts the table.** The lines up to that of the offset start at or before it, all
others behind it. -/
theorem exists_cut (h : offset ≤ bytes.length) :
    ∃ front start later, 0 :: startsBehind 0 bytes = front ++ start :: later ∧
      (∀ n ∈ front, n ≤ offset) ∧ start ≤ offset ∧ (∀ n ∈ later, offset < n) ∧
      positionBehind (bytes.take offset) = ⟨front.length, offset - start⟩ := by
  have hlength : (bytes.take offset).length = offset := List.length_take_of_le h
  obtain ⟨front, start, hstarts, hle, hposition⟩ := exists_last_start (bytes.take offset)
  rw [hlength] at hle hposition
  refine ⟨front, start, startsBehind offset (bytes.drop offset), ?_, fun n hn => ?_, hle,
    fun n hn => (bounds_of_mem_startsBehind hn).1, hposition⟩
  · conv_lhs => rw [← List.take_append_drop offset bytes]
    rw [startsBehind_append, ← List.cons_append, hstarts, hlength, Nat.zero_add,
      List.append_assoc, List.singleton_append]
  · have hmem : n ∈ 0 :: startsBehind 0 (bytes.take offset) :=
      hstarts ▸ List.mem_append_left _ hn
    obtain rfl | hbehind := List.mem_cons.1 hmem
    · exact Nat.zero_le _
    · have := bounds_of_mem_startsBehind hbehind
      omega

/-- **The search ends at the line of the offset,** on a hit and on a miss. -/
theorem lineAt_of_cut {front later : List Nat} {size : Nat} (hfront : ∀ n ∈ front, n ≤ offset)
    (hstart : start ≤ offset) (hlater : ∀ n ∈ later, offset < n) :
    lineAt ⟨front ++ start :: later, size⟩ offset = front.length := by
  have hnot {n : Nat} (hn : n ≤ offset) : compare n offset ≠ .gt := by
    rw [ne_eq, Nat.compare_eq_gt]
    exact Nat.not_lt.2 hn
  have hfound : binarySearch (compare · offset) (front ++ start :: later) =
      if compare start offset = .eq then .ok front.length else .error (front.length + 1) :=
    binarySearch_append (fun n hn => hnot (hfront n hn)) (hnot hstart)
      fun n hn => Nat.compare_eq_gt.2 (hlater n hn)
  rw [lineAt, hfound]
  split_ifs
  · rfl
  · exact Nat.add_sub_cancel _ _

/-! ## Positions -/

/-- **The position found is the one counted.** -/
theorem lineCol?_ofBytes (hsize : bytes.length < UInt32.size) (h : offset ≤ bytes.length) :
    (ofBytes bytes).lineCol? offset = some (positionBehind (bytes.take offset)) := by
  obtain ⟨front, start, later, hstarts, hfront, hstart, hlater, hposition⟩ := exists_cut h
  have hline : front.length < UInt32.size := by
    have hcount : front.length = (bytes.take offset).count feed :=
      (congrArg LineCol.line hposition).symm
    have := List.count_le_length (a := feed) (l := bytes.take offset)
    have := List.length_take_le offset bytes
    omega
  have hat : (front ++ start :: later)[front.length]? = some start := by simp
  rw [hposition, ofBytes, hstarts, lineCol?, if_neg (Nat.not_lt.2 h),
    lineAt_of_cut hfront hstart hlater]
  dsimp only
  rw [hat, Option.map_some, narrow_of_lt hline]

/-- The position counted leads back to the offset. -/
theorem offset?_positionBehind (h : offset ≤ bytes.length) :
    (ofBytes bytes).offset? (positionBehind (bytes.take offset)) = some offset := by
  obtain ⟨front, start, later, hstarts, -, hstart, -, hposition⟩ := exists_cut h
  have hat : (front ++ start :: later)[front.length]? = some start := by simp
  rw [hposition, ofBytes, hstarts, offset?]
  dsimp only
  rw [hat, Option.map_some, Nat.add_sub_cancel' hstart]

theorem lineCol?_eq_none (h : bytes.length < offset) : (ofBytes bytes).lineCol? offset = none :=
  if_pos h

/-- **Positions come in the order of the offsets.** -/
theorem before_positionBehind {a b : Nat} (hab : a < b) (hb : b ≤ bytes.length) :
    (positionBehind (bytes.take a)).Before (positionBehind (bytes.take b)) := by
  have hle : a ≤ b := Nat.le_of_lt hab
  have hline : (bytes.take a).count feed ≤ (bytes.take b).count feed :=
    (List.take_sublist_take_left hle).count_le feed
  obtain hlt | heq := Nat.lt_or_eq_of_le hline
  · exact .inl hlt
  · -- both columns are counted from the start of the same line
    refine .inr ⟨heq, ?_⟩
    obtain ⟨start, hstart, hcol⟩ :=
      Option.map_eq_some_iff.1 (offset?_positionBehind (Nat.le_trans hle hb))
    obtain ⟨start', hstart', hcol'⟩ := Option.map_eq_some_iff.1 (offset?_positionBehind hb)
    have hsame : start = start' :=
      Option.some_inj.1 (hstart.symm.trans ((congrArg _ heq).trans hstart'))
    omega

/-- **Positions are exact.** There is a line more than line feeds. Each offset in the text or at its
end has the position that a count of the bytes before it gives, which leads back to the offset;
later offsets have later positions, and offsets behind the text have none. -/
theorem positions_exact {text : String} (hsize : text.utf8ByteSize < UInt32.size) :
    let index := ofText text
    let bytes := text.toUTF8.data.toList
    index.lineCount = bytes.count feed + 1 ∧
      (∀ offset ≤ bytes.length,
        index.lineCol? offset = some (positionBehind (bytes.take offset)) ∧
          index.offset? (positionBehind (bytes.take offset)) = some offset) ∧
      (∀ a b p q, a < b → index.lineCol? a = some p → index.lineCol? b = some q → p.Before q) ∧
      ∀ offset, bytes.length < offset → index.lineCol? offset = none := by
  have hlength : text.toUTF8.data.toList.length < UInt32.size := hsize
  dsimp only
  rw [ofText_eq hsize]
  refine ⟨?_, fun offset hoffset =>
    ⟨lineCol?_ofBytes hlength hoffset, offset?_positionBehind hoffset⟩, ?_,
    fun offset => lineCol?_eq_none⟩
  · rw [lineCount, ofBytes, List.length_cons, length_startsBehind]
  · intro a b p q hab hp hq
    have hb : b ≤ text.toUTF8.data.toList.length := by
      by_contra hpast
      rw [lineCol?_eq_none (Nat.not_le.1 hpast)] at hq
      cases hq
    rw [lineCol?_ofBytes hlength (Nat.le_trans (Nat.le_of_lt hab) hb), Option.some_inj] at hp
    rw [lineCol?_ofBytes hlength hb, Option.some_inj] at hq
    rw [← hp, ← hq]
    exact before_positionBehind hab hb

/-- An empty line between two others, and a letter of two bytes. -/
theorem positions_exact_empty_line :
    "é\n\nb".utf8ByteSize < UInt32.size ∧ (ofText "é\n\nb").lineCount = 3 ∧
      (ofText "é\n\nb").lineCol? 2 = some ⟨0, 2⟩ ∧ (ofText "é\n\nb").lineCol? 3 = some ⟨1, 0⟩ ∧
      (ofText "é\n\nb").offset? ⟨2, 1⟩ = some 5 ∧ (ofText "é\n\nb").lineCol? 6 = none := by
  have hsize : "é\n\nb".utf8ByteSize < UInt32.size := by decide
  obtain ⟨hcount, hpositions, -, hpast⟩ := positions_exact hsize
  exact ⟨hsize, hcount.trans (by decide), (hpositions 2 (by decide)).1.trans (by decide),
    (hpositions 3 (by decide)).1.trans (by decide), (hpositions 5 (by decide)).2,
    hpast 6 (by decide)⟩

end LineIndex

end ModuleAssets
