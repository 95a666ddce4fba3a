import ModuleAssets.Text.Slice
/-!
# Slices — cutting between characters

A position of a text is a boundary if some of the characters end there. Both
cuts of a slice are made at boundaries, and between two of them the slice is
the characters that stand there.
-/

namespace ModuleAssets.Text

@[simp] theorem byteLength_nil : byteLength [] = 0 := rfl

@[simp] theorem byteLength_cons (c : Char) (cs : List Char) :
    byteLength (c :: cs) = c.utf8Size + byteLength cs := rfl

@[simp] theorem byteLength_append (front back : List Char) :
    byteLength (front ++ back) = byteLength front + byteLength back := by
  induction front with
  | nil => simp
  | cons c cs ih => simp [ih]; omega

/-- Only the empty text takes no bytes. -/
theorem byteLength_eq_zero {cs : List Char} : byteLength cs = 0 ↔ cs = [] := by
  cases cs with
  | nil => simp
  | cons c cs =>
    have := c.utf8Size_pos
    simp; omega

/-- The position `n` lies between two characters, or at an end of the text. -/
def IsBoundary (cs : List Char) (n : Nat) : Prop :=
  ∃ front back, cs = front ++ back ∧ byteLength front = n

theorem isBoundary_byteLength (cs : List Char) : IsBoundary cs (byteLength cs) :=
  ⟨cs, [], by simp, rfl⟩

/-- A text of `n` characters of one byte. All its positions are boundaries. -/
def evenText (n : Nat) : List Char :=
  List.replicate n 'x'

@[simp] theorem byteLength_evenText (n : Nat) : byteLength (evenText n) = n := by
  induction n with
  | zero => rfl
  | succ n ih =>
    have hx : 'x'.utf8Size = 1 := rfl
    rw [evenText, List.replicate_succ, byteLength_cons, hx, ← evenText, ih, Nat.add_comm]

theorem isBoundary_evenText {n k : Nat} (h : k ≤ n) : IsBoundary (evenText n) k := by
  refine ⟨evenText k, evenText (n - k), ?_, byteLength_evenText k⟩
  rw [evenText, evenText, evenText, List.replicate_append_replicate, Nat.add_sub_cancel' h]

/-- A boundary cuts the characters that stand before it from the rest. -/
theorem IsBoundary.split {front back : List Char} {n : Nat}
    (h : IsBoundary (front ++ back) n) (hn : byteLength front ≤ n) :
    ∃ mid rest, back = mid ++ rest ∧ byteLength front + byteLength mid = n := by
  obtain ⟨front', back', heq, rfl⟩ := h
  rcases List.append_eq_append_iff.1 heq with ⟨mid, hfront, hback⟩ | ⟨mid, hfront, -⟩
  · exact ⟨mid, back', hback, by simp [hfront]⟩
  · -- the cut does not lie beyond `front`, so it lies at its end
    refine ⟨[], back, rfl, ?_⟩
    rw [hfront, byteLength_append] at hn ⊢
    simp only [byteLength_nil]
    omega

/-- No boundary lies within a character. -/
theorem IsBoundary.le_of_lt {front back : List Char} {c : Char} {n : Nat}
    (h : IsBoundary (front ++ c :: back) n) (hn : byteLength front < n) :
    byteLength front + c.utf8Size ≤ n := by
  obtain ⟨mid, rest, heq, hmid⟩ := h.split (Nat.le_of_lt hn)
  cases mid with
  | nil => simp at hmid; omega
  | cons d ds =>
    rw [List.cons_append, List.cons.injEq] at heq
    rw [byteLength_cons, ← heq.1] at hmid
    omega

/-! ## Cutting at boundaries -/

theorem dropBytes?_append (front back : List Char) :
    dropBytes? (front ++ back) (byteLength front) = some back := by
  induction front with
  | nil => simp [dropBytes?]
  | cons c cs ih =>
    obtain ⟨k, hk⟩ := Nat.exists_eq_add_one.2 c.utf8Size_pos
    rw [byteLength_cons, List.cons_append, hk, Nat.add_right_comm, dropBytes?]
    simp only [hk]
    rw [if_pos (by omega), show k + byteLength cs + 1 - (k + 1) = byteLength cs by omega, ih]

theorem takeBytes?_append (front back : List Char) :
    takeBytes? (front ++ back) (byteLength front) = some front := by
  induction front with
  | nil => simp [takeBytes?]
  | cons c cs ih =>
    obtain ⟨k, hk⟩ := Nat.exists_eq_add_one.2 c.utf8Size_pos
    rw [byteLength_cons, List.cons_append, hk, Nat.add_right_comm, takeBytes?]
    simp only [hk]
    rw [if_pos (by omega), show k + byteLength cs + 1 - (k + 1) = byteLength cs by omega, ih]
    rfl

/-- **A slice between two boundaries is what stands there.** -/
theorem sliceChars?_append (front mid back : List Char) :
    sliceChars? (front ++ mid ++ back)
      ⟨byteLength front, byteLength front + byteLength mid⟩ = some mid := by
  rw [sliceChars?, if_pos (by simp), List.append_assoc, dropBytes?_append]
  simp [takeBytes?_append]

theorem byteLength_of_takeBytes? {cs taken : List Char} {n : Nat}
    (h : takeBytes? cs n = some taken) : byteLength taken = n := by
  induction cs generalizing n taken with
  | nil =>
    cases n with
    | zero =>
      cases h
      rfl
    | succ n => cases h
  | cons c cs ih =>
    cases n with
    | zero =>
      cases h
      rfl
    | succ n =>
      rw [takeBytes?] at h
      split at h
      · rename_i hle
        obtain ⟨rest, hrest, rfl⟩ := Option.map_eq_some_iff.1 h
        have := ih hrest
        rw [byteLength_cons]
        omega
      · cases h

/-- A slice is as long as its span. -/
theorem byteLength_of_sliceChars? {cs mid : List Char} {s : Span}
    (h : sliceChars? cs s = some mid) : byteLength mid = s.length := by
  rw [sliceChars?] at h
  split at h
  · obtain ⟨rest, -, htaken⟩ := Option.bind_eq_some_iff.1 h
    exact byteLength_of_takeBytes? htaken
  · cases h

/-- The boundaries are the positions behind which there is a rest. -/
theorem isBoundary_iff {cs : List Char} {n : Nat} :
    IsBoundary cs n ↔ (dropBytes? cs n).isSome := by
  constructor
  · rintro ⟨front, back, rfl, rfl⟩
    simp [dropBytes?_append]
  · intro h
    induction cs generalizing n with
    | nil =>
      cases n with
      | zero => exact isBoundary_byteLength []
      | succ n => simp [dropBytes?] at h
    | cons c cs ih =>
      cases n with
      | zero => exact ⟨[], c :: cs, rfl, rfl⟩
      | succ n =>
        rw [dropBytes?] at h
        split at h
        · rename_i hle
          obtain ⟨front, back, rfl, hfront⟩ := ih h
          exact ⟨c :: front, back, rfl, by simp [hfront]; omega⟩
        · simp at h

instance (cs : List Char) (n : Nat) : Decidable (IsBoundary cs n) :=
  decidable_of_iff _ isBoundary_iff.symm

/-! ## Bytes -/

/-- The byte of a text at a position. -/
def byteAt? (text : String) (n : Nat) : Option UInt8 :=
  text.toUTF8.data[n]?

/-- The bytes that characters are written with. -/
def bytes (cs : List Char) : List UInt8 :=
  cs.flatMap String.utf8EncodeChar

@[simp] theorem bytes_append (front back : List Char) :
    bytes (front ++ back) = bytes front ++ bytes back :=
  List.flatMap_append

@[simp] theorem length_bytes (cs : List Char) : (bytes cs).length = byteLength cs := by
  induction cs with
  | nil => rfl
  | cons c cs ih => simp only [bytes, List.flatMap_cons, List.length_append] at ih ⊢; simp [ih]

theorem byteAt?_eq_bytes (text : String) (n : Nat) : byteAt? text n = (bytes text.toList)[n]? := by
  rw [byteAt?, String.toUTF8, ← String.utf8Encode_toList, List.utf8Encode, List.data_toByteArray,
    List.getElem?_toArray]
  rfl

/-- The bytes of a part of a text. -/
theorem byteAt?_of_toList {text : String} {front mid back : List Char} {k : Nat}
    (h : text.toList = front ++ mid ++ back) (hk : k < byteLength mid) :
    byteAt? text (byteLength front + k) = (bytes mid)[k]? := by
  have hmid : k < (bytes mid).length := by rwa [length_bytes]
  rw [byteAt?_eq_bytes, h, bytes_append, bytes_append, List.append_assoc,
    List.getElem?_append_right (by simp), length_bytes, Nat.add_sub_cancel_left,
    List.getElem?_append_left hmid]

end ModuleAssets.Text
