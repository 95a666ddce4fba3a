import ModuleAssets.Sorted
/-!
# Sorted lists — insertion in order is a stable sort

`sortBy` gives what the library's stable sort gives, for every order that is
total and transitive. So its outcome is in order, a permutation of what was
given, and keeps the given order among elements that compare equal.

`binarySearch` comes to the last element that does not compare greater, if
those that do are behind all others. The invariant of the search is `Narrowed`.
-/

namespace ModuleAssets

variable {α : Type} {le : α → α → Bool}

/-- An element goes behind all that it does not come before. -/
theorem insertBy_append {x : α} {front back : List α} (hfront : ∀ y ∈ front, le x y = false)
    (hback : ∀ y ∈ back, le x y = true) : insertBy le x (front ++ back) = front ++ x :: back := by
  induction front with
  | nil =>
    cases back with
    | nil => rfl
    | cons y ys => simp [insertBy, hback y]
  | cons y ys ih =>
    have hy : le x y = false := hfront y (by simp)
    have hys := ih fun z hz => hfront z (by simp [hz])
    simp [insertBy, hy, hys]

/-- The first element goes somewhere into the sorted rest, behind all that it
does not come before. -/
theorem mergeSort_cons_split (htrans : ∀ a b c, le a b → le b c → le a c)
    (htotal : ∀ a b, le a b || le b a) (x : α) (xs : List α) :
    ∃ front back, (x :: xs).mergeSort le = front ++ x :: back ∧ xs.mergeSort le = front ++ back ∧
      (∀ y ∈ front, le x y = false) ∧ ∀ y ∈ back, le x y = true := by
  obtain ⟨front, back, hsort, hrest, hfront⟩ := List.mergeSort_cons htrans htotal x xs
  have hsorted : (front ++ x :: back).Pairwise fun a b => le a b := by
    rw [← hsort]
    exact List.pairwise_mergeSort htrans htotal _
  exact ⟨front, back, hsort, hrest, fun y hy => by simpa using hfront y hy,
    (List.pairwise_cons.1 (List.pairwise_append.1 hsorted).2.1).1⟩

/-- **Insertion in order is the stable sort.** -/
theorem sortBy_eq_mergeSort (htrans : ∀ a b c, le a b → le b c → le a c)
    (htotal : ∀ a b, le a b || le b a) (l : List α) : sortBy le l = l.mergeSort le := by
  induction l with
  | nil => simp [sortBy]
  | cons x xs ih =>
    obtain ⟨front, back, hsort, hrest, hfront, hback⟩ := mergeSort_cons_split htrans htotal x xs
    rw [sortBy, ih, hrest, hsort]
    exact insertBy_append hfront hback

/-- **A choice of the sorted elements is the choice, sorted.** On the chosen
elements the order may be put in simpler terms. -/
theorem filter_sortBy (htrans : ∀ a b c, le a b → le b c → le a c)
    (htotal : ∀ a b, le a b || le b a) {chosen : α → Bool} {le' : α → α → Bool}
    (hle : ∀ a b, chosen a → chosen b → le a b = le' a b) (l : List α) :
    (sortBy le l).filter chosen = sortBy le' (l.filter chosen) := by
  induction l with
  | nil => rfl
  | cons x xs ih =>
    obtain ⟨front, back, hsort, hrest, hfront, hback⟩ := mergeSort_cons_split htrans htotal x xs
    rw [sortBy_eq_mergeSort htrans htotal, hrest, List.filter_append] at ih
    rw [sortBy_eq_mergeSort htrans htotal, hsort, List.filter_append]
    cases hx : chosen x with
    | false =>
      rw [List.filter_cons_of_neg (by simp [hx]), List.filter_cons_of_neg (by simp [hx]), ih]
    | true =>
      rw [List.filter_cons_of_pos hx, List.filter_cons_of_pos hx, sortBy, ← ih]
      refine (insertBy_append (fun y hy => ?_) fun y hy => ?_).symm
      · obtain ⟨hmem, hy⟩ := List.mem_filter.1 hy
        rw [← hle x y hx hy, hfront y hmem]
      · obtain ⟨hmem, hy⟩ := List.mem_filter.1 hy
        rw [← hle x y hx hy, hback y hmem]

/-- Where all elements compare equal, nothing moves. -/
theorem sortBy_true (l : List α) : sortBy (fun _ _ => true) l = l := by
  induction l with
  | nil => rfl
  | cons x xs ih => cases xs <;> simp_all [sortBy, insertBy]

theorem sortBy_perm (htrans : ∀ a b c, le a b → le b c → le a c)
    (htotal : ∀ a b, le a b || le b a) (l : List α) : (sortBy le l).Perm l := by
  rw [sortBy_eq_mergeSort htrans htotal]
  exact List.mergeSort_perm l le

theorem pairwise_sortBy (htrans : ∀ a b c, le a b → le b c → le a c)
    (htotal : ∀ a b, le a b || le b a) (l : List α) :
    (sortBy le l).Pairwise fun a b => le a b := by
  rw [sortBy_eq_mergeSort htrans htotal]
  exact List.pairwise_mergeSort htrans htotal l

/-- What is in order stays as it is. -/
theorem sortBy_of_pairwise (htrans : ∀ a b c, le a b → le b c → le a c)
    (htotal : ∀ a b, le a b || le b a) {l : List α} (h : l.Pairwise fun a b => le a b) :
    sortBy le l = l := by
  rw [sortBy_eq_mergeSort htrans htotal]
  exact List.mergeSort_of_pairwise h

/-- **A list in the order of a number is cut in three by each number.** -/
theorem cut_at {key : α → Nat} {l : List α} (h : l.Pairwise fun a b => key a ≤ key b) (n : Nat) :
    l.filter (key · < n) ++ (l.filter (key · == n) ++ l.filter (n < key ·)) = l := by
  induction l with
  | nil => rfl
  | cons x xs ih =>
    obtain ⟨hfirst, hrest⟩ := List.pairwise_cons.1 h
    have hcut := ih hrest
    have hnone (p : α → Bool) (hp : ∀ y, key x ≤ key y → p y = false) : xs.filter p = [] :=
      List.filter_eq_nil_iff.2 fun y hy => by simp [hp y (hfirst y hy)]
    rcases Nat.lt_trichotomy (key x) n with hlt | heq | hgt
    · rw [List.filter_cons_of_pos (by simpa using hlt), List.filter_cons_of_neg (by simp; omega),
        List.filter_cons_of_neg (by simp; omega), List.cons_append, hcut]
    · have hbefore : xs.filter (key · < n) = [] := hnone _ fun y hy => by simp; omega
      rw [hbefore, List.nil_append] at hcut
      rw [List.filter_cons_of_neg (by simp; omega), List.filter_cons_of_pos (by simpa using heq),
        List.filter_cons_of_neg (by simp; omega), hbefore, List.nil_append, List.cons_append, hcut]
    · have hbefore : xs.filter (key · < n) = [] := hnone _ fun y hy => by simp; omega
      have hhere : xs.filter (key · == n) = [] := hnone _ fun y hy => by simp; omega
      rw [hbefore, hhere, List.nil_append, List.nil_append] at hcut
      rw [List.filter_cons_of_neg (by simp; omega), List.filter_cons_of_neg (by simp; omega),
        List.filter_cons_of_pos (by simpa using hgt), hbefore, hhere, List.nil_append,
        List.nil_append, hcut]

/-! ## Searching -/

section

variable {order : α → Ordering} {xs : List α} {base size : Nat}

/-- The last element that does not compare greater, if there is one, is among
the `size` from `base` on. -/
structure Narrowed (order : α → Ordering) (xs : List α) (base size : Nat) : Prop where
  pos : 0 < size
  bound : base + size ≤ xs.length
  above : ∀ j x, base + size ≤ j → xs[j]? = some x → order x = .gt
  below : base = 0 ∨ ∃ x, xs[base]? = some x ∧ order x ≠ .gt

/-- Those that compare greater are behind all others. -/
def GreaterLast (order : α → Ordering) (xs : List α) : Prop :=
  xs.Pairwise fun x y => order x = .gt → order y = .gt

theorem GreaterLast.of_le (h : GreaterLast order xs) {i j : Nat} {x y : α} (hx : xs[i]? = some x)
    (hy : xs[j]? = some y) (hij : i ≤ j) (hgt : order x = .gt) : order y = .gt := by
  obtain ⟨hi, rfl⟩ := List.getElem?_eq_some_iff.1 hx
  obtain ⟨hj, rfl⟩ := List.getElem?_eq_some_iff.1 hy
  rcases Nat.lt_or_eq_of_le hij with hlt | rfl
  · exact List.pairwise_iff_getElem.1 h i j hi hj hlt hgt
  · exact hgt

theorem narrowed_all (h : xs ≠ []) : Narrowed order xs 0 xs.length where
  pos := List.length_pos_iff.2 h
  bound := by omega
  above := fun j x hj hx => by
    obtain ⟨hlt, -⟩ := List.getElem?_eq_some_iff.1 hx
    omega
  below := .inl rfl

/-- One step of the search. -/
theorem Narrowed.halve (hlast : GreaterLast order xs) (h : Narrowed order xs base size)
    (hsize : ¬ size ≤ 1) :
    Narrowed order xs (if xs[base + size / 2]?.any (order · == .gt) then base else base + size / 2)
      (size - size / 2) := by
  have hbound := h.bound
  obtain ⟨x, hx⟩ : ∃ x, xs[base + size / 2]? = some x :=
    ⟨_, List.getElem?_eq_getElem (by omega)⟩
  by_cases hgt : order x = .gt
  · -- the element in the middle compares greater, and so do all behind it
    rw [if_pos (by simp [hx, hgt])]
    refine ⟨by omega, by omega, fun j y hj hy => ?_, h.below⟩
    exact hlast.of_le hx hy (by omega) hgt
  · rw [if_neg (by simp [hx, hgt])]
    refine ⟨by omega, by omega, fun j y hj hy => ?_, .inr ⟨x, hx, hgt⟩⟩
    exact h.above j y (by omega) hy

/-- **The search ends at one element.** -/
theorem Narrowed.search (hlast : GreaterLast order xs) (h : Narrowed order xs base size) :
    Narrowed order xs (searchFrom order xs base size) 1 := by
  fun_induction searchFrom order xs base size with
  | case1 base size hsize =>
    obtain rfl : size = 1 := by have := h.pos; omega
    exact h
  | case2 base size hsize middle ih => exact ih (h.halve hlast hsize)

/-- **A search comes to the last element that does not compare greater.** -/
theorem binarySearch_of_last (hlast : GreaterLast order xs) {k : Nat} {x : α}
    (hx : xs[k]? = some x) (hle : order x ≠ .gt)
    (hlater : ∀ j y, k < j → xs[j]? = some y → order y = .gt) :
    binarySearch order xs = if order x = .eq then .ok k else .error (k + 1) := by
  obtain ⟨hk, -⟩ := List.getElem?_eq_some_iff.1 hx
  have hfound : Narrowed order xs (searchFrom order xs 0 xs.length) 1 :=
    (narrowed_all (List.length_pos_iff.1 (by omega))).search hlast
  have hindex : searchFrom order xs 0 xs.length = k := by
    have hnot : ¬ searchFrom order xs 0 xs.length + 1 ≤ k := fun hle' => hle (hfound.above k x hle' hx)
    rcases hfound.below with hzero | ⟨y, hy, hyle⟩
    · omega
    · have : ¬ k < searchFrom order xs 0 xs.length := fun hlt => hyle (hlater _ y hlt hy)
      omega
  rw [binarySearch, hindex, hx]
  cases hcompare : order x with
  | lt => simp [hcompare]
  | eq => simp [hcompare]
  | gt => exact absurd hcompare hle

/-- **A search comes to the last element before those that compare greater.** -/
theorem binarySearch_append {front later : List α} {x : α} (hfront : ∀ y ∈ front, order y ≠ .gt)
    (hx : order x ≠ .gt) (hlater : ∀ y ∈ later, order y = .gt) :
    binarySearch order (front ++ x :: later) =
      if order x = .eq then .ok front.length else .error (front.length + 1) := by
  have hlast : GreaterLast order (front ++ x :: later) := by
    refine List.pairwise_append.2 ⟨List.pairwise_of_forall_mem_list ?_,
      List.pairwise_cons.2 ⟨fun y hy _ => hlater y hy, List.pairwise_of_forall_mem_list ?_⟩, ?_⟩
    · exact fun y hy _ _ hgt => absurd hgt (hfront y hy)
    · exact fun _ _ z hz _ => hlater z hz
    · exact fun y hy _ _ hgt => absurd hgt (hfront y hy)
  refine binarySearch_of_last hlast (by simp) hx fun j y hj hy => hlater y ?_
  rw [List.getElem?_append_right (by omega)] at hy
  obtain ⟨k, hk⟩ : ∃ k, j - front.length = k + 1 := ⟨j - front.length - 1, by omega⟩
  rw [hk, List.getElem?_cons_succ] at hy
  exact List.mem_of_getElem? hy

end

end ModuleAssets
