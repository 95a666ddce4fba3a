import ModuleAssets.Proofs.Patch.Edits
import ModuleAssets.Proofs.Sorted
/-!
# Patches — splicing follows the positions of the text

`Patch.splice` says what a patched text is, without sorting or cursors: the
positions of the text are gone through once, and at each the insertions
there, then the overwrite that starts there or else the character. `apply`
merges two sorted lists of edits instead. `render_pieces` shows by induction
on the edits still ahead that both give the same, for every way to render
the parts, so that one argument tells both what the text is and what of the
given text is in it.
-/

namespace ModuleAssets

namespace Patch

/-! ## The text, position by position -/

/-- The text from position `n` on, where `inserted` stands before the
character at a position and `replaced?` tells where a replacement starts, how
far it goes and its text. Before position `resume` everything is replaced. -/
def spliceFrom (inserted : Nat → List Char) (replaced? : Nat → Option (Nat × List Char)) :
    Nat → Nat → List Char → List Char
  | n, _, [] => inserted n
  | n, resume, c :: cs =>
    if n < resume then spliceFrom inserted replaced? (n + c.utf8Size) resume cs
    else
      inserted n ++
        match replaced? n with
        | some (stop, text) => text ++ spliceFrom inserted replaced? (n + c.utf8Size) stop cs
        | none => c :: spliceFrom inserted replaced? (n + c.utf8Size) n cs

/-- The texts that are put in at a position, by rank, equal ranks in the
order they came. -/
def insertedAt (p : Patch) (n : Nat) : List Char :=
  ((p.insertions.filter (·.position == n)).mergeSort fun a b => a.rank ≤ b.rank).flatMap
    (·.text.toList)

/-- Where the overwrite that starts at a position ends, and its text. -/
def replacedAt? (p : Patch) (n : Nat) : Option (Nat × List Char) :=
  (p.overwrites.find? (·.span.start == n)).map fun o => (o.span.stop, o.text.toList)

/-- The patched text, position by position. -/
def splice (p : Patch) (cs : List Char) : List Char :=
  spliceFrom p.insertedAt p.replacedAt? 0 0 cs

/-- The characters that no overwrite covers, the first being at `n`. -/
def uncovered (p : Patch) : Nat → List Char → List Char
  | _, [] => []
  | n, c :: cs =>
    if p.overwrites.any (·.span.contains n) then p.uncovered (n + c.utf8Size) cs
    else c :: p.uncovered (n + c.utf8Size) cs

/-- What a part keeps of the given text. -/
def Piece.kept : Piece → List Char
  | copied _ text => text.toList
  | _ => []

section SpliceFrom

variable {inserted inserted' : Nat → List Char} {replaced? replaced?' : Nat → Option (Nat × List Char)}
variable {n r : Nat} {mid back : List Char}

/-- Once the replacement is over it does not matter where it ended. -/
theorem spliceFrom_of_le (h : r ≤ n) :
    spliceFrom inserted replaced? n r back = spliceFrom inserted replaced? n n back := by
  cases back with
  | nil => rfl
  | cons c cs => simp only [spliceFrom, if_neg (Nat.not_lt.2 h), if_neg (Nat.lt_irrefl n)]

/-- The characters that are replaced are passed over. -/
theorem spliceFrom_skip (h : n + Text.byteLength mid = r) :
    spliceFrom inserted replaced? n r (mid ++ back) = spliceFrom inserted replaced? r r back := by
  induction mid generalizing n with
  | nil => rw [List.nil_append, spliceFrom_of_le (by simp at h; omega)]; simp at h; rw [h]
  | cons c cs ih =>
    have := c.utf8Size_pos
    rw [Text.byteLength_cons] at h
    rw [List.cons_append, spliceFrom, if_pos (by omega)]
    exact ih (by omega)

/-- Where there are no edits the text stays as it is. -/
theorem spliceFrom_quiet {m : Nat} (hr : r ≤ n) (hm : n + Text.byteLength mid = m)
    (h : ∀ k, n ≤ k → k < m → inserted k = [] ∧ replaced? k = none) :
    spliceFrom inserted replaced? n r (mid ++ back) =
      mid ++ spliceFrom inserted replaced? m m back := by
  induction mid generalizing n r with
  | nil =>
    obtain rfl : n = m := hm
    exact spliceFrom_of_le hr
  | cons c cs ih =>
    have := c.utf8Size_pos
    rw [Text.byteLength_cons] at hm
    obtain ⟨hins, hrep⟩ := h n (Nat.le_refl _) (by omega)
    have hrest := ih (n := n + c.utf8Size) (r := n) (by omega) (by omega) fun k hk hlt =>
      h k (by omega) hlt
    rw [List.cons_append, spliceFrom, if_neg (by omega), hins, hrep]
    simp [hrest]

/-- Only edits from `n` on matter. -/
theorem spliceFrom_congr
    (h : ∀ m, n ≤ m → inserted m = inserted' m ∧ replaced? m = replaced?' m) :
    spliceFrom inserted replaced? n r back = spliceFrom inserted' replaced?' n r back := by
  induction back generalizing n r with
  | nil => exact (h n (Nat.le_refl _)).1
  | cons c cs ih =>
    have hrest : ∀ r, spliceFrom inserted replaced? (n + c.utf8Size) r cs =
        spliceFrom inserted' replaced?' (n + c.utf8Size) r cs :=
      fun r => ih fun m hm => h m (by omega)
    obtain ⟨hins, hrep⟩ := h n (Nat.le_refl _)
    simp only [spliceFrom, hins, hrep, hrest]

/-- The first text put in at a position comes first. -/
theorem spliceFrom_insert {text : List Char} (hn : inserted n = text ++ inserted' n)
    (h : ∀ m, n < m → inserted m = inserted' m) :
    spliceFrom inserted replaced? n n back = text ++ spliceFrom inserted' replaced? n n back := by
  cases back with
  | nil => exact hn
  | cons c cs =>
    have hrest : ∀ r, spliceFrom inserted replaced? (n + c.utf8Size) r cs =
        spliceFrom inserted' replaced? (n + c.utf8Size) r cs :=
      fun r => spliceFrom_congr fun m hm => ⟨h m (by have := c.utf8Size_pos; omega), rfl⟩
    simp only [spliceFrom, if_neg (Nat.lt_irrefl n), hn, hrest, List.append_assoc]

/-- A replacement stands for the characters up to its end. -/
theorem spliceFrom_replace {m : Nat} {text : List Char} (hmid : n + Text.byteLength mid = m)
    (hlt : n < m) (hins : inserted n = []) (hrep : replaced? n = some (m, text)) :
    spliceFrom inserted replaced? n n (mid ++ back) =
      text ++ spliceFrom inserted replaced? m m back := by
  cases mid with
  | nil => simp at hmid; omega
  | cons c cs =>
    rw [Text.byteLength_cons] at hmid
    have hskip : spliceFrom inserted replaced? (n + c.utf8Size) m (cs ++ back) =
        spliceFrom inserted replaced? m m back := spliceFrom_skip (by omega)
    rw [List.cons_append, spliceFrom, if_neg (Nat.lt_irrefl n), hins, hrep, List.nil_append]
    exact congrArg (text ++ ·) hskip

end SpliceFrom

/-! ## The parts, edit by edit -/

section Pieces

variable {source : List Char} {length n : Nat} {os : List Overwrite} {is : List Insertion}

theorem pieces_nil : pieces source length n [] [] = copy source n length := by
  simp [pieces, insertionPieces]

/-- An insertion comes next if no overwrite starts before it. -/
theorem pieces_insertion {i : Insertion} (h : ∀ o ∈ os.head?, i.position ≤ o.span.start) :
    pieces source length n os (i :: is) =
      copy source n i.position ++ .inserted i.text ::
        pieces source length (max n i.position) os is := by
  cases os with
  | nil => simp [pieces, insertionPieces]
  | cons o os =>
    have hpos : i.position ≤ o.span.start := h o (by simp)
    simp [pieces, insertionPieces, hpos]

/-- An overwrite comes next if all insertions stand behind its start. -/
theorem pieces_overwrite {o : Overwrite} (h : ∀ i ∈ is.head?, o.span.start < i.position) :
    pieces source length n (o :: os) is =
      copy source n o.span.start ++ .replaced o.span o.text ::
        pieces source length o.span.stop os is := by
  cases is with
  | nil => simp [pieces, insertionPieces]
  | cons i is =>
    have hpos : ¬ i.position ≤ o.span.start := Nat.not_le.2 (h i (by simp))
    simp [pieces, insertionPieces, hpos]

/-- Of two lists of edits, one is empty or its first edit comes next. -/
theorem next_edit (os : List Overwrite) (is : List Insertion) :
    (os = [] ∧ is = []) ∨
      (∃ i is', is = i :: is' ∧ ∀ o ∈ os.head?, i.position ≤ o.span.start) ∨
      ∃ o os', os = o :: os' ∧ ∀ i ∈ is.head?, o.span.start < i.position := by
  cases os with
  | nil => cases is <;> simp
  | cons o os =>
    cases is with
    | nil => simp
    | cons i is =>
      rcases Nat.lt_or_ge o.span.start i.position with h | h
      · exact .inr (.inr ⟨o, os, rfl, by simpa using h⟩)
      · exact .inr (.inl ⟨i, is, rfl, by simpa using h⟩)

end Pieces

/-- The edits still ahead at position `n`: in order, apart from each other,
and at boundaries. -/
structure Ahead (source : List Char) (n : Nat) (os : List Overwrite) (is : List Insertion) :
    Prop where
  chained : os.Pairwise fun a b => a.span.stop ≤ b.span.start
  nonempty : ∀ o ∈ os, o.span.start < o.span.stop
  starts : ∀ o ∈ os, n ≤ o.span.start
  ordered : is.Pairwise fun a b => a.position ≤ b.position
  positions : ∀ i ∈ is, n ≤ i.position
  outside : ∀ i ∈ is, ∀ o ∈ os, i.position ≤ o.span.start ∨ o.span.stop ≤ i.position
  overwrites : ∀ o ∈ os,
    Text.IsBoundary source o.span.start ∧ Text.IsBoundary source o.span.stop
  insertions : ∀ i ∈ is, Text.IsBoundary source i.position

namespace Ahead

variable {source : List Char} {n : Nat} {os : List Overwrite} {is : List Insertion}

/-- No overwrite starts before the insertion that comes next. -/
theorem le_starts {i : Insertion} (h : Ahead source n os (i :: is))
    (hnext : ∀ o ∈ os.head?, i.position ≤ o.span.start) : ∀ o ∈ os, i.position ≤ o.span.start := by
  cases os with
  | nil => simp
  | cons o os =>
    intro o' ho'
    have hfirst : i.position ≤ o.span.start := hnext o (by simp)
    rcases List.mem_cons.1 ho' with rfl | ho'
    · exact hfirst
    · have := (List.pairwise_cons.1 h.chained).1 o' ho'
      have := h.nonempty o (by simp)
      omega

/-- No insertion stands at or before the start of the overwrite that comes
next, so none stands before its end. -/
theorem stop_le_positions {o : Overwrite} (h : Ahead source n (o :: os) is)
    (hnext : ∀ i ∈ is.head?, o.span.start < i.position) : ∀ i ∈ is, o.span.stop ≤ i.position := by
  cases is with
  | nil => simp
  | cons i is =>
    intro i' hi'
    have hfirst : o.span.start < i.position := hnext i (by simp)
    have hle : i.position ≤ i'.position := by
      rcases List.mem_cons.1 hi' with rfl | hi'
      · exact Nat.le_refl _
      · exact (List.pairwise_cons.1 h.ordered).1 i' hi'
    have := h.outside i' hi' o (by simp)
    omega

/-- What is ahead behind an insertion. -/
theorem after_insertion {i : Insertion} (h : Ahead source n os (i :: is))
    (hnext : ∀ o ∈ os.head?, i.position ≤ o.span.start) : Ahead source i.position os is where
  chained := h.chained
  nonempty := h.nonempty
  starts := h.le_starts hnext
  ordered := (List.pairwise_cons.1 h.ordered).2
  positions := (List.pairwise_cons.1 h.ordered).1
  outside := fun i' hi' => h.outside i' (by simp [hi'])
  overwrites := h.overwrites
  insertions := fun i' hi' => h.insertions i' (by simp [hi'])

/-- What is ahead behind an overwrite. -/
theorem after_overwrite {o : Overwrite} (h : Ahead source n (o :: os) is)
    (hnext : ∀ i ∈ is.head?, o.span.start < i.position) : Ahead source o.span.stop os is where
  chained := (List.pairwise_cons.1 h.chained).2
  nonempty := fun o' ho' => h.nonempty o' (by simp [ho'])
  starts := (List.pairwise_cons.1 h.chained).1
  ordered := h.ordered
  positions := h.stop_le_positions hnext
  outside := fun i hi o' ho' => h.outside i hi o' (by simp [ho'])
  overwrites := fun o' ho' => h.overwrites o' (by simp [ho'])
  insertions := h.insertions

end Ahead

/-! ## Both are the same -/

section Render

variable (render : Piece → List Char)

/-- The rendered insertions of a position. -/
def renderedAt (is : List Insertion) (n : Nat) : List Char :=
  (is.filter (·.position == n)).flatMap fun i => render (.inserted i.text)

/-- The rendered overwrite of a position. -/
def renderedOver? (os : List Overwrite) (n : Nat) : Option (Nat × List Char) :=
  (os.find? (·.span.start == n)).map fun o => (o.span.stop, render (.replaced o.span o.text))

variable {render} {n : Nat} {os : List Overwrite} {is : List Insertion}

theorem renderedAt_of_lt (h : ∀ i ∈ is, n < i.position) : renderedAt render is n = [] := by
  have hnone : is.filter (·.position == n) = [] :=
    List.filter_eq_nil_iff.2 fun i hi => by
      have := h i hi
      simp only [beq_iff_eq]
      omega
  rw [renderedAt, hnone, List.flatMap_nil]

theorem renderedOver?_of_lt (h : ∀ o ∈ os, n < o.span.start) : renderedOver? render os n = none := by
  have hnone : os.find? (·.span.start == n) = none :=
    List.find?_eq_none.2 fun o ho => by
      have := h o ho
      simp only [beq_iff_eq]
      omega
  rw [renderedOver?, hnone, Option.map_none]

theorem renderedAt_cons_self {i : Insertion} :
    renderedAt render (i :: is) i.position =
      render (.inserted i.text) ++ renderedAt render is i.position := by
  simp [renderedAt]

theorem renderedAt_cons_of_ne {i : Insertion} (h : i.position ≠ n) :
    renderedAt render (i :: is) n = renderedAt render is n := by
  simp [renderedAt, h]

theorem renderedOver?_cons_self {o : Overwrite} :
    renderedOver? render (o :: os) o.span.start =
      some (o.span.stop, render (.replaced o.span o.text)) := by
  simp [renderedOver?]

theorem renderedOver?_cons_of_ne {o : Overwrite} (h : o.span.start ≠ n) :
    renderedOver? render (o :: os) n = renderedOver? render os n := by
  simp [renderedOver?, h]

/-- Copied text is rendered as it is. -/
theorem flatMap_copy (hcopied : ∀ start text, render (.copied start text) = text.toList)
    {source front mid back : List Char} {m : Nat} (hsource : source = front ++ mid ++ back)
    (hn : Text.byteLength front = n) (hm : n + Text.byteLength mid = m) :
    (copy source n m).flatMap render = mid := by
  subst hsource hn hm
  rw [copy]
  split
  · have hmid : Text.byteLength mid = 0 := by omega
    rw [Text.byteLength_eq_zero.1 hmid, List.flatMap_nil]
  · rw [Text.sliceChars?_append]
    simp [hcopied]

/-- **Up to the next edit both keep the text.** -/
theorem render_copy (hcopied : ∀ start text, render (.copied start text) = text.toList)
    {source front back : List Char} {m : Nat} (hsource : source = front ++ back)
    (hn : Text.byteLength front = n) (hm : Text.IsBoundary source m) (hle : n ≤ m)
    (hos : ∀ o ∈ os, m ≤ o.span.start) (his : ∀ i ∈ is, m ≤ i.position) :
    ∃ mid rest, back = mid ++ rest ∧ n + Text.byteLength mid = m ∧
      (copy source n m).flatMap render = mid ∧
      spliceFrom (renderedAt render is) (renderedOver? render os) n n back =
        mid ++ spliceFrom (renderedAt render is) (renderedOver? render os) m m rest := by
  obtain ⟨mid, rest, hback, hmid⟩ := (hsource ▸ hm).split (hn ▸ hle)
  rw [hn] at hmid
  refine ⟨mid, rest, hback, hmid, ?_, ?_⟩
  · exact flatMap_copy hcopied (by rw [hsource, hback, List.append_assoc]) hn hmid
  · rw [hback]
    refine spliceFrom_quiet (Nat.le_refl n) hmid fun k _ hk => ⟨?_, ?_⟩
    · exact renderedAt_of_lt fun i hi => Nat.lt_of_lt_of_le hk (his i hi)
    · exact renderedOver?_of_lt fun o ho => Nat.lt_of_lt_of_le hk (hos o ho)

/-- **Merging the edits follows the positions.** The induction is on the
number of edits still ahead. The text is copied up to the next of them, which
is the first of one of the two lists. -/
theorem render_pieces (hcopied : ∀ start text, render (.copied start text) = text.toList)
    {source front back : List Char} (hsource : source = front ++ back)
    (hn : Text.byteLength front = n) (h : Ahead source n os is) :
    (pieces source (Text.byteLength source) n os is).flatMap render =
      spliceFrom (renderedAt render is) (renderedOver? render os) n n back := by
  obtain ⟨k, hk⟩ : ∃ k, os.length + is.length = k := ⟨_, rfl⟩
  induction k generalizing n front back os is with
  | zero =>
    obtain rfl : os = [] := List.length_eq_zero_iff.1 (by omega)
    obtain rfl : is = [] := List.length_eq_zero_iff.1 (by omega)
    obtain ⟨mid, rest, hback, hmid, hcopy, hsplice⟩ :=
      render_copy hcopied hsource hn (Text.isBoundary_byteLength source)
        (by rw [hsource, Text.byteLength_append]; omega) (List.forall_mem_nil _)
        (List.forall_mem_nil _)
    have hrest : rest = [] := by
      rw [hsource, hback, Text.byteLength_append, Text.byteLength_append] at hmid
      exact Text.byteLength_eq_zero.1 (by omega)
    rw [pieces_nil, hcopy, hsplice, hrest]
    simp [spliceFrom, renderedAt]
  | succ k ih =>
    rcases next_edit os is with ⟨rfl, rfl⟩ | ⟨i, is, rfl, hnext⟩ | ⟨o, os, rfl, hnext⟩
    · simp at hk
    · -- an insertion comes next
      have hle : n ≤ i.position := h.positions i (by simp)
      have hafter := h.after_insertion hnext
      obtain ⟨mid, rest, hback, hmid, hcopy, hsplice⟩ :=
        render_copy hcopied hsource hn (h.insertions i (by simp)) hle hafter.starts
          (List.forall_mem_cons.2 ⟨Nat.le_refl _, hafter.positions⟩)
      have hsource' : source = (front ++ mid) ++ rest := by
        rw [hsource, hback, List.append_assoc]
      have hrest := ih hsource' (by rw [Text.byteLength_append, hn, hmid]) hafter
        (by simp at hk; omega)
      have hinsert :
          spliceFrom (renderedAt render (i :: is)) (renderedOver? render os) i.position i.position
              rest =
            render (.inserted i.text) ++
              spliceFrom (renderedAt render is) (renderedOver? render os) i.position i.position
                rest :=
        spliceFrom_insert renderedAt_cons_self fun m hm => renderedAt_cons_of_ne (Nat.ne_of_lt hm)
      rw [pieces_insertion hnext, List.flatMap_append, List.flatMap_cons, hcopy,
        Nat.max_eq_right hle, hrest, hsplice, hinsert]
    · -- an overwrite comes next
      have hle : n ≤ o.span.start := h.starts o (by simp)
      obtain ⟨hstart, hstop⟩ := h.overwrites o (by simp)
      have hnonempty := h.nonempty o (by simp)
      have hafter := h.after_overwrite hnext
      have hbehind : ∀ i ∈ is, o.span.start < i.position := fun i hi =>
        Nat.lt_of_lt_of_le hnonempty (hafter.positions i hi)
      have hlater : ∀ o' ∈ o :: os, o.span.start ≤ o'.span.start :=
        List.forall_mem_cons.2 ⟨Nat.le_refl _, fun o' ho' => by
          have := hafter.starts o' ho'
          omega⟩
      obtain ⟨mid, rest, hback, hmid, hcopy, hsplice⟩ :=
        render_copy hcopied hsource hn hstart hle hlater fun i hi => Nat.le_of_lt (hbehind i hi)
      have hfront : Text.byteLength (front ++ mid) = o.span.start := by
        rw [Text.byteLength_append, hn, hmid]
      have hsource' : source = front ++ mid ++ rest := by rw [hsource, hback, List.append_assoc]
      obtain ⟨under, rest, rfl, hover⟩ := (hsource' ▸ hstop).split (by omega)
      rw [hfront] at hover
      have hsource'' : source = (front ++ mid ++ under) ++ rest := by simp [hsource']
      have hrest := ih hsource'' (by rw [Text.byteLength_append, hfront, hover]) hafter
        (by simp at hk; omega)
      have hreplace :
          spliceFrom (renderedAt render is) (renderedOver? render (o :: os)) o.span.start
              o.span.start (under ++ rest) =
            render (.replaced o.span o.text) ++
              spliceFrom (renderedAt render is) (renderedOver? render (o :: os)) o.span.stop
                o.span.stop rest :=
        spliceFrom_replace hover hnonempty (renderedAt_of_lt hbehind) renderedOver?_cons_self
      have hpassed :
          spliceFrom (renderedAt render is) (renderedOver? render (o :: os)) o.span.stop
              o.span.stop rest =
            spliceFrom (renderedAt render is) (renderedOver? render os) o.span.stop o.span.stop
              rest :=
        spliceFrom_congr fun m hm => ⟨rfl, renderedOver?_cons_of_ne (by omega)⟩
      rw [pieces_overwrite hnext, List.flatMap_append, List.flatMap_cons, hcopy, hrest, hsplice,
        hreplace, hpassed]

end Render

/-! ## The edits of a patch -/

section Sorting

variable (p : Patch)

theorem mem_sortedOverwrites {p : Patch} {o : Overwrite} :
    o ∈ p.sortedOverwrites ↔ o ∈ p.overwrites :=
  (sortBy_perm (by simp; omega) (by simp; omega) _).mem_iff

theorem mem_sortedInsertions {p : Patch} {i : Insertion} :
    i ∈ p.sortedInsertions ↔ i ∈ p.insertions :=
  (sortBy_perm (by simp; omega) (by simp; omega) _).mem_iff

/-- **The sorted insertions of a position** are its insertions by rank. -/
theorem filter_sortedInsertions (n : Nat) :
    p.sortedInsertions.filter (·.position == n) =
      (p.insertions.filter (·.position == n)).mergeSort fun a b => a.rank ≤ b.rank := by
  rw [sortedInsertions, ← sortBy_eq_mergeSort (by simp; omega) (by simp; omega)]
  refine filter_sortBy (by simp; omega) (by simp; omega) (fun a b ha hb => ?_) _
  rw [beq_iff_eq] at ha hb
  simp [ha, hb]

/-- **The sorted overwrites of a start** are as they came. -/
theorem filter_sortedOverwrites (n : Nat) :
    p.sortedOverwrites.filter (·.span.start == n) =
      p.overwrites.filter (·.span.start == n) := by
  rw [sortedOverwrites, ← sortBy_true (p.overwrites.filter (·.span.start == n))]
  refine filter_sortBy (by simp; omega) (by simp; omega) (fun a b ha hb => ?_) _
  rw [beq_iff_eq] at ha hb
  simp [ha, hb]

theorem renderedAt_sortedInsertions :
    renderedAt (fun part => part.text.toList) p.sortedInsertions = p.insertedAt := by
  funext n
  rw [renderedAt, filter_sortedInsertions]
  rfl

theorem renderedOver?_sortedOverwrites (render : Piece → List Char) (n : Nat) :
    renderedOver? render p.sortedOverwrites n =
      (p.overwrites.find? (·.span.start == n)).map fun o =>
        (o.span.stop, render (.replaced o.span o.text)) := by
  rw [renderedOver?, ← List.head?_filter, filter_sortedOverwrites, List.head?_filter]

/-- All sorted edits of a sound patch are ahead at the start. -/
theorem ahead_zero {p : Patch} {cs : List Char} (hsound : Sound cs p) (hplaced : Placed cs p) :
    Ahead cs 0 p.sortedOverwrites p.sortedInsertions where
  chained := by
    have hsorted : p.sortedOverwrites.Pairwise fun a b =>
        decide (a.span.start ≤ b.span.start) = true :=
      pairwise_sortBy (by simp; omega) (by simp; omega) p.overwrites
    have hapart : p.sortedOverwrites.Pairwise fun a b =>
        a.span.stop ≤ b.span.start ∨ b.span.stop ≤ a.span.start :=
      ((sortBy_perm (by simp; omega) (by simp; omega) p.overwrites).pairwise_iff
        fun h => h.symm).2 hsound.disjoint
    refine (hsorted.and hapart).imp_of_mem fun {a b} _ hb h => ?_
    have hnonempty := hsound.nonempty b (mem_sortedOverwrites.1 hb)
    have hstarts := of_decide_eq_true h.1
    have hstops := h.2
    omega
  nonempty := fun o ho => hsound.nonempty o (mem_sortedOverwrites.1 ho)
  starts := fun o _ => Nat.zero_le _
  ordered := by
    have hsorted : p.sortedInsertions.Pairwise fun a b =>
        (a.position < b.position || (a.position == b.position && a.rank ≤ b.rank)) = true :=
      pairwise_sortBy (by simp; omega) (by simp; omega) p.insertions
    refine hsorted.imp fun h => ?_
    simp at h
    omega
  positions := fun i _ => Nat.zero_le _
  outside := fun i hi o ho =>
    hsound.outside i (mem_sortedInsertions.1 hi) o (mem_sortedOverwrites.1 ho)
  overwrites := fun o ho => hplaced.overwrites o (mem_sortedOverwrites.1 ho)
  insertions := fun i hi => hplaced.insertions i (mem_sortedInsertions.1 hi)

end Sorting

/-! ## What is kept of the given text -/

/-- At `n` the text is replaced as far as `r` by an overwrite that goes across
`n`, or no overwrite does. -/
def Resumes (p : Patch) (n r : Nat) : Prop :=
  (∃ o ∈ p.overwrites, o.span.start < n ∧ n < o.span.stop ∧ o.span.stop = r) ∨
    (r ≤ n ∧ ∀ o ∈ p.overwrites, n ≤ o.span.start ∨ o.span.stop ≤ n)

section Kept

variable {p : Patch} {cs front back : List Char} {c : Char} {n : Nat}

/-- Behind a covered character the covering overwrite goes on or has just
ended, and then no other goes across its end. -/
theorem resumes_of_covered (hsound : Sound cs p) (hplaced : Placed cs p)
    (hcs : cs = front ++ c :: back) (hn : Text.byteLength front = n) {o : Overwrite}
    (ho : o ∈ p.overwrites) (hstart : o.span.start ≤ n) (hstop : n < o.span.stop) :
    p.Resumes (n + c.utf8Size) o.span.stop := by
  have hpos := c.utf8Size_pos
  have hle : n + c.utf8Size ≤ o.span.stop := by
    have hbound := (hplaced.overwrites o ho).2
    rw [hcs] at hbound
    rw [← hn] at hstop ⊢
    exact hbound.le_of_lt hstop
  rcases Nat.lt_or_eq_of_le hle with hlt | heq
  · exact .inl ⟨o, ho, by omega, hlt, rfl⟩
  · refine .inr ⟨by omega, fun o' ho' => ?_⟩
    by_cases hsame : o = o'
    · subst hsame
      omega
    · have hapart := hsound.apart ho ho' hsame
      omega

/-- Behind a character that is not covered no overwrite goes on. -/
theorem resumes_of_uncovered (hplaced : Placed cs p) (hcs : cs = front ++ c :: back)
    (hn : Text.byteLength front = n)
    (hout : ∀ o ∈ p.overwrites, n < o.span.start ∨ o.span.stop ≤ n) :
    p.Resumes (n + c.utf8Size) n := by
  refine .inr ⟨by omega, fun o ho => ?_⟩
  rcases hout o ho with hlt | hle
  · have hbound := (hplaced.overwrites o ho).1
    rw [hcs] at hbound
    rw [← hn] at hlt ⊢
    exact .inl (hbound.le_of_lt hlt)
  · exact .inr (by omega)

theorem uncovered_cons_of_covered {o : Overwrite} (ho : o ∈ p.overwrites)
    (hstart : o.span.start ≤ n) (hstop : n < o.span.stop) :
    p.uncovered n (c :: back) = p.uncovered (n + c.utf8Size) back := by
  have hany : p.overwrites.any (·.span.contains n) = true :=
    List.any_eq_true.2 ⟨o, ho, by simp [Span.contains, hstart, hstop]⟩
  rw [uncovered, if_pos hany]

theorem uncovered_cons_of_uncovered (hout : ∀ o ∈ p.overwrites, n < o.span.start ∨ o.span.stop ≤ n) :
    p.uncovered n (c :: back) = c :: p.uncovered (n + c.utf8Size) back := by
  have hany : ¬ p.overwrites.any (·.span.contains n) = true := by
    simp only [List.any_eq_true, Span.contains, Bool.and_eq_true, decide_eq_true_eq, not_exists]
    rintro o ⟨ho, hstart, hstop⟩
    have := hout o ho
    omega
  rw [uncovered, if_neg hany]

/-- **Without the texts of the edits, what is spliced is what no overwrite
covers.** -/
theorem spliceFrom_kept (hsound : Sound cs p) (hplaced : Placed cs p) {r : Nat}
    (hcs : cs = front ++ back) (hn : Text.byteLength front = n) (hr : p.Resumes n r) :
    spliceFrom (fun _ => []) (renderedOver? Piece.kept p.sortedOverwrites) n r back =
      p.uncovered n back := by
  induction back generalizing n r front with
  | nil => rfl
  | cons c back ih =>
    have hnext : cs = (front ++ [c]) ++ back := by simp [hcs]
    have hlength : Text.byteLength (front ++ [c]) = n + c.utf8Size := by simp [hn]
    rcases hr with ⟨o, ho, hstart, hstop, rfl⟩ | ⟨hr, hout⟩
    · -- an overwrite goes across the character
      have hcovered := resumes_of_covered hsound hplaced hcs hn ho (Nat.le_of_lt hstart) hstop
      rw [spliceFrom, if_pos hstop, ih hnext hlength hcovered,
        uncovered_cons_of_covered ho (Nat.le_of_lt hstart) hstop]
    · rw [spliceFrom, if_neg (Nat.not_lt.2 hr), List.nil_append, renderedOver?_sortedOverwrites]
      cases hfind : p.overwrites.find? (·.span.start == n) with
      | some o =>
        -- an overwrite starts here
        have ho := List.mem_of_find?_eq_some hfind
        have hstart : o.span.start = n := by simpa using List.find?_some hfind
        have hstop : n < o.span.stop := hstart ▸ hsound.nonempty o ho
        have hcovered := resumes_of_covered hsound hplaced hcs hn ho (Nat.le_of_eq hstart) hstop
        rw [uncovered_cons_of_covered ho (Nat.le_of_eq hstart) hstop, ← ih hnext hlength hcovered]
        rfl
      | none =>
        -- no overwrite goes on and none starts, so the character is kept
        have hnone : ∀ o ∈ p.overwrites, n < o.span.start ∨ o.span.stop ≤ n := fun o ho => by
          have hne : o.span.start ≠ n := by simpa using List.find?_eq_none.1 hfind o ho
          have := hout o ho
          omega
        have huncovered := resumes_of_uncovered hplaced hcs hn hnone
        rw [uncovered_cons_of_uncovered hnone, ← ih hnext hlength huncovered]
        rfl

end Kept

/-! ## Main statement -/

/-- The code of a patched text is its parts, in a row. -/
theorem toList_apply_code (p : Patch) (text : String) :
    (p.apply text).code.toList = (p.parts text).flatMap fun part => part.text.toList := by
  simp [apply, List.flatMap_map]

/-- **Splicing is correct after every run.** Whatever calls came, accepted or
not, as long as none names a position within a character: the held edits are
sound, the patched text is the one read off position by position, and what it
keeps of the given text are the characters outside of all overwrites, each
once and in order. -/
theorem apply_after_run {text : String} {edits : List Edit}
    (h : ∀ e ∈ edits, e.KeepsCharacters text.toList) :
    let p := (ofText text).run edits
    Sound text.toList p ∧ (p.apply text).code = String.ofList (p.splice text.toList) ∧
      (p.parts text).flatMap Piece.kept = p.uncovered 0 text.toList := by
  intro p
  have hsound : Sound text.toList p := (sound_ofText text).run edits
  have hplaced : Placed text.toList p := (placed_ofText text).run (sound_ofText text) h
  have hahead := ahead_zero hsound hplaced
  have hparts (render : Piece → List Char)
      (hcopied : ∀ start text, render (.copied start text) = text.toList) :
      (p.parts text).flatMap render =
        spliceFrom (renderedAt render p.sortedInsertions)
          (renderedOver? render p.sortedOverwrites) 0 0 text.toList :=
    render_pieces hcopied (List.nil_append _).symm rfl hahead
  refine ⟨hsound, ?_, ?_⟩
  · have hsplice := hparts (fun part => part.text.toList) fun _ _ => rfl
    have hover : renderedOver? (fun part => part.text.toList) p.sortedOverwrites = p.replacedAt? :=
      funext (p.renderedOver?_sortedOverwrites _)
    rw [← toList_apply_code, renderedAt_sortedInsertions, hover] at hsplice
    rw [splice, ← hsplice, String.ofList_toList]
  · have hins : renderedAt Piece.kept p.sortedInsertions = fun _ => [] :=
      funext fun n => by simp [renderedAt, Piece.kept]
    have hresumes : p.Resumes 0 0 := .inr ⟨Nat.le_refl 0, fun o _ => .inl (Nat.zero_le _)⟩
    rw [hparts Piece.kept fun _ _ => rfl, hins]
    exact spliceFrom_kept hsound hplaced (List.nil_append _).symm rfl hresumes

/-- An overwrite that covers an insertion and one that is refused, in a text with
a character of three bytes. -/
theorem apply_after_run_covering :
    let edits : List Edit :=
      [.appendRight 5 "1", .overwrite ⟨1, 4⟩ "E", .appendRight 4 "+", .overwrite ⟨4, 6⟩ "Y",
        .appendRight 1 "-", .remove ⟨5, 6⟩, .overwrite ⟨1, 40⟩ "Z"]
    (∀ e ∈ edits, e.KeepsCharacters "a€bcd".toList) ∧
      (((ofText "a€bcd").run edits).apply "a€bcd").code = "a-E+Yd" := by
  intro edits
  have h : ∀ e ∈ edits, e.KeepsCharacters "a€bcd".toList := by decide
  refine ⟨h, ?_⟩
  rw [(apply_after_run h).2.1]
  decide +kernel

end Patch

end ModuleAssets
