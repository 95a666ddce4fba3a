import Mathlib.Order.Monotone.Basic
import ModuleAssets.Proofs.Patch.Order
import ModuleAssets.Proofs.Patch.Positions
/-!
# Patches — insertions at one position

The insertions that a patch holds for one position stand together in the patched text
(`pieces_split`): the parts before them are those of the edits before the position, and the
parts behind them those of the edits behind it. Their order goes by the ranks, and a rank is
the number of insertions that were held when the call came. An overwrite drops what it has
inside, so that this number may fall between two calls, and the later insertion then comes
first. `liveCalls` says in terms of the calls which insertions are held for a position
(`insertions_run`), so that the order can be compared with that of the calls.
-/

namespace ModuleAssets

namespace Patch

/-! ## The parts before and behind a position -/

section

variable {source even : List Char} {length n m : Nat} {os before behind : List Overwrite}
variable {is first here last : List Insertion}

theorem copy_self : copy source n n = [] :=
  if_pos (Nat.le_refl n)

/-- The insertions at the position that the splicing has come to. -/
theorem pieces_here (hhere : ∀ i ∈ here, i.position = n) (hos : ∀ o ∈ os, n ≤ o.span.start) :
    pieces source length n os (here ++ last) =
      here.map (fun i => .inserted i.text) ++ pieces source length n os last := by
  induction here with
  | nil => rfl
  | cons i rest ih =>
    have hi : i.position = n := hhere i List.mem_cons_self
    have hnext : ∀ o ∈ os.head?, i.position ≤ o.span.start := fun o ho => by
      have := hos o (List.mem_of_mem_head? ho)
      omega
    have hrest := ih fun j hj => hhere j (List.mem_cons_of_mem _ hj)
    rw [List.cons_append, pieces_insertion hnext, hi, copy_self, Nat.max_self, hrest]
    rfl

/-- **Splicing is cut in two by the insertions of a position.** The induction is on the number
of edits before the position. -/
theorem pieces_split (h : Ahead even m (before ++ behind) (first ++ (here ++ last)))
    (hne : here ≠ []) (hhere : ∀ i ∈ here, i.position = n) (hfirst : ∀ i ∈ first, i.position < n)
    (hbefore : ∀ o ∈ before, o.span.stop ≤ n) (hbehind : ∀ o ∈ behind, n ≤ o.span.start) :
    pieces source length m (before ++ behind) (first ++ (here ++ last)) =
      pieces source n m before first ++
        (here.map (fun i => .inserted i.text) ++ pieces source length n behind last) := by
  obtain ⟨k, hk⟩ : ∃ k, before.length + first.length = k := ⟨_, rfl⟩
  induction k generalizing m before first with
  | zero =>
    obtain rfl : before = [] := List.length_eq_zero_iff.1 (by omega)
    obtain rfl : first = [] := List.length_eq_zero_iff.1 (by omega)
    obtain ⟨i, rest, rfl⟩ := List.exists_cons_of_ne_nil hne
    have hi : i.position = n := hhere i List.mem_cons_self
    have hle : m ≤ i.position := h.positions i (by simp)
    have hnext : ∀ o ∈ behind.head?, i.position ≤ o.span.start := fun o ho => by
      have := hbehind o (List.mem_of_mem_head? ho)
      omega
    have hrest : ∀ j ∈ rest, j.position = n := fun j hj => hhere j (List.mem_cons_of_mem _ hj)
    rw [List.nil_append, List.nil_append, List.cons_append, pieces_insertion hnext,
      Nat.max_eq_right hle, hi, pieces_here hrest hbehind, pieces_nil]
    rfl
  | succ k ih =>
    rcases next_edit before first with ⟨rfl, rfl⟩ | ⟨i, rest, rfl, hnext⟩ | ⟨o, rest, rfl, hnext⟩
    · simp at hk
    · -- an insertion before the position comes next
      have hi : i.position < n := hfirst i List.mem_cons_self
      have hle : m ≤ i.position := h.positions i (by simp)
      have hfollows : ∀ o ∈ (before ++ behind).head?, i.position ≤ o.span.start := by
        cases before with
        | nil =>
          intro o ho
          have := hbehind o (List.mem_of_mem_head? ho)
          omega
        | cons o os => exact hnext
      have hrest := ih (h.after_insertion hfollows)
        (fun j hj => hfirst j (List.mem_cons_of_mem _ hj)) hbefore (by simp at hk; omega)
      rw [List.cons_append, pieces_insertion hfollows, pieces_insertion hnext,
        Nat.max_eq_right hle, hrest, List.append_assoc, List.cons_append]
    · -- an overwrite before the position comes next
      have ho : o.span.stop ≤ n := hbefore o List.mem_cons_self
      have hspan : o.span.start < o.span.stop := h.nonempty o (by simp)
      have hfollows : ∀ i ∈ (first ++ (here ++ last)).head?, o.span.start < i.position := by
        cases first with
        | nil =>
          obtain ⟨i, more, rfl⟩ := List.exists_cons_of_ne_nil hne
          intro j hj
          obtain rfl : i = j := by simpa using hj
          have := hhere i List.mem_cons_self
          omega
        | cons i more => exact hnext
      have hrest := ih (h.after_overwrite hfollows) hfirst
        (fun w hw => hbefore w (List.mem_cons_of_mem _ hw)) (by simp at hk; omega)
      rw [List.cons_append, pieces_overwrite hfollows, pieces_overwrite hnext, hrest,
        List.append_assoc, List.cons_append]

/-- **Edits in order are cut at each position that has an insertion.** No overwrite goes across
that position. -/
theorem Ahead.cut (h : Ahead even m os is) {i : Insertion} (hi : i ∈ is) (hn : i.position = n) :
    ∃ before behind first last, os = before ++ behind ∧
      is = first ++ (is.filter (·.position == n) ++ last) ∧
      (∀ o ∈ before, o.span.stop ≤ n) ∧ (∀ o ∈ behind, n ≤ o.span.start) ∧
      (∀ j ∈ first, j.position < n) ∧ ∀ j ∈ last, n < j.position := by
  have hstarts : os.Pairwise fun a b => a.span.start ≤ b.span.start :=
    h.chained.imp_of_mem fun {a b} ha _ hle => by
      have := h.nonempty a ha
      omega
  have hos := cut_at hstarts n
  have his := cut_at h.ordered n
  refine ⟨_, _, _, _, hos.symm, his.symm, fun o ho => ?_, fun o ho => ?_, fun j hj => ?_,
    fun j hj => ?_⟩
  · obtain ⟨hmem, hlt⟩ := List.mem_filter.1 ho
    have hapart := h.outside i hi o hmem
    rw [decide_eq_true_eq] at hlt
    omega
  · rcases List.mem_append.1 ho with ho | ho
    · have heq := (List.mem_filter.1 ho).2
      rw [beq_iff_eq] at heq
      omega
    · have hlt := (List.mem_filter.1 ho).2
      rw [decide_eq_true_eq] at hlt
      omega
  · simpa using (List.mem_filter.1 hj).2
  · simpa using (List.mem_filter.1 hj).2

end

/-- **The insertions of a position stand together,** by their ranks. What comes before them
stands for the text before the position, and what comes behind them for the text behind it. -/
theorem exists_parts_at {p : Patch} {text : String} {n : Nat} (hsound : Sound text.toList p)
    (hne : p.insertions.filter (·.position == n) ≠ []) :
    ∃ front back, p.parts text =
        front ++ (((p.insertions.filter (·.position == n)).mergeSort fun a b => a.rank ≤ b.rank).map
          (fun i => .inserted i.text) ++ back) ∧
      (∀ s ∈ spansOf front, s.stop ≤ n) ∧ ∀ s ∈ spansOf back, n ≤ s.start := by
  obtain ⟨i, hi⟩ := List.exists_mem_of_ne_nil _ hne
  obtain ⟨hmem, hn⟩ := List.mem_filter.1 hi
  rw [beq_iff_eq] at hn
  have hahead := hsound.ahead
  have hhere : p.sortedInsertions.filter (·.position == n) ≠ [] :=
    List.ne_nil_of_mem (List.mem_filter.2 ⟨mem_sortedInsertions.2 hmem, by simpa using hn⟩)
  obtain ⟨before, behind, first, last, hos, his, hbefore, hbehind, hfirst, hlast⟩ :=
    hahead.cut (mem_sortedInsertions.2 hmem) hn
  have hbound : n ≤ Text.byteLength text.toList := hn ▸ hsound.reached i hmem
  have hwhole : Ahead (Text.evenText (Text.byteLength text.toList)) 0 (before ++ behind)
      (first ++ (p.sortedInsertions.filter (·.position == n) ++ last)) := by
    rw [← hos, ← his]
    exact hahead
  have hfront : Ahead (Text.evenText (Text.byteLength text.toList)) 0 before first :=
    hahead.sublist (hos ▸ List.sublist_append_left _ _) (his ▸ List.sublist_append_left _ _)
  have hback : Ahead (Text.evenText (Text.byteLength text.toList)) n behind last :=
    { hahead.sublist (hos ▸ List.sublist_append_right before behind)
        (his ▸ (List.sublist_append_right _ last).trans (List.sublist_append_right first _)) with
      starts := hbehind
      positions := fun j hj => Nat.le_of_lt (hlast j hj) }
  rw [← filter_sortedInsertions]
  refine ⟨pieces text.toList n 0 before first,
    pieces text.toList (Text.byteLength text.toList) n behind last, ?_, ?_, ?_⟩
  · have hposition : ∀ j ∈ p.sortedInsertions.filter (·.position == n), j.position = n :=
      fun j hj => by simpa using (List.mem_filter.1 hj).2
    refine Eq.trans ?_ (pieces_split hwhole hhere hposition hfirst hbefore hbehind)
    rw [← hos, ← his]
    rfl
  · have hreached : ∀ j ∈ first, j.position ≤ n := fun j hj => Nat.le_of_lt (hfirst j hj)
    exact (rising_pieces hfront (Nat.zero_le n) hbefore hreached).stops
  · have hinBounds : ∀ o ∈ behind, o.span.stop ≤ Text.byteLength text.toList := fun o ho =>
      hsound.inBounds o (mem_sortedOverwrites.1 (hos ▸ List.mem_append_right before ho))
    have hreached : ∀ j ∈ last, j.position ≤ Text.byteLength text.toList := fun j hj =>
      hsound.reached j (mem_sortedInsertions.1
        (his ▸ List.mem_append_right first (List.mem_append_right _ hj)))
    exact (rising_pieces hback hbound hinBounds hreached).starts

/-! ## Insertions by their calls -/

section

variable (text : String) (edits : List Edit)

/-- The patch that call number `i` comes to. -/
def before (i : Nat) : Patch :=
  (ofText text).run (edits.take i)

/-- The number of insertions that are held when call number `i` comes. -/
def held (i : Nat) : Nat :=
  (before text edits i).insertions.length

/-- Call number `i` is of some kind, and is accepted. -/
def accepts (kind : Edit → Bool) (i : Nat) : Bool :=
  edits[i]?.any fun e => kind e && ((before text edits i).edit e).isOk

/-- The call puts a text in at `n`. -/
def inserts (n : Nat) (e : Edit) : Bool :=
  e.insertion?.any (·.1 == n)

/-- The call takes the place of what is put in at `n`. -/
def covers (n : Nat) (e : Edit) : Bool :=
  e.span?.any (·.containsInner n)

/-- The text that call number `i` puts in. -/
def textOf (i : Nat) : String :=
  ((edits[i]?.bind Edit.insertion?).map (·.2)).getD ""

/-- An accepted call behind call number `i` takes the place of what is put in at `n`. -/
def dropped (n i : Nat) : Bool :=
  (List.range edits.length).any fun j => i < j && accepts text edits (covers n) j

/-- The accepted calls that put a text in at `n` which is not dropped later, in the order of
the calls. -/
def liveCalls (n : Nat) : List Nat :=
  (List.range edits.length).filter fun i =>
    accepts text edits (inserts n) i && !dropped text edits n i

end

section

variable {text : String} {edits : List Edit} {e : Edit} {kind : Edit → Bool} {i n : Nat}

theorem before_concat (h : i ≤ edits.length) :
    before text (edits ++ [e]) i = before text edits i := by
  rw [before, before, List.take_append_of_le_length h]

theorem before_length : before text (edits ++ [e]) edits.length = (ofText text).run edits := by
  rw [before, List.take_left]

theorem accepts_concat (h : i < edits.length) :
    accepts text (edits ++ [e]) kind i = accepts text edits kind i := by
  rw [accepts, accepts, List.getElem?_append_left h, before_concat (Nat.le_of_lt h)]

theorem accepts_length : accepts text (edits ++ [e]) kind edits.length =
    (kind e && (((ofText text).run edits).edit e).isOk) := by
  rw [accepts, before_length, List.getElem?_concat_length]
  rfl

theorem textOf_concat (h : i < edits.length) : textOf (edits ++ [e]) i = textOf edits i := by
  rw [textOf, textOf, List.getElem?_append_left h]

theorem lt_of_mem_liveCalls (h : i ∈ liveCalls text edits n) : i < edits.length :=
  List.mem_range.1 (List.mem_filter.1 h).1

theorem dropped_concat (h : i < edits.length) : dropped text (edits ++ [e]) n i =
    (dropped text edits n i || (covers n e && (((ofText text).run edits).edit e).isOk)) := by
  have hlength : (edits ++ [e]).length = edits.length + 1 := by simp
  have hbefore : ((List.range edits.length).any fun j =>
      decide (i < j) && accepts text (edits ++ [e]) (covers n) j) =
        (List.range edits.length).any fun j =>
          decide (i < j) && accepts text edits (covers n) j := by
    rw [Bool.eq_iff_iff, List.any_eq_true, List.any_eq_true]
    refine exists_congr fun j => and_congr_right fun hj => ?_
    rw [accepts_concat (List.mem_range.1 hj)]
  rw [dropped, dropped, hlength, List.range_succ, List.any_append, List.any_cons, List.any_nil,
    accepts_length, hbefore, decide_eq_true h, Bool.true_and, Bool.or_false]

theorem dropped_length : dropped text (edits ++ [e]) n edits.length = false := by
  refine List.any_eq_false.2 fun j hj => ?_
  have hle : j ≤ edits.length := by simpa using Nat.le_of_lt_succ (by simpa using hj)
  simp only [Bool.and_eq_true, decide_eq_true_eq, not_and]
  intro hlt
  omega

/-- **What one more call does to those that are live.** If it covers the position and is
accepted, none of them is left. -/
theorem liveCalls_concat : liveCalls text (edits ++ [e]) n =
    (if covers n e && (((ofText text).run edits).edit e).isOk then []
      else liveCalls text edits n) ++
      if inserts n e && (((ofText text).run edits).edit e).isOk then [edits.length] else [] := by
  have hlength : (edits ++ [e]).length = edits.length + 1 := by simp
  rw [liveCalls, hlength, List.range_succ, List.filter_append]
  congr 1
  · cases hcovers : covers n e && (((ofText text).run edits).edit e).isOk with
    | true =>
      refine List.filter_eq_nil_iff.2 fun i hi => ?_
      rw [dropped_concat (List.mem_range.1 hi), hcovers]
      simp
    | false =>
      refine List.filter_congr fun i hi => ?_
      have hlt := List.mem_range.1 hi
      rw [dropped_concat hlt, accepts_concat hlt, hcovers, Bool.or_false]
  · rw [List.filter_cons, List.filter_nil, accepts_length, dropped_length, Bool.not_false,
      Bool.and_true]

/-- An overwrite takes all insertions of a position with it or leaves them all. -/
theorem filter_outside (is : List Insertion) (span : Span) (n : Nat) :
    (is.filter fun i => !span.containsInner i.position).filter (·.position == n) =
      if span.containsInner n then [] else is.filter (·.position == n) := by
  rw [List.filter_filter]
  split
  · rename_i hinner
    refine List.filter_eq_nil_iff.2 fun i _ => ?_
    rw [Bool.and_eq_true, beq_iff_eq]
    rintro ⟨rfl, houtside⟩
    rw [hinner] at houtside
    cases houtside
  · rename_i hinner
    refine List.filter_congr fun i _ => ?_
    by_cases hn : i.position = n
    · rw [hn, Bool.eq_false_iff.2 hinner, Bool.not_false, Bool.and_true]
    · rw [beq_false_of_ne hn, Bool.false_and]

/-- **What an accepted call does to the insertions of a position.** -/
theorem filter_insertions_of_edit {p q : Patch} (h : p.edit e = .ok q) :
    q.insertions.filter (·.position == n) =
      (if covers n e then [] else p.insertions.filter (·.position == n)) ++
        if inserts n e then [⟨n, (e.insertion?.map (·.2)).getD "", p.insertions.length⟩]
        else [] := by
  cases e with
  | overwrite span text =>
    obtain ⟨-, -, -, rfl⟩ := overwrite_eq_ok h
    exact (filter_outside p.insertions span n).trans (List.append_nil _).symm
  | remove span =>
    obtain ⟨-, -, -, rfl⟩ := overwrite_eq_ok h
    exact (filter_outside p.insertions span n).trans (List.append_nil _).symm
  | appendRight position text =>
    obtain ⟨-, -, rfl⟩ := appendRight_eq_ok h
    rw [List.filter_append, List.filter_cons, List.filter_nil]
    refine congrArg (p.insertions.filter (·.position == n) ++ ·) ?_
    have hinserts : inserts n (.appendRight position text) = (position == n) := rfl
    rw [hinserts]
    by_cases hn : position = n
    · rw [hn]
      rfl
    · rw [beq_false_of_ne hn]
      rfl

/-- **The insertions that are held for a position** are those of its live calls, in the order
of the calls. The rank of each is the number of insertions that were held when it came. The
induction adds the last call. -/
theorem insertions_run (text : String) (edits : List Edit) (n : Nat) :
    ((ofText text).run edits).insertions.filter (·.position == n) =
      (liveCalls text edits n).map fun i => ⟨n, textOf edits i, held text edits i⟩ := by
  induction edits using List.reverseRecOn with
  | nil => rfl
  | append_singleton edits e ih =>
    have hrun : (ofText text).run (edits ++ [e]) = ((ofText text).run edits).attempt e :=
      List.foldl_append
    -- nothing that was told of the earlier calls changes
    have hold : (liveCalls text edits n).map (fun i =>
        (⟨n, textOf (edits ++ [e]) i, held text (edits ++ [e]) i⟩ : Insertion)) =
          ((ofText text).run edits).insertions.filter (·.position == n) := by
      rw [ih]
      refine List.map_congr_left fun i hi => ?_
      have hlt := lt_of_mem_liveCalls hi
      rw [textOf_concat hlt, held, held, before_concat (Nat.le_of_lt hlt)]
    rw [hrun, liveCalls_concat, attempt]
    cases hedit : ((ofText text).run edits).edit e with
    | error refusal =>
      have hrefused : (Except.error refusal : Except PatchError Patch).isOk = false := rfl
      rw [hrefused, Bool.and_false, Bool.and_false, if_neg Bool.false_ne_true,
        if_neg Bool.false_ne_true, List.append_nil, hold]
    | ok q =>
      have haccepted : (Except.ok q : Except PatchError Patch).isOk = true := rfl
      have htext : textOf (edits ++ [e]) edits.length = (e.insertion?.map (·.2)).getD "" := by
        rw [textOf, List.getElem?_concat_length]
        rfl
      have hheld : held text (edits ++ [e]) edits.length =
          ((ofText text).run edits).insertions.length := by
        rw [held, before_length]
      rw [haccepted, Bool.and_true, Bool.and_true, List.map_append, apply_ite (List.map _),
        apply_ite (List.map _), hold, List.map_nil, List.map_singleton, htext, hheld]
      exact filter_insertions_of_edit hedit

end

/-! ## Main statement -/

section

variable {text : String} {edits : List Edit} {n : Nat}

/-- Once the calls are over the number of insertions held does not change. -/
theorem held_of_le {i : Nat} (h : edits.length ≤ i) :
    held text edits i = held text edits edits.length := by
  rw [held, held, before, before, List.take_of_length_le h, List.take_length]

/-- Where no call lowers the number of insertions held it grows. -/
theorem held_mono (h : ∀ i < edits.length, held text edits i ≤ held text edits (i + 1)) :
    Monotone (held text edits) := by
  refine monotone_nat_of_le_succ fun i => ?_
  by_cases hi : i < edits.length
  · exact h i hi
  · exact Nat.le_of_eq ((held_of_le (by omega)).trans (held_of_le (by omega)).symm)

end

/-- **The insertions of a position come by the number of insertions held.** Whatever calls came,
accepted or not: the texts that are live at a position stand next to each other in the patched
text, between what stands for the text before the position and what stands for the text behind
it. They are in the order of how many insertions were held when each call came, and in that of
the calls where these numbers are the same. So they are in the order of the calls exactly if no
later one came when fewer were held; and that is so if no call ever lowers the number held. -/
theorem insertions_by_held {text : String} {edits : List Edit} {n : Nat}
    (h : liveCalls text edits n ≠ []) :
    let p := (ofText text).run edits
    let live := liveCalls text edits n
    let order := live.mergeSort fun i j => held text edits i ≤ held text edits j
    (∃ front back, p.parts text =
        front ++ (order.map (fun i => .inserted (textOf edits i)) ++ back) ∧
      (p.apply text).code = String.join (front.map Piece.text) ++
        (String.join (order.map (textOf edits)) ++ String.join (back.map Piece.text)) ∧
      (∀ s ∈ spansOf front, s.stop ≤ n) ∧ ∀ s ∈ spansOf back, n ≤ s.start) ∧
    (order = live ↔ live.Pairwise fun i j => held text edits i ≤ held text edits j) ∧
    ((∀ i < edits.length, held text edits i ≤ held text edits (i + 1)) → order = live) := by
  intro p live order
  have hsound : Sound text.toList p := (sound_ofText text).run edits
  have hrun := insertions_run text edits n
  have hsorted : (p.insertions.filter (·.position == n)).mergeSort (fun a b => a.rank ≤ b.rank) =
      order.map fun i => ⟨n, textOf edits i, held text edits i⟩ := by
    -- the ranks are the numbers that the calls are sorted by
    have hranks : order.map (fun i => (⟨n, textOf edits i, held text edits i⟩ : Insertion)) =
        (live.map fun i => ⟨n, textOf edits i, held text edits i⟩).mergeSort
          fun a b => a.rank ≤ b.rank :=
      List.map_mergeSort fun _ _ _ _ => rfl
    rw [hrun, hranks]
  have hne : p.insertions.filter (·.position == n) ≠ [] := by
    rw [hrun]
    exact fun hnil => h (List.map_eq_nil_iff.1 hnil)
  have horder : order = live ↔ live.Pairwise fun i j => held text edits i ≤ held text edits j := by
    constructor
    · intro heq
      have hpairwise : order.Pairwise fun i j =>
          decide (held text edits i ≤ held text edits j) = true :=
        List.pairwise_mergeSort (by simp; omega) (by simp; omega) live
      rw [heq] at hpairwise
      exact hpairwise.imp of_decide_eq_true
    · intro hpairwise
      exact List.mergeSort_of_pairwise (hpairwise.imp decide_eq_true)
  refine ⟨?_, horder, fun hgrows => horder.2 ?_⟩
  · obtain ⟨front, back, hparts, hfront, hback⟩ := exists_parts_at hsound hne
    rw [hsorted, List.map_map] at hparts
    refine ⟨front, back, hparts, ?_, hfront, hback⟩
    rw [apply, hparts]
    simp only [List.map_append, List.map_map, String.join_append]
    rfl
  · -- the calls that are live are listed as they came
    have hcalls : live.Pairwise (· < ·) := List.pairwise_lt_range.filter _
    exact hcalls.imp fun hlt => held_mono hgrows (Nat.le_of_lt hlt)

/-- `x` is dropped between the two insertions, and both came when one insertion was held. -/
theorem insertions_by_held_dropped :
    let edits : List Edit :=
      [.appendRight 1 "x", .appendRight 3 "A", .overwrite ⟨0, 2⟩ "O", .appendRight 3 "B"]
    liveCalls "abcd" edits 3 = [1, 3] ∧ held "abcd" edits 1 = 1 ∧ held "abcd" edits 3 = 1 ∧
      ∃ front back, ((ofText "abcd").run edits).parts "abcd" =
        front ++ ([.inserted "A", .inserted "B"] ++ back) := by
  intro edits
  have hlive : liveCalls "abcd" edits 3 = [1, 3] := by decide +kernel
  have hfirst : held "abcd" edits 1 = 1 := by decide +kernel
  have hsecond : held "abcd" edits 3 = 1 := by decide +kernel
  have hne : liveCalls "abcd" edits 3 ≠ [] := hlive ▸ List.cons_ne_nil 1 [3]
  obtain ⟨⟨front, back, hparts, -⟩, horder, -⟩ := insertions_by_held hne
  have hsorted : (liveCalls "abcd" edits 3).Pairwise fun i j =>
      held "abcd" edits i ≤ held "abcd" edits j := by
    simp [hlive, hfirst, hsecond]
  rw [horder.2 hsorted, hlive] at hparts
  exact ⟨hlive, hfirst, hsecond, front, back, hparts⟩

/-- Of two insertions at one position that are both live the later one comes first: `x` and `y`
were held when `A` came, the overwrite dropped them, and only `A` was held when `B` came. -/
theorem later_insertion_first :
    let edits : List Edit :=
      [.appendRight 1 "x", .appendRight 1 "y", .appendRight 3 "A", .overwrite ⟨0, 2⟩ "O",
        .appendRight 3 "B"]
    liveCalls "abcd" edits 3 = [2, 4] ∧ (liveCalls "abcd" edits 3).map (textOf edits) = ["A", "B"] ∧
      held "abcd" edits 2 = 2 ∧ held "abcd" edits 4 = 1 ∧
      (((ofText "abcd").run edits).apply "abcd").code = "OcBAd" := by
  decide +kernel

end Patch

end ModuleAssets
