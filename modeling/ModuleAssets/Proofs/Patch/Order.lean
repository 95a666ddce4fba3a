import ModuleAssets.Proofs.Patch.Splice
import Mathlib.Data.List.Induction
/-!
# Patches — the order of the calls does not matter

An overwrite may come before the edits that it covers, which are then refused,
or behind them, when it takes their place. Either way the same edits are left,
as long as no two overwrites cut through each other and no two calls name the
same span or the same position. `Settles` says what is left after any calls, in
terms of all calls that were issued: it does not tell in which order they came.
-/

namespace ModuleAssets

theorem Span.containsSpan_eq_true {s other : Span} :
    s.containsSpan other = true ↔ s.start ≤ other.start ∧ other.stop ≤ s.stop := by
  simp [containsSpan]

theorem Span.containsInner_eq_false {s : Span} {n : Nat} :
    s.containsInner n = false ↔ n ≤ s.start ∨ s.stop ≤ n := by
  simp only [containsInner, Bool.and_eq_false_iff, decide_eq_false_iff_not]
  omega

/-- One of the spans lies within the other, or they share no byte. -/
def Span.Nests (s other : Span) : Prop :=
  s.containsSpan other = true ∨ other.containsSpan s = true ∨ s.stop ≤ other.start ∨
    other.stop ≤ s.start

instance (s other : Span) : Decidable (s.Nests other) :=
  inferInstanceAs (Decidable (_ ∨ _))

theorem Span.Nests.symm {s other : Span} (h : s.Nests other) : other.Nests s := by
  rcases h with h | h | h | h
  · exact .inr (.inl h)
  · exact .inl h
  · exact .inr (.inr (.inr h))
  · exact .inr (.inr (.inl h))

namespace Edit

/-- What an overwrite or a removal asks for. -/
def overwrite? : Edit → Option Overwrite
  | overwrite span text => some ⟨span, text⟩
  | remove span => some ⟨span, ""⟩
  | appendRight _ _ => none

/-- Where an insertion goes, and its text. -/
def insertion? : Edit → Option (Nat × String)
  | appendRight position text => some (position, text)
  | _ => none

end Edit

/-- An insertion without its rank. -/
def Insertion.entry (i : Insertion) : Nat × String :=
  (i.position, i.text)

namespace Patch

/-- The overwrites that some calls ask for, in the order of the calls. -/
def issuedOverwrites (edits : List Edit) : List Overwrite :=
  edits.filterMap Edit.overwrite?

/-- The insertions that some calls ask for, in the order of the calls. -/
def issuedInsertions (edits : List Edit) : List (Nat × String) :=
  edits.filterMap Edit.insertion?

/-- The calls stay within a text of `length` bytes, their spans are not empty
and differ, any two of the spans are nested or apart, and no two insertions
name one position. -/
structure Compatible (length : Nat) (edits : List Edit) : Prop where
  spans : ∀ o ∈ issuedOverwrites edits, o.span.start < o.span.stop ∧ o.span.stop ≤ length
  positions : ∀ i ∈ issuedInsertions edits, i.1 ≤ length
  nested : (issuedOverwrites edits).Pairwise fun a b => a.span ≠ b.span ∧ a.span.Nests b.span
  distinct : (issuedInsertions edits).Pairwise fun a b => a.1 ≠ b.1

/-- The overwrites that lie in no other one. -/
def outermost (edits : List Edit) : List Overwrite :=
  (issuedOverwrites edits).filter fun o =>
    ∀ w ∈ issuedOverwrites edits, w.span.containsSpan o.span = true → w = o

/-- The insertions that do not lie strictly inside an outermost overwrite. -/
def standing (edits : List Edit) : List (Nat × String) :=
  (issuedInsertions edits).filter fun i => ∀ o ∈ outermost edits, o.span.containsInner i.1 = false

/-- The patch that holds just these. Since no two of the insertions have one
position, their ranks do not matter. -/
def settled (text : String) (edits : List Edit) : Patch :=
  ⟨Text.byteLength text.toList, outermost edits, (standing edits).map fun i => ⟨i.1, i.2, 0⟩⟩

/-! ## What is left after some calls -/

/-- Of the overwrites and insertions that were issued the patch holds the
outermost overwrites, and the insertions that lie in none of these. -/
structure Settles (ws : List Overwrite) (is : List (Nat × String)) (p : Patch) : Prop where
  overwrites : p.overwrites.Sublist ws
  insertions : (p.insertions.map Insertion.entry).Sublist is
  covers : ∀ w ∈ ws, ∃ o ∈ p.overwrites, o.span.containsSpan w.span = true
  outermost : ∀ o ∈ p.overwrites, ∀ w ∈ ws, w.span.containsSpan o.span = true → w = o
  kept : ∀ i ∈ is, (∀ o ∈ p.overwrites, o.span.containsInner i.1 = false) →
    i ∈ p.insertions.map Insertion.entry

section

variable {p q : Patch} {ws : List Overwrite} {is : List (Nat × String)} {span : Span}
variable {text : String} {position : Nat}

theorem settles_ofText (text : String) : Settles [] [] (ofText text) where
  overwrites := .slnil
  insertions := .slnil
  covers := List.forall_mem_nil _
  outermost := List.forall_mem_nil _
  kept := List.forall_mem_nil _

/-- **Why an overwrite is refused** that stays within the text and covers some
of it: an overwrite that is held shares a byte with it and is not covered. -/
theorem overwrite_eq_error {refusal : PatchError} (hstart : span.start < span.stop)
    (hstop : span.stop ≤ p.length) (h : p.overwrite span text = .error refusal) :
    ∃ o ∈ p.overwrites, o.span.overlaps span = true ∧ ¬ span.containsSpan o.span = true := by
  rw [overwrite, if_neg (by omega), if_neg (by simp [Span.isEmpty]; omega)] at h
  cases hfind : p.overwrites.findSome? fun o => conflict? span o.span with
  | none =>
    rw [hfind] at h
    cases h
  | some e =>
    obtain ⟨o, ho, hconflict⟩ := List.exists_of_findSome?_eq_some hfind
    rw [conflict?] at hconflict
    split at hconflict
    · cases hconflict
    · rename_i hover
      exact ⟨o, ho, by simpa using hover⟩

/-- **Why an insertion is refused** that stays within the text. -/
theorem appendRight_eq_error {refusal : PatchError} (hposition : position ≤ p.length)
    (h : p.appendRight position text = .error refusal) :
    ∃ o ∈ p.overwrites, o.span.containsInner position = true := by
  rw [appendRight, if_neg (by omega)] at h
  cases hfind : p.overwrites.find? (·.span.containsInner position) with
  | none =>
    rw [hfind] at h
    cases h
  | some o => exact ⟨o, List.mem_of_find?_eq_some hfind, by simpa using List.find?_some hfind⟩

/-- **An overwrite that is accepted** takes the place of what it covers, and
nothing that was issued covers it. -/
theorem Settles.overwrite_accepted (h : Settles ws is p)
    (hrel : ∀ w ∈ ws, w.span ≠ span ∧ w.span.Nests span)
    (hok : p.overwrite span text = .ok q) : Settles (ws ++ [⟨span, text⟩]) is q := by
  obtain ⟨hspan, -, hapart, rfl⟩ := overwrite_eq_ok hok
  have hkept (o : Overwrite) : o ∈ p.overwrites.filter (!span.containsSpan ·.span) ↔
      o ∈ p.overwrites ∧ ¬ span.containsSpan o.span = true := by
    simp [List.mem_filter]
  refine ⟨?_, ?_, fun w hw => ?_, fun o ho w hw hcovers => ?_, fun i hi hfree => ?_⟩
  · exact List.Sublist.append (List.filter_sublist.trans h.overwrites) (.refl _)
  · exact ((List.filter_sublist).map _).trans h.insertions
  · -- what was covered by an overwrite that gives way is now covered by the new one
    rcases List.mem_append.1 hw with hold | hnew
    · obtain ⟨o, ho, hcovers⟩ := h.covers w hold
      by_cases hgone : span.containsSpan o.span = true
      · refine ⟨⟨span, text⟩, List.mem_append_right _ List.mem_cons_self, ?_⟩
        rw [Span.containsSpan_eq_true] at hgone hcovers ⊢
        dsimp only
        omega
      · exact ⟨o, List.mem_append_left _ ((hkept o).2 ⟨ho, hgone⟩), hcovers⟩
    · obtain rfl := List.mem_singleton.1 hnew
      refine ⟨⟨span, text⟩, List.mem_append_right _ List.mem_cons_self, ?_⟩
      rw [Span.containsSpan_eq_true]
      omega
  · rcases List.mem_append.1 ho with hstays | hnew
    · obtain ⟨ho, hnot⟩ := (hkept o).1 hstays
      rcases List.mem_append.1 hw with hold | hnew
      · exact h.outermost o ho w hold hcovers
      · obtain rfl := List.mem_singleton.1 hnew
        exact absurd hcovers hnot
    · obtain rfl := List.mem_singleton.1 hnew
      rcases List.mem_append.1 hw with hold | hnew
      · -- an issued one that covers the new one is covered by a held one, which would refuse it
        obtain ⟨o, ho, houter⟩ := h.covers w hold
        have hnear := hapart o ho
        have hdiffers := (hrel w hold).1
        rw [Span.containsSpan_eq_true] at hcovers houter hnear
        refine absurd ?_ hdiffers
        obtain ⟨⟨start, stop⟩, replacement⟩ := w
        obtain ⟨start', stop'⟩ := span
        simp only [Span.mk.injEq] at hcovers houter hnear hspan ⊢
        omega
      · exact List.mem_singleton.1 hnew
  · have hnew : span.containsInner i.1 = false :=
      hfree ⟨span, text⟩ (List.mem_append_right _ List.mem_cons_self)
    have hheld : i ∈ p.insertions.map Insertion.entry := by
      refine h.kept i hi fun o ho => ?_
      by_cases hgone : span.containsSpan o.span = true
      · rw [Span.containsInner_eq_false] at hnew ⊢
        rw [Span.containsSpan_eq_true] at hgone
        omega
      · exact hfree o (List.mem_append_left _ ((hkept o).2 ⟨ho, hgone⟩))
    obtain ⟨insertion, hmem, rfl⟩ := List.mem_map.1 hheld
    have houtside : span.containsInner insertion.position = false := hnew
    exact List.mem_map.2 ⟨insertion, List.mem_filter.2 ⟨hmem, by simp [houtside]⟩, rfl⟩

/-- **An overwrite that is refused** lies in one that is held. -/
theorem Settles.overwrite_refused (h : Settles ws is p) {refusal : PatchError}
    (hstart : span.start < span.stop) (hstop : span.stop ≤ p.length)
    (hrel : ∀ w ∈ ws, w.span ≠ span ∧ w.span.Nests span)
    (herror : p.overwrite span text = .error refusal) : Settles (ws ++ [⟨span, text⟩]) is p := by
  obtain ⟨outer, houter, hover, hnot⟩ := overwrite_eq_error hstart hstop herror
  have hissued := h.overwrites.subset houter
  have hcovers : outer.span.containsSpan span = true := by
    obtain ⟨hdiffers, hnests⟩ := hrel outer hissued
    simp only [Span.Nests, Span.containsSpan_eq_true, Span.overlaps, Bool.and_eq_true,
      decide_eq_true_eq] at *
    omega
  refine ⟨h.overwrites.trans (List.sublist_append_left _ _), h.insertions, fun w hw => ?_,
    fun o ho w hw hinner => ?_, h.kept⟩
  · rcases List.mem_append.1 hw with hold | hnew
    · exact h.covers w hold
    · obtain rfl := List.mem_singleton.1 hnew
      exact ⟨outer, houter, hcovers⟩
  · rcases List.mem_append.1 hw with hold | hnew
    · exact h.outermost o ho w hold hinner
    · -- the held one that covers the refused one covers all that this one covers
      obtain rfl := List.mem_singleton.1 hnew
      have hsame : outer = o := by
        refine h.outermost o ho outer hissued ?_
        rw [Span.containsSpan_eq_true] at hcovers hinner ⊢
        dsimp only at hinner
        omega
      exact absurd (hsame ▸ hinner) hnot

/-- One overwrite, whatever becomes of it. -/
theorem Settles.overwrite (h : Settles ws is p) (hstart : span.start < span.stop)
    (hstop : span.stop ≤ p.length) (hrel : ∀ w ∈ ws, w.span ≠ span ∧ w.span.Nests span) :
    Settles (ws ++ [⟨span, text⟩]) is (p.attempt (.overwrite span text)) := by
  rw [attempt]
  split
  · rename_i q hok
    exact h.overwrite_accepted hrel hok
  · rename_i refusal herror
    exact h.overwrite_refused hstart hstop hrel herror

/-- One insertion. It is refused if an overwrite that is held has it inside. -/
theorem Settles.appendRight (h : Settles ws is p) (hposition : position ≤ p.length) :
    Settles ws (is ++ [(position, text)]) (p.attempt (.appendRight position text)) := by
  rw [attempt]
  split
  · rename_i q hok
    obtain ⟨-, hfree, rfl⟩ := appendRight_eq_ok hok
    refine ⟨h.overwrites, ?_, h.covers, h.outermost, fun i hi hstands => ?_⟩
    · rw [List.map_append]
      exact List.Sublist.append h.insertions (.refl _)
    · rw [List.map_append]
      rcases List.mem_append.1 hi with hold | hnew
      · exact List.mem_append_left _ (h.kept i hold hstands)
      · exact List.mem_append_right _ hnew
  · rename_i refusal herror
    obtain ⟨o, ho, hinside⟩ := appendRight_eq_error hposition herror
    refine ⟨h.overwrites, h.insertions.trans (List.sublist_append_left _ _), h.covers, h.outermost,
      fun i hi hstands => ?_⟩
    rcases List.mem_append.1 hi with hold | hnew
    · exact h.kept i hold hstands
    · obtain rfl := List.mem_singleton.1 hnew
      rw [hstands o ho] at hinside
      cases hinside

end

/-! ## What is left after a run -/

section

variable {text : String} {edits edits' : List Edit} {length : Nat}

theorem issuedOverwrites_append :
    issuedOverwrites (edits ++ edits') = issuedOverwrites edits ++ issuedOverwrites edits' :=
  List.filterMap_append

theorem issuedInsertions_append :
    issuedInsertions (edits ++ edits') = issuedInsertions edits ++ issuedInsertions edits' :=
  List.filterMap_append

theorem Compatible.init {e : Edit} (h : Compatible length (edits ++ [e])) :
    Compatible length edits := by
  obtain ⟨hspans, hpositions, hnested, hdistinct⟩ := h
  rw [issuedOverwrites_append] at hspans hnested
  rw [issuedInsertions_append] at hpositions hdistinct
  exact ⟨fun o ho => hspans o (List.mem_append_left _ ho),
    fun i hi => hpositions i (List.mem_append_left _ hi),
    (List.pairwise_append.1 hnested).1, (List.pairwise_append.1 hdistinct).1⟩

/-- The last overwrite fits with those before it. -/
theorem Compatible.last {e : Edit} {o : Overwrite} (h : Compatible length (edits ++ [e]))
    (he : e.overwrite? = some o) :
    o.span.start < o.span.stop ∧ o.span.stop ≤ length ∧
      ∀ w ∈ issuedOverwrites edits, w.span ≠ o.span ∧ w.span.Nests o.span := by
  have hissued : issuedOverwrites (edits ++ [e]) = issuedOverwrites edits ++ [o] := by
    simp [issuedOverwrites, List.filterMap_append, he]
  have hnested := h.nested
  have hspan := h.spans o (by simp [hissued])
  rw [hissued, List.pairwise_append] at hnested
  exact ⟨hspan.1, hspan.2, fun w hw => hnested.2.2 w hw o List.mem_cons_self⟩

/-- **What is left after a run** does not depend on the order of its calls. The
induction adds the last call. -/
theorem settles_run (h : Compatible (Text.byteLength text.toList) edits) :
    Settles (issuedOverwrites edits) (issuedInsertions edits) ((ofText text).run edits) := by
  induction edits using List.reverseRecOn with
  | nil => exact settles_ofText text
  | append_singleton edits e ih =>
    have hbefore := ih h.init
    have hlength : ((ofText text).run edits).length = Text.byteLength text.toList :=
      ((sound_ofText text).run edits).length
    have hrun : (ofText text).run (edits ++ [e]) = ((ofText text).run edits).attempt e :=
      List.foldl_append
    rw [hrun]
    cases e with
    | overwrite span replacement =>
      obtain ⟨hstart, hstop, hrel⟩ := h.last rfl
      have hinsertions : issuedInsertions (edits ++ [.overwrite span replacement]) =
          issuedInsertions edits := issuedInsertions_append.trans (List.append_nil _)
      rw [issuedOverwrites_append, hinsertions]
      exact hbefore.overwrite hstart (hlength ▸ hstop) hrel
    | remove span =>
      obtain ⟨hstart, hstop, hrel⟩ := h.last rfl
      have hinsertions : issuedInsertions (edits ++ [.remove span]) = issuedInsertions edits :=
        issuedInsertions_append.trans (List.append_nil _)
      rw [issuedOverwrites_append, hinsertions]
      exact hbefore.overwrite hstart (hlength ▸ hstop) hrel
    | appendRight position insertion =>
      have hoverwrites : issuedOverwrites (edits ++ [.appendRight position insertion]) =
          issuedOverwrites edits := issuedOverwrites_append.trans (List.append_nil _)
      have hposition : position ≤ Text.byteLength text.toList :=
        h.positions (position, insertion) (by simp [issuedInsertions, Edit.insertion?])
      rw [issuedInsertions_append, hoverwrites]
      exact hbefore.appendRight (hlength ▸ hposition)

theorem Compatible.perm (h : Compatible length edits) (hperm : edits'.Perm edits) :
    Compatible length edits' := by
  have hos : (issuedOverwrites edits').Perm (issuedOverwrites edits) := hperm.filterMap _
  have his : (issuedInsertions edits').Perm (issuedInsertions edits) := hperm.filterMap _
  refine ⟨fun o ho => h.spans o (hos.subset ho), fun i hi => h.positions i (his.subset hi), ?_, ?_⟩
  · exact (hos.pairwise_iff fun {a b} hab => ⟨hab.1.symm, hab.2.symm⟩).2 h.nested
  · exact (his.pairwise_iff fun {a b} hab => hab.symm).2 h.distinct

theorem outermost_perm (hperm : edits'.Perm edits) : (outermost edits').Perm (outermost edits) := by
  have hos : (issuedOverwrites edits').Perm (issuedOverwrites edits) := hperm.filterMap _
  have hsame : (outermost edits') = (issuedOverwrites edits').filter fun o =>
      ∀ w ∈ issuedOverwrites edits, w.span.containsSpan o.span = true → w = o := by
    refine List.filter_congr fun o _ => ?_
    simp only [hos.mem_iff]
  rw [hsame]
  exact hos.filter _

theorem standing_perm (hperm : edits'.Perm edits) : (standing edits').Perm (standing edits) := by
  have his : (issuedInsertions edits').Perm (issuedInsertions edits) := hperm.filterMap _
  have hsame : (standing edits') = (issuedInsertions edits').filter fun i =>
      ∀ o ∈ outermost edits, o.span.containsInner i.1 = false := by
    refine List.filter_congr fun o _ => ?_
    simp only [(outermost_perm hperm).mem_iff]
  rw [hsame]
  exact his.filter _

/-- The overwrites left are the outermost ones. -/
theorem overwrites_run_perm (h : Compatible (Text.byteLength text.toList) edits) :
    ((ofText text).run edits).overwrites.Perm (outermost edits) := by
  have hsettles := settles_run h
  have hissued : (issuedOverwrites edits).Nodup :=
    h.nested.imp fun hab heq => hab.1 (congrArg Overwrite.span heq)
  refine (List.perm_ext_iff_of_nodup (hissued.sublist hsettles.overwrites)
    (hissued.filter _)).2 fun o => ?_
  rw [List.mem_filter, decide_eq_true_eq]
  constructor
  · intro ho
    exact ⟨hsettles.overwrites.subset ho, hsettles.outermost o ho⟩
  · rintro ⟨ho, houter⟩
    obtain ⟨w, hw, hcovers⟩ := hsettles.covers o ho
    exact houter w (hsettles.overwrites.subset hw) hcovers ▸ hw

/-- The insertions left are those that stand in none of them. -/
theorem insertions_run_perm (h : Compatible (Text.byteLength text.toList) edits) :
    (((ofText text).run edits).insertions.map Insertion.entry).Perm (standing edits) := by
  have hsettles := settles_run h
  have hissued : (issuedInsertions edits).Nodup :=
    h.distinct.imp fun hab heq => hab (congrArg Prod.fst heq)
  have houter := overwrites_run_perm h
  refine (List.perm_ext_iff_of_nodup (hissued.sublist hsettles.insertions)
    (hissued.filter _)).2 fun i => ?_
  rw [List.mem_filter, decide_eq_true_eq]
  constructor
  · intro hi
    refine ⟨hsettles.insertions.subset hi, fun o ho => ?_⟩
    obtain ⟨insertion, hmem, rfl⟩ := List.mem_map.1 hi
    exact Span.containsInner_eq_false.2
      (((sound_ofText text).run edits).outside insertion hmem o (houter.mem_iff.2 ho))
  · rintro ⟨hi, hfree⟩
    exact hsettles.kept i hi fun o ho => hfree o (houter.mem_iff.1 ho)

end

/-! ## Splicing does not ask for more -/

section

variable {p q : Patch} {source : List Char} {text : String} {length n : Nat}

theorem insertionPieces_congr {is is' : List Insertion}
    (h : is.map Insertion.entry = is'.map Insertion.entry) :
    insertionPieces source n is = insertionPieces source n is' := by
  induction is generalizing n is' with
  | nil =>
    obtain rfl : is' = [] := List.map_eq_nil_iff.1 h.symm
    rfl
  | cons i is ih =>
    obtain ⟨i', is', rfl, hentry, hrest⟩ := List.map_eq_cons_iff.1 h.symm
    simp only [Insertion.entry, Prod.mk.injEq] at hentry
    rw [insertionPieces, insertionPieces, ih hrest.symm, hentry.1, hentry.2]

/-- The ranks have done their work once the insertions are sorted. -/
theorem pieces_congr {os : List Overwrite} {is is' : List Insertion}
    (h : is.map Insertion.entry = is'.map Insertion.entry) :
    pieces source length n os is = pieces source length n os is' := by
  induction os generalizing n is is' with
  | nil => rw [pieces, pieces, insertionPieces_congr h]
  | cons o os ih =>
    have hpositions : (fun i : Insertion => decide (i.position ≤ o.span.start)) =
        (fun entry => decide (entry.1 ≤ o.span.start)) ∘ Insertion.entry := rfl
    have hbefore := congrArg (List.takeWhile fun entry => decide (entry.1 ≤ o.span.start)) h
    have hbehind := congrArg (List.dropWhile fun entry => decide (entry.1 ≤ o.span.start)) h
    rw [List.takeWhile_map, List.takeWhile_map, ← hpositions] at hbefore
    rw [List.dropWhile_map, List.dropWhile_map, ← hpositions] at hbehind
    rw [pieces, pieces, insertionPieces_congr hbefore, ih hbehind]

theorem sortedOverwrites_eq_of_perm (h : p.overwrites.Perm q.overwrites)
    (hstarts : p.overwrites.Pairwise fun a b => a.span.start ≠ b.span.start) :
    p.sortedOverwrites = q.sortedOverwrites := by
  have hperm (r : Patch) : r.sortedOverwrites.Perm r.overwrites :=
    sortBy_perm (by simp; omega) (by simp; omega) _
  have hincreasing (r : Patch)
      (hr : r.overwrites.Pairwise fun a b => a.span.start ≠ b.span.start) :
      r.sortedOverwrites.Pairwise fun a b => a.span.start < b.span.start := by
    have hsorted : r.sortedOverwrites.Pairwise fun a b =>
        decide (a.span.start ≤ b.span.start) = true :=
      pairwise_sortBy (by simp; omega) (by simp; omega) r.overwrites
    refine (hsorted.and (((hperm r).pairwise_iff fun h => h.symm).2 hr)).imp fun {a b} hab => ?_
    exact Nat.lt_of_le_of_ne (of_decide_eq_true hab.1) hab.2
  refine List.Perm.eq_of_pairwise (fun a b _ _ hab hba => absurd hab (Nat.lt_asymm hba))
    (hincreasing p hstarts) (hincreasing q ((h.pairwise_iff fun h => h.symm).1 hstarts)) ?_
  exact (hperm p).trans (h.trans (hperm q).symm)

theorem sortedInsertions_eq_of_perm
    (h : (p.insertions.map Insertion.entry).Perm (q.insertions.map Insertion.entry))
    (hpositions : (p.insertions.map Insertion.entry).Pairwise fun a b => a.1 ≠ b.1) :
    p.sortedInsertions.map Insertion.entry = q.sortedInsertions.map Insertion.entry := by
  have hperm (r : Patch) : (r.sortedInsertions.map Insertion.entry).Perm
      (r.insertions.map Insertion.entry) :=
    (sortBy_perm (by simp; omega) (by simp; omega) _).map _
  have hincreasing (r : Patch)
      (hr : (r.insertions.map Insertion.entry).Pairwise fun a b => a.1 ≠ b.1) :
      (r.sortedInsertions.map Insertion.entry).Pairwise fun a b => a.1 < b.1 := by
    have hsorted : r.sortedInsertions.Pairwise fun a b =>
        (a.position < b.position || (a.position == b.position && a.rank ≤ b.rank)) = true :=
      pairwise_sortBy (by simp; omega) (by simp; omega) r.insertions
    have hordered : (r.sortedInsertions.map Insertion.entry).Pairwise fun a b => a.1 ≤ b.1 := by
      refine List.pairwise_map.2 (hsorted.imp fun {a b} hab => ?_)
      simp only [Bool.or_eq_true, Bool.and_eq_true, decide_eq_true_eq, beq_iff_eq] at hab
      simp only [Insertion.entry]
      omega
    refine (hordered.and (((hperm r).pairwise_iff fun h => h.symm).2 hr)).imp fun {a b} hab => ?_
    exact Nat.lt_of_le_of_ne hab.1 hab.2
  refine List.Perm.eq_of_pairwise (fun a b _ _ hab hba => absurd hab (Nat.lt_asymm hba))
    (hincreasing p hpositions) (hincreasing q ((h.pairwise_iff fun h => h.symm).1 hpositions)) ?_
  exact (hperm p).trans (h.trans (hperm q).symm)

/-- **Two patches with the same edits give the same text and the same map,** in
whatever order they hold them, if no two edits begin at one position. -/
theorem apply_eq_of_perm (hos : p.overwrites.Perm q.overwrites)
    (his : (p.insertions.map Insertion.entry).Perm (q.insertions.map Insertion.entry))
    (hstarts : p.overwrites.Pairwise fun a b => a.span.start ≠ b.span.start)
    (hpositions : (p.insertions.map Insertion.entry).Pairwise fun a b => a.1 ≠ b.1) (text : String) :
    p.apply text = q.apply text := by
  have hparts : p.parts text = q.parts text := by
    rw [parts, parts, sortedOverwrites_eq_of_perm hos hstarts,
      pieces_congr (sortedInsertions_eq_of_perm his hpositions)]
  rw [apply, apply, hparts]

end

/-! ## Main statement -/

/-- The text of a sound patch whose edits split no character is the one read
off position by position. -/
theorem code_eq_splice {p : Patch} {text : String} (hsound : Sound text.toList p)
    (hplaced : Placed text.toList p) : (p.apply text).code = String.ofList (p.splice text.toList) := by
  have hmerged : (p.parts text).flatMap (fun part => part.text.toList) =
      spliceFrom (renderedAt (fun part => part.text.toList) p.sortedInsertions)
        (renderedOver? (fun part => part.text.toList) p.sortedOverwrites) 0 0 text.toList :=
    render_pieces (fun _ _ => rfl) (List.nil_append _).symm rfl (ahead_zero hsound hplaced)
  have hover : renderedOver? (fun part => part.text.toList) p.sortedOverwrites = p.replacedAt? :=
    funext (p.renderedOver?_sortedOverwrites _)
  rw [renderedAt_sortedInsertions, hover] at hmerged
  rw [splice, ← hmerged, ← toList_apply_code, String.ofList_toList]

section

variable {text : String} {edits : List Edit}

theorem map_entry_settled : (settled text edits).insertions.map Insertion.entry = standing edits := by
  rw [settled, List.map_map]
  exact List.map_id _

theorem mem_settled_insertions {i : Insertion} (hi : i ∈ (settled text edits).insertions) :
    i.entry ∈ standing edits :=
  map_entry_settled ▸ List.mem_map_of_mem hi

theorem sound_settled (h : Compatible (Text.byteLength text.toList) edits) :
    Sound text.toList (settled text edits) where
  length := rfl
  nonempty := fun o ho => (h.spans o (List.mem_filter.1 ho).1).1
  inBounds := fun o ho => (h.spans o (List.mem_filter.1 ho).1).2
  disjoint := ((overwrites_run_perm h).pairwise_iff Or.symm).1 ((sound_ofText text).run edits).disjoint
  reached := fun i hi => h.positions i.entry (List.mem_filter.1 (mem_settled_insertions hi)).1
  outside := by
    intro i hi o ho
    have hstands := (List.mem_filter.1 (mem_settled_insertions hi)).2
    rw [decide_eq_true_eq] at hstands
    exact Span.containsInner_eq_false.1 (hstands o ho)

theorem placed_settled (h : Compatible (Text.byteLength text.toList) edits)
    (hkeeps : ∀ e ∈ edits, e.KeepsCharacters text.toList) :
    Placed text.toList (settled text edits) where
  overwrites := by
    intro o ho
    have hissued := (List.mem_filter.1 ho).1
    have hspan := h.spans o hissued
    obtain ⟨e, he, hasks⟩ := List.mem_filterMap.1 hissued
    have hends := hkeeps e he
    cases e with
    | overwrite span replacement =>
      cases hasks
      exact ⟨hends _ (by simp [Edit.endpoints]) (by omega), hends _ (by simp [Edit.endpoints]) (by omega)⟩
    | remove span =>
      cases hasks
      exact ⟨hends _ (by simp [Edit.endpoints]) (by omega), hends _ (by simp [Edit.endpoints]) (by omega)⟩
    | appendRight position insertion => cases hasks
  insertions := by
    intro i hi
    have hissued := (List.mem_filter.1 (mem_settled_insertions hi)).1
    have hreached := h.positions i.entry hissued
    obtain ⟨e, he, hasks⟩ := List.mem_filterMap.1 hissued
    cases e with
    | overwrite span replacement => cases hasks
    | remove span => cases hasks
    | appendRight position insertion =>
      obtain rfl : position = i.position := congrArg Prod.fst (Option.some.inj hasks)
      exact hkeeps _ he _ List.mem_cons_self hreached

/-- No two of the overwrites begin at one position. -/
theorem Sound.starts_differ {cs : List Char} {p : Patch} (h : Sound cs p) :
    p.overwrites.Pairwise fun a b => a.span.start ≠ b.span.start := by
  refine h.disjoint.imp_of_mem fun {a b} ha hb hapart => ?_
  have := h.nonempty a ha
  have := h.nonempty b hb
  omega

theorem positions_differ (h : Compatible (Text.byteLength text.toList) edits) :
    (standing edits).Pairwise fun a b => a.1 ≠ b.1 :=
  h.distinct.filter _

/-- **Compatible calls leave what is settled among them.** -/
theorem apply_run_eq_settled (h : Compatible (Text.byteLength text.toList) edits) :
    ((ofText text).run edits).apply text = (settled text edits).apply text := by
  have hentries := insertions_run_perm h
  refine apply_eq_of_perm (overwrites_run_perm h) ?_ ((sound_ofText text).run edits).starts_differ
    ?_ text
  · rw [map_entry_settled]
    exact hentries
  · exact (hentries.pairwise_iff fun h => h.symm).2 (positions_differ h)

/-- What is settled among some calls does not depend on their order. -/
theorem apply_settled_of_perm {edits' : List Edit} (hperm : edits'.Perm edits)
    (h : Compatible (Text.byteLength text.toList) edits) :
    (settled text edits').apply text = (settled text edits).apply text := by
  have h' := h.perm hperm
  refine apply_eq_of_perm (outermost_perm hperm) ?_ (sound_settled h').starts_differ ?_ text
  · rw [map_entry_settled, map_entry_settled]
    exact standing_perm hperm
  · rw [map_entry_settled]
    exact positions_differ h'

end

/-- **The order of the calls does not matter.** Calls whose spans are nested or
apart, of which no two name the same span or the same position, give one text and
one map in every order, whichever of them are refused: those of the outermost
overwrites and the insertions that stand in none of them. -/
theorem apply_run_of_perm {text : String} {edits edits' : List Edit}
    (h : Compatible (Text.byteLength text.toList) edits) (hperm : edits'.Perm edits) :
    ((ofText text).run edits').apply text = ((ofText text).run edits).apply text ∧
      ((ofText text).run edits').apply text = (settled text edits).apply text ∧
      ((∀ e ∈ edits, e.KeepsCharacters text.toList) →
        (((ofText text).run edits').apply text).code =
          String.ofList ((settled text edits).splice text.toList)) := by
  have hsettled : ((ofText text).run edits').apply text = (settled text edits).apply text :=
    (apply_run_eq_settled (h.perm hperm)).trans (apply_settled_of_perm hperm h)
  refine ⟨hsettled.trans (apply_run_eq_settled h).symm, hsettled, fun hkeeps => ?_⟩
  rw [hsettled]
  exact code_eq_splice (sound_settled h) (placed_settled h hkeeps)

/-- What the outer overwrite has inside is dropped if it came before, and refused if it comes
behind. -/
theorem apply_run_of_perm_nested :
    let edits : List Edit := [.appendRight 2 "+", .overwrite ⟨2, 4⟩ "x", .overwrite ⟨1, 5⟩ "Y",
      .appendRight 3 "-", .appendRight 5 "!"]
    let edits' := edits.reverse
    Compatible (Text.byteLength "abcdef".toList) edits ∧ edits'.Perm edits ∧
      ((ofText "abcdef").run edits').apply "abcdef" = ((ofText "abcdef").run edits).apply "abcdef" ∧
      (((ofText "abcdef").run edits').apply "abcdef").code = "aY!f" := by
  intro edits edits'
  have h : Compatible (Text.byteLength "abcdef".toList) edits :=
    ⟨by decide, by decide, by decide, by decide⟩
  have hkeeps : ∀ e ∈ edits, e.KeepsCharacters "abcdef".toList := by decide
  have hperm : edits'.Perm edits := List.reverse_perm edits
  refine ⟨h, hperm, (apply_run_of_perm h hperm).1, ?_⟩
  rw [(apply_run_of_perm h hperm).2.2 hkeeps]
  decide +kernel

end Patch

end ModuleAssets
