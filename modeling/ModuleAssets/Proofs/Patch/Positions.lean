import ModuleAssets.Proofs.Patch.Splice
import ModuleAssets.Proofs.Text.PositionMap
/-!
# Patches — the position map is exact

The parts of a patched text tell two things: which of its bytes each part
stands for, and which of the given bytes. `Lies` is the first of these.
`Tiles` is the second: the parts go through the given text once, without a gap
and without going back. It is shown by induction on the edits still ahead, as
for the text itself, and the position map is read off it.
-/

namespace ModuleAssets

namespace Patch

/-! ## Parts and the bytes they stand for -/

/-- The number of bytes of a part. -/
def Piece.size (part : Piece) : Nat :=
  Text.byteLength part.text.toList

/-- What of the given text a part stands for. -/
def Piece.given? : Piece → Option Span
  | copied start text => some ⟨start, start + Text.byteLength text.toList⟩
  | inserted _ => none
  | replaced span _ => some span

/-- The mapping that a part leaves when it is written at `n`. -/
def Piece.mapping? (n : Nat) (part : Piece) : Option Mapping :=
  if part.size = 0 then none else part.given?.map fun given => ⟨⟨n, n + part.size⟩, given⟩

/-- The number of bytes of some parts. -/
def sizeOfParts : List Piece → Nat
  | [] => 0
  | part :: rest => part.size + sizeOfParts rest

/-- The mappings that parts leave, the first of them written at `n`. -/
def mappingsFrom : Nat → List Piece → List Mapping
  | _, [] => []
  | n, part :: rest => (part.mapping? n).toList ++ mappingsFrom (n + part.size) rest

/-- Byte `g` of the patched text is byte `k` of the part. -/
def Lies (parts : List Piece) (g : Nat) (part : Piece) (k : Nat) : Prop :=
  ∃ front back, parts = front ++ part :: back ∧ g = sizeOfParts front + k ∧ k < part.size

section Mappings

variable {part : Piece} {parts front back : List Piece} {m : Mapping} {n g k : Nat}

@[simp] theorem sizeOfParts_nil : sizeOfParts [] = 0 := rfl

@[simp] theorem sizeOfParts_cons : sizeOfParts (part :: parts) = part.size + sizeOfParts parts :=
  rfl

@[simp] theorem sizeOfParts_append :
    sizeOfParts (front ++ back) = sizeOfParts front + sizeOfParts back := by
  induction front with
  | nil => simp
  | cons part rest ih => simp [ih, Nat.add_assoc]

theorem Piece.mapping?_eq_some :
    part.mapping? n = some m ↔
      0 < part.size ∧ part.given? = some m.given ∧ m.generated = ⟨n, n + part.size⟩ := by
  obtain ⟨generated, given⟩ := m
  rw [mapping?]
  split
  · simp; omega
  · simp only [Option.map_eq_some_iff, Mapping.mk.injEq]
    constructor
    · rintro ⟨s, hs, rfl, rfl⟩
      exact ⟨by omega, hs, rfl⟩
    · rintro ⟨-, hs, rfl⟩
      exact ⟨given, hs, rfl, rfl⟩

theorem Piece.record_replaced (b : PositionMap.Builder) (span : Span) (text : String) :
    b.addTransformed span text =
      ⟨((replaced span text).mapping? b.offset).toList ++ b.reversed,
        b.offset + (replaced span text).size⟩ := by
  by_cases hempty : Text.byteLength text.toList = 0
  · simp [PositionMap.Builder.addTransformed, mapping?, size, Piece.text, hempty]
  · simp [PositionMap.Builder.addTransformed, mapping?, size, Piece.text, given?, hempty]

/-- Writing one part. -/
theorem Piece.record_eq (b : PositionMap.Builder) (part : Piece) :
    part.record b = ⟨(part.mapping? b.offset).toList ++ b.reversed, b.offset + part.size⟩ := by
  cases part with
  | copied start text => exact record_replaced b _ text
  | inserted text =>
    simp only [record, PositionMap.Builder.addGenerated, mapping?, given?, Option.map_none, ite_self]
    rfl
  | replaced span text => exact record_replaced b span text

/-- **Writing parts one after another leaves their mappings,** latest first. -/
theorem foldl_record (b : PositionMap.Builder) (parts : List Piece) :
    parts.foldl Piece.record b =
      ⟨(mappingsFrom b.offset parts).reverse ++ b.reversed, b.offset + sizeOfParts parts⟩ := by
  induction parts generalizing b with
  | nil => rfl
  | cons part rest ih =>
    have hone : (part.mapping? b.offset).toList.reverse = (part.mapping? b.offset).toList := by
      cases part.mapping? b.offset <;> rfl
    rw [List.foldl_cons, ih, Piece.record_eq, mappingsFrom, List.reverse_append, hone,
      List.append_assoc, sizeOfParts_cons, Nat.add_assoc]

theorem mappingsFrom_append :
    mappingsFrom n (front ++ back) =
      mappingsFrom n front ++ mappingsFrom (n + sizeOfParts front) back := by
  induction front generalizing n with
  | nil => rfl
  | cons part rest ih =>
    rw [List.cons_append, mappingsFrom, ih, mappingsFrom, sizeOfParts_cons, List.append_assoc,
      Nat.add_assoc]

theorem mem_mappingsFrom :
    m ∈ mappingsFrom n parts ↔ ∃ front part back, parts = front ++ part :: back ∧
      part.mapping? (n + sizeOfParts front) = some m := by
  constructor
  · intro hm
    induction parts generalizing n with
    | nil => simp [mappingsFrom] at hm
    | cons part rest ih =>
      rcases List.mem_append.1 hm with hfirst | hrest
      · exact ⟨[], part, rest, rfl, Option.mem_toList.1 hfirst⟩
      · obtain ⟨front, part', back, rfl, hmapping⟩ := ih hrest
        refine ⟨part :: front, part', back, rfl, ?_⟩
        rwa [sizeOfParts_cons, ← Nat.add_assoc]
  · rintro ⟨front, part, back, rfl, hmapping⟩
    rw [mappingsFrom_append, mappingsFrom, hmapping]
    simp

/-- A mapping stands where its part was written, and is not empty. -/
theorem bounds_of_mem_mappingsFrom (hm : m ∈ mappingsFrom n parts) :
    n ≤ m.generated.start ∧ m.generated.start < m.generated.stop ∧
      m.generated.stop ≤ n + sizeOfParts parts := by
  obtain ⟨front, part, back, rfl, hmapping⟩ := mem_mappingsFrom.1 hm
  obtain ⟨hsize, -, hgenerated⟩ := Piece.mapping?_eq_some.1 hmapping
  rw [hgenerated, sizeOfParts_append, sizeOfParts_cons]
  refine ⟨?_, ?_, ?_⟩ <;> dsimp only <;> omega

theorem pairwise_mappingsFrom (n : Nat) (parts : List Piece) :
    (mappingsFrom n parts).Pairwise fun a b => a.generated.stop ≤ b.generated.start := by
  induction parts generalizing n with
  | nil => exact .nil
  | cons part rest ih =>
    refine List.pairwise_append.2 ⟨?_, ih _, fun a ha b hb => ?_⟩
    · cases part.mapping? n <;> simp
    · have hfirst := (Piece.mapping?_eq_some.1 (Option.mem_toList.1 ha)).2.2
      have hsecond := (bounds_of_mem_mappingsFrom hb).1
      rw [hfirst]
      exact hsecond

/-- **The map of a patched text** has the mappings of its parts. -/
theorem mappings_apply (p : Patch) (text : String) :
    (p.apply text).map.mappings = mappingsFrom 0 (p.parts text) := by
  have hsorted : (mappingsFrom 0 (p.parts text)).Pairwise fun a b =>
      decide (a.generated.start ≤ b.generated.start) = true := by
    refine (pairwise_mappingsFrom 0 (p.parts text)).imp_of_mem fun {a b} ha _ hab => ?_
    have := bounds_of_mem_mappingsFrom ha
    simp only [decide_eq_true_eq]
    omega
  rw [apply, PositionMap.Builder.build, foldl_record]
  simp only [PositionMap.Builder.start, List.append_nil, List.reverse_reverse]
  exact sortBy_of_pairwise (by simp; omega) (by simp; omega) hsorted

theorem ordered_apply (p : Patch) (text : String) : (p.apply text).map.Ordered where
  nonempty := by
    rw [mappings_apply]
    exact fun m hm => (bounds_of_mem_mappingsFrom hm).2.1
  apart := by
    rw [mappings_apply]
    exact pairwise_mappingsFrom 0 _

/-- A byte of the patched text is a byte of one part only. -/
theorem Lies.unique (h : Lies parts g part k) {part' : Piece} (hparts : parts = front ++ part' :: back)
    (hle : sizeOfParts front ≤ g) (hlt : g < sizeOfParts front + part'.size) : part' = part := by
  obtain ⟨front', back', rfl, rfl, hk⟩ := h
  rcases List.append_eq_append_iff.1 hparts with ⟨mid, hmid, hrest⟩ | ⟨mid, hmid, hrest⟩
  · cases mid with
    | nil => exact (List.cons.inj hrest).1.symm
    | cons first mid =>
      obtain ⟨rfl, -⟩ := List.cons.inj hrest
      simp only [hmid, sizeOfParts_append, sizeOfParts_cons] at hle
      omega
  · cases mid with
    | nil => exact (List.cons.inj hrest).1
    | cons first mid =>
      obtain ⟨rfl, -⟩ := List.cons.inj hrest
      simp only [hmid, sizeOfParts_append, sizeOfParts_cons] at hlt
      omega

/-- Every byte of the patched text is a byte of some part. -/
theorem exists_lies (h : g < sizeOfParts parts) : ∃ part k, Lies parts g part k := by
  induction parts generalizing g with
  | nil => simp at h
  | cons first rest ih =>
    rw [sizeOfParts_cons] at h
    by_cases hfirst : g < first.size
    · exact ⟨first, g, [], rest, rfl, by simp, hfirst⟩
    · obtain ⟨part, k, front, back, rfl, hg, hk⟩ := ih (g := g - first.size) (by omega)
      exact ⟨part, k, first :: front, back, rfl, by rw [sizeOfParts_cons]; omega, hk⟩

theorem sizeOfParts_eq_byteLength (parts : List Piece) :
    sizeOfParts parts = Text.byteLength (parts.flatMap fun part => part.text.toList) := by
  induction parts with
  | nil => rfl
  | cons part rest ih =>
    rw [sizeOfParts_cons, List.flatMap_cons, Text.byteLength_append, ih, Piece.size]

/-- The byte of the patched text is that of the part. -/
theorem Lies.byteAt? {p : Patch} {text : String} (h : Lies (p.parts text) g part k) :
    Text.byteAt? (p.apply text).code g = (Text.bytes part.text.toList)[k]? := by
  obtain ⟨front, back, hparts, rfl, hk⟩ := h
  have hcode : (p.apply text).code.toList =
      (front.flatMap fun part => part.text.toList) ++ part.text.toList ++
        back.flatMap fun part => part.text.toList := by
    rw [toList_apply_code, hparts, List.flatMap_append, List.flatMap_cons, List.append_assoc]
  rw [sizeOfParts_eq_byteLength]
  exact Text.byteAt?_of_toList hcode hk

end Mappings

/-! ## The given text is gone through once -/

/-- The parts go through the given text from `n` to its end: what is copied
stands there, what is replaced begins there, and the next part goes on behind
it. -/
inductive Tiles (source : List Char) : Nat → List Piece → Prop
  | done : Tiles source (Text.byteLength source) []
  | copied {front mid back : List Char} {rest : List Piece} {n : Nat}
      (hsource : source = front ++ mid ++ back) (hn : Text.byteLength front = n) (hmid : mid ≠ [])
      (h : Tiles source (n + Text.byteLength mid) rest) :
      Tiles source n (.copied n (String.ofList mid) :: rest)
  | inserted {text : String} {rest : List Piece} {n : Nat} (h : Tiles source n rest) :
      Tiles source n (.inserted text :: rest)
  | replaced {span : Span} {text : String} {rest : List Piece} (hspan : span.start < span.stop)
      (h : Tiles source span.stop rest) : Tiles source span.start (.replaced span text :: rest)

section Tiling

variable {source : List Char} {part : Piece} {parts front back rest : List Piece} {span : Span}
variable {os : List Overwrite} {is : List Insertion} {n m : Nat}

/-- What is copied goes on to the next boundary. -/
theorem tiles_copy (hn : Text.IsBoundary source n) (hm : Text.IsBoundary source m) (hle : n ≤ m)
    (h : Tiles source m rest) : Tiles source n (copy source n m ++ rest) := by
  obtain ⟨front, behind, rfl, rfl⟩ := hn
  obtain ⟨mid, back, rfl, rfl⟩ := hm.split hle
  rw [copy]
  split
  · rename_i hempty
    have hmid : Text.byteLength mid = 0 := by omega
    rw [hmid, Nat.add_zero] at h
    exact h
  · rename_i hlt
    have hmid : mid ≠ [] := by
      rintro rfl
      simp at hlt
    rw [← List.append_assoc] at h ⊢
    rw [Text.sliceChars?_append]
    exact .copied rfl rfl hmid h

/-- **The parts of a patched text tile the given one.** The induction is on
the number of edits still ahead. -/
theorem tiles_pieces (hn : Text.IsBoundary source n) (h : Ahead source n os is) :
    Tiles source n (pieces source (Text.byteLength source) n os is) := by
  obtain ⟨k, hk⟩ : ∃ k, os.length + is.length = k := ⟨_, rfl⟩
  induction k generalizing n os is with
  | zero =>
    obtain rfl : os = [] := List.length_eq_zero_iff.1 (by omega)
    obtain rfl : is = [] := List.length_eq_zero_iff.1 (by omega)
    have hle : n ≤ Text.byteLength source := by
      obtain ⟨front, back, rfl, rfl⟩ := hn
      rw [Text.byteLength_append]
      omega
    rw [pieces_nil, ← List.append_nil (copy source n _)]
    exact tiles_copy hn (Text.isBoundary_byteLength source) hle .done
  | succ k ih =>
    rcases next_edit os is with ⟨rfl, rfl⟩ | ⟨i, is, rfl, hnext⟩ | ⟨o, os, rfl, hnext⟩
    · simp at hk
    · -- an insertion comes next
      have hle : n ≤ i.position := h.positions i (by simp)
      have hboundary := h.insertions i (by simp)
      have hrest := ih hboundary (h.after_insertion hnext) (by simp at hk; omega)
      rw [pieces_insertion hnext, Nat.max_eq_right hle]
      exact tiles_copy hn hboundary hle (.inserted hrest)
    · -- an overwrite comes next
      obtain ⟨hstart, hstop⟩ := h.overwrites o (by simp)
      have hrest := ih hstop (h.after_overwrite hnext) (by simp at hk; omega)
      rw [pieces_overwrite hnext]
      exact tiles_copy hn hstart (h.starts o (by simp)) (.replaced (h.nonempty o (by simp)) hrest)

/-- The parts before a place and those behind it meet at one position. -/
theorem Tiles.split (h : Tiles source n (front ++ back)) :
    ∃ m, n ≤ m ∧ Tiles source m back ∧
      ∀ part ∈ front, ∀ s, part.given? = some s → n ≤ s.start ∧ s.stop ≤ m := by
  induction front generalizing n with
  | nil => exact ⟨n, Nat.le_refl n, h, List.forall_mem_nil _⟩
  | cons part front ih =>
    rw [List.cons_append] at h
    cases h with
    | copied hsource hn hmid h =>
      obtain ⟨m, hle, hback, hfront⟩ := ih h
      refine ⟨m, by omega, hback, List.forall_mem_cons.2 ⟨fun s hs => ?_, fun p hp s hs => ?_⟩⟩
      · cases hs
        simp only [String.toList_ofList]
        omega
      · have := hfront p hp s hs
        omega
    | inserted h =>
      obtain ⟨m, hle, hback, hfront⟩ := ih h
      refine ⟨m, hle, hback, List.forall_mem_cons.2 ⟨fun s hs => ?_, hfront⟩⟩
      cases hs
    | replaced hspan h =>
      obtain ⟨m, hle, hback, hfront⟩ := ih h
      refine ⟨m, by omega, hback, List.forall_mem_cons.2 ⟨fun s hs => ?_, fun p hp s hs => ?_⟩⟩
      · cases hs
        omega
      · have := hfront p hp s hs
        omega

/-- What the first part stands for begins where the tiling does, and the rest
goes on behind it. -/
theorem Tiles.head (h : Tiles source n (part :: rest)) (hgiven : part.given? = some span) :
    span.start = n ∧ span.start < span.stop ∧ Tiles source span.stop rest := by
  cases h with
  | @copied front mid back rest n hsource hn hmid h =>
    cases hgiven
    have hpos : Text.byteLength mid ≠ 0 := fun hzero => hmid (Text.byteLength_eq_zero.1 hzero)
    rw [String.toList_ofList]
    exact ⟨rfl, by dsimp only; omega, h⟩
  | inserted h => cases hgiven
  | replaced hspan h =>
    cases hgiven
    exact ⟨rfl, hspan, h⟩

/-- All parts of a tiling stand for what lies behind its start. -/
theorem Tiles.le_start (h : Tiles source n parts) (hpart : part ∈ parts)
    (hgiven : part.given? = some span) : n ≤ span.start := by
  rw [← List.append_nil parts] at h
  obtain ⟨m, -, -, hfront⟩ := h.split
  exact (hfront part hpart span hgiven).1

/-- **Every given byte is one that some part stands for.** -/
theorem Tiles.exists_part (h : Tiles source n parts) {o : Nat} (hle : n ≤ o)
    (hlt : o < Text.byteLength source) :
    ∃ part ∈ parts, ∃ s, part.given? = some s ∧ s.start ≤ o ∧ o < s.stop := by
  induction h with
  | done => omega
  | @copied front mid back rest n hsource hn hmid h ih =>
    by_cases hhere : o < n + Text.byteLength mid
    · refine ⟨_, List.mem_cons_self, _, rfl, hle, ?_⟩
      rwa [String.toList_ofList]
    · obtain ⟨part, hpart, hs⟩ := ih (by omega)
      exact ⟨part, List.mem_cons_of_mem _ hpart, hs⟩
  | inserted h ih =>
    obtain ⟨part, hpart, hs⟩ := ih hle
    exact ⟨part, List.mem_cons_of_mem _ hpart, hs⟩
  | @replaced span text rest hspan h ih =>
    by_cases hhere : o < span.stop
    · exact ⟨_, List.mem_cons_self, span, rfl, hle, hhere⟩
    · obtain ⟨part, hpart, hs⟩ := ih (by omega)
      exact ⟨part, List.mem_cons_of_mem _ hpart, hs⟩

/-- **What is copied stands in the given text** where the part says. -/
theorem Tiles.copied_eq (h : Tiles source n parts) {start : Nat} {text : String}
    (hpart : .copied start text ∈ parts) :
    ∃ front back, source = front ++ text.toList ++ back ∧ Text.byteLength front = start ∧
      text.toList ≠ [] := by
  induction h with
  | done => cases hpart
  | @copied front mid back rest n hsource hn hmid h ih =>
    rcases List.mem_cons.1 hpart with heq | hrest
    · cases heq
      rw [String.toList_ofList]
      exact ⟨front, back, hsource, hn, hmid⟩
    · exact ih hrest
  | inserted h ih =>
    rcases List.mem_cons.1 hpart with heq | hrest
    · cases heq
    · exact ih hrest
  | replaced hspan h ih =>
    rcases List.mem_cons.1 hpart with heq | hrest
    · cases heq
    · exact ih hrest

end Tiling

/-! ## What the parts stand for rises

The spans that the parts stand for come one after another also where an edit splits a
character, so that some of the text between two edits is copied nowhere. -/

/-- What some parts stand for. -/
def spansOf (parts : List Piece) : List Span :=
  parts.filterMap Piece.given?

/-- The spans come one after another, from `n` on and up to `m`. -/
structure Rising (n m : Nat) (spans : List Span) : Prop where
  starts : ∀ s ∈ spans, n ≤ s.start
  stops : ∀ s ∈ spans, s.stop ≤ m
  apart : spans.Pairwise fun a b => a.stop ≤ b.start

section Rising

variable {source even : List Char} {parts front back : List Piece} {spans spans' : List Span}
variable {os os' : List Overwrite} {is is' : List Insertion} {n k m length : Nat}

theorem rising_nil : Rising n m [] :=
  ⟨List.forall_mem_nil _, List.forall_mem_nil _, .nil⟩

theorem rising_singleton {s : Span} (hn : n ≤ s.start) (hm : s.stop ≤ m) : Rising n m [s] :=
  ⟨by simpa using hn, by simpa using hm, List.pairwise_singleton _ _⟩

theorem Rising.append (h : Rising n k spans) (h' : Rising k m spans') (hn : n ≤ k) (hm : k ≤ m) :
    Rising n m (spans ++ spans') := by
  refine ⟨fun s hs => ?_, fun s hs => ?_, List.pairwise_append.2 ⟨h.apart, h'.apart, ?_⟩⟩
  · rcases List.mem_append.1 hs with hs | hs
    · exact h.starts s hs
    · have := h'.starts s hs
      omega
  · rcases List.mem_append.1 hs with hs | hs
    · have := h.stops s hs
      omega
    · exact h'.stops s hs
  · intro a ha b hb
    have := h.stops a ha
    have := h'.starts b hb
    omega

theorem spansOf_append : spansOf (front ++ back) = spansOf front ++ spansOf back :=
  List.filterMap_append

/-- What is copied stands for the span from one position to the other, if at all. -/
theorem rising_copy : Rising n m (spansOf (copy source n m)) := by
  rw [copy]
  split
  · exact rising_nil
  · split
    · rename_i hlt cs hslice
      have hlength := Text.byteLength_of_sliceChars? hslice
      rw [Span.length] at hlength
      refine rising_singleton (Nat.le_refl n) ?_
      rw [String.toList_ofList]
      dsimp only at hlength ⊢
      omega
    · exact rising_nil

/-- **The parts rise,** whatever positions the edits have. The induction is on the number of
edits still ahead, which are in order for some text that has boundaries where they stand. -/
theorem rising_pieces (h : Ahead even n os is) (hn : n ≤ length)
    (hos : ∀ o ∈ os, o.span.stop ≤ length) (his : ∀ i ∈ is, i.position ≤ length) :
    Rising n length (spansOf (pieces source length n os is)) := by
  obtain ⟨k, hk⟩ : ∃ k, os.length + is.length = k := ⟨_, rfl⟩
  induction k generalizing n os is with
  | zero =>
    obtain rfl : os = [] := List.length_eq_zero_iff.1 (by omega)
    obtain rfl : is = [] := List.length_eq_zero_iff.1 (by omega)
    rw [pieces_nil]
    exact rising_copy
  | succ k ih =>
    rcases next_edit os is with ⟨rfl, rfl⟩ | ⟨i, is, rfl, hnext⟩ | ⟨o, os, rfl, hnext⟩
    · simp at hk
    · -- an insertion comes next, which stands for nothing
      have hle : n ≤ i.position := h.positions i (by simp)
      have hbound : i.position ≤ length := his i (by simp)
      have hrest := ih (h.after_insertion hnext) hbound hos (fun i' hi' => his i' (by simp [hi']))
        (by simp at hk; omega)
      rw [pieces_insertion hnext, Nat.max_eq_right hle, spansOf_append]
      exact rising_copy.append hrest hle hbound
    · -- an overwrite comes next
      have hle : n ≤ o.span.start := h.starts o (by simp)
      have hnonempty := h.nonempty o (by simp)
      have hbound : o.span.stop ≤ length := hos o (by simp)
      have hrest := ih (h.after_overwrite hnext) hbound (fun o' ho' => hos o' (by simp [ho'])) his
        (by simp at hk; omega)
      have hover : Rising o.span.start length
          ([o.span] ++ spansOf (pieces source length o.span.stop os is)) :=
        (rising_singleton (Nat.le_refl _) (Nat.le_refl _)).append hrest (by omega) hbound
      rw [pieces_overwrite hnext, spansOf_append]
      exact rising_copy.append hover hle (by omega)

/-- Of edits in order some may be left out. -/
theorem Ahead.sublist (h : Ahead source n os is) (hos : os'.Sublist os) (his : is'.Sublist is) :
    Ahead source n os' is' where
  chained := h.chained.sublist hos
  nonempty := fun o ho => h.nonempty o (hos.subset ho)
  starts := fun o ho => h.starts o (hos.subset ho)
  ordered := h.ordered.sublist his
  positions := fun i hi => h.positions i (his.subset hi)
  outside := fun i hi o ho => h.outside i (his.subset hi) o (hos.subset ho)
  overwrites := fun o ho => h.overwrites o (hos.subset ho)
  insertions := fun i hi => h.insertions i (his.subset hi)

/-- The edits of a sound patch are in order. Soundness knows the text by its length only, so
that they may be taken for edits of a text that has boundaries everywhere. -/
theorem Sound.ahead {cs : List Char} {p : Patch} (h : Sound cs p) :
    Ahead (Text.evenText (Text.byteLength cs)) 0 p.sortedOverwrites p.sortedInsertions := by
  have hlength := Text.byteLength_evenText (Text.byteLength cs)
  refine ahead_zero ⟨?_, h.nonempty, ?_, h.disjoint, ?_, h.outside⟩ ⟨fun o ho => ?_, fun i hi => ?_⟩
  · rw [hlength]
    exact h.length
  · rw [hlength]
    exact h.inBounds
  · rw [hlength]
    exact h.reached
  · have := h.nonempty o ho
    have := h.inBounds o ho
    exact ⟨Text.isBoundary_evenText (by omega), Text.isBoundary_evenText (by omega)⟩
  · exact Text.isBoundary_evenText (h.reached i hi)

/-- The mappings of some parts map to what the parts stand for. -/
theorem map_given_sublist (g : Nat) (parts : List Piece) :
    ((mappingsFrom g parts).map Mapping.given).Sublist (spansOf parts) := by
  induction parts generalizing g with
  | nil => exact .slnil
  | cons part rest ih =>
    have hone : ((part.mapping? g).toList.map Mapping.given).Sublist part.given?.toList := by
      cases hmapping : part.mapping? g with
      | none => exact List.nil_sublist _
      | some m =>
        rw [(Piece.mapping?_eq_some.1 hmapping).2.1]
        exact List.Sublist.refl _
    have hspans : spansOf (part :: rest) = part.given?.toList ++ spansOf rest := by
      rw [spansOf, List.filterMap_cons]
      cases part.given? <;> rfl
    rw [mappingsFrom, List.map_append, hspans]
    exact hone.append (ih _)

end Rising

/-! ## Which overwrites have a part -/

theorem replaced_notMem_copy {source : List Char} {n m : Nat} {span : Span} {text : String} :
    .replaced span text ∉ copy source n m := by
  rw [copy]
  split
  · exact List.not_mem_nil
  · split
    · simp
    · exact List.not_mem_nil

theorem replaced_notMem_insertionPieces {source : List Char} {n : Nat} {is : List Insertion}
    {span : Span} {text : String} : .replaced span text ∉ (insertionPieces source n is).1 := by
  induction is generalizing n with
  | nil => exact List.not_mem_nil
  | cons i is ih =>
    rw [insertionPieces]
    simp [replaced_notMem_copy, ih]

/-- The parts that replace something are the overwrites. -/
theorem replaced_mem_pieces {source : List Char} {length n : Nat} {os : List Overwrite}
    {is : List Insertion} {span : Span} {text : String} :
    .replaced span text ∈ pieces source length n os is ↔ ⟨span, text⟩ ∈ os := by
  induction os generalizing n is with
  | nil => simp [pieces, replaced_notMem_copy, replaced_notMem_insertionPieces]
  | cons o os ih =>
    rw [pieces]
    simp only [List.mem_append, List.mem_cons, replaced_notMem_copy,
      replaced_notMem_insertionPieces, ih, false_or, Piece.replaced.injEq]
    obtain ⟨span', text'⟩ := o
    simp only [Overwrite.mk.injEq]

/-! ## Main statement -/

section Main

variable {p : Patch} {text : String} {part : Piece} {span : Span} {g k : Nat}

/-- A part that stands for something leaves a mapping, if it is not empty. -/
theorem Lies.mapping_mem (h : Lies (p.parts text) g part k) (hgiven : part.given? = some span) :
    ⟨⟨g - k, g - k + part.size⟩, span⟩ ∈ (p.apply text).map.mappings := by
  obtain ⟨front, back, hparts, rfl, hk⟩ := h
  rw [mappings_apply]
  refine mem_mappingsFrom.2 ⟨front, part, back, hparts, Piece.mapping?_eq_some.2 ⟨?_, hgiven, ?_⟩⟩
  · omega
  · rw [Nat.zero_add, Nat.add_sub_cancel]

/-- **Where a byte of the patched text comes from** is told by its part. -/
theorem givenPosition_of_lies (h : Lies (p.parts text) g part k) :
    (p.apply text).map.givenPosition g =
      part.given?.map fun given => PositionMap.transfer ⟨0, part.size⟩ given k := by
  have hplace := h
  obtain ⟨front, back, hparts, rfl, hk⟩ := h
  cases hgiven : part.given? with
  | some given =>
    have hmem := hplace.mapping_mem hgiven
    rw [Nat.add_sub_cancel] at hmem
    have hcontains : (Span.mk (sizeOfParts front) (sizeOfParts front + part.size)).contains
        (sizeOfParts front + k) := by
      rw [Span.contains_eq_true]
      dsimp only
      omega
    rw [(ordered_apply p text).givenPosition_of_contains hmem hcontains, Option.map_some,
      PositionMap.transfer_shift]
  | none =>
    refine (ordered_apply p text).givenPosition_eq_none fun m hm hcontains => ?_
    -- the byte would be one of the part of that mapping, which stands for something
    rw [mappings_apply] at hm
    obtain ⟨front', part', back', hparts', hmapping⟩ := mem_mappingsFrom.1 hm
    obtain ⟨-, hsome, hgenerated⟩ := Piece.mapping?_eq_some.1 hmapping
    rw [hgenerated, Span.contains_eq_true, Nat.zero_add] at hcontains
    rw [hplace.unique hparts' hcontains.1 hcontains.2, hgiven] at hsome
    cases hsome

/-- The map tells of every byte of the patched text and of the given one what
became of it. -/
structure MapsExactly (p : Patch) (text : String) : Prop where
  /-- Each mapping has a byte of the patched text. -/
  nonempty : ∀ m ∈ (p.apply text).map.mappings, m.generated.start < m.generated.stop
  /-- The mappings come one after another in the patched text. -/
  ordered : (p.apply text).map.mappings.Pairwise fun a b => a.generated.stop ≤ b.generated.start
  /-- Each byte of the patched text is copied, put in or put in the place of others. -/
  parted : ∀ g < Text.byteLength (p.apply text).code.toList, ∃ part k, Lies (p.parts text) g part k
  /-- A byte that is copied comes from where the same byte is. -/
  copied : ∀ g start copy k, Lies (p.parts text) g (.copied start copy) k →
    (p.apply text).map.givenPosition g = some (start + k) ∧
      ∃ byte, Text.byteAt? (p.apply text).code g = some byte ∧
        Text.byteAt? text (start + k) = some byte
  /-- Bytes that are copied stay in their order. -/
  grows : ∀ g start copy k g' start' copy' k', Lies (p.parts text) g (.copied start copy) k →
    Lies (p.parts text) g' (.copied start' copy') k' → g < g' → start + k < start' + k'
  /-- A byte that is put in comes from nowhere. -/
  inserted : ∀ g insertion k, Lies (p.parts text) g (.inserted insertion) k →
    (p.apply text).map.givenPosition g = none
  /-- There is nothing behind the patched text. -/
  ended : ∀ g, Text.byteLength (p.apply text).code.toList ≤ g →
    (p.apply text).map.givenPosition g = none
  /-- A byte that no overwrite covers is found in the patched text, and leads back. -/
  thereAndBack : ∀ o < Text.byteLength text.toList, (∀ w ∈ p.overwrites, ¬ w.span.contains o) →
    ∃ g, (p.apply text).map.generatedPosition o = some g ∧
      (p.apply text).map.givenPosition g = some o
  /-- A byte that is removed is not found. -/
  removed : ∀ w ∈ p.overwrites, w.text = "" → ∀ o, w.span.contains o →
    (p.apply text).map.generatedPosition o = none

variable (hsound : Sound text.toList p) (hplaced : Placed text.toList p)

include hsound

theorem rising_parts : Rising 0 (Text.byteLength text.toList) (spansOf (p.parts text)) :=
  rising_pieces hsound.ahead (Nat.zero_le _)
    (fun o ho => hsound.inBounds o (mem_sortedOverwrites.1 ho))
    fun i hi => hsound.reached i (mem_sortedInsertions.1 hi)

theorem aligned_apply : (p.apply text).map.Aligned where
  toOrdered := ordered_apply p text
  given := by
    have hspans := (rising_parts hsound).apart.sublist (map_given_sublist 0 (p.parts text))
    rw [mappings_apply]
    exact List.pairwise_map.1 hspans

include hplaced

theorem tiles_parts : Tiles text.toList 0 (p.parts text) :=
  tiles_pieces ⟨[], text.toList, rfl, rfl⟩ (ahead_zero hsound hplaced)

theorem mapsExactly_of_placed : p.MapsExactly text where
  nonempty := (ordered_apply p text).nonempty
  ordered := (ordered_apply p text).apart
  parted := by
    intro g hg
    rw [toList_apply_code, ← sizeOfParts_eq_byteLength] at hg
    exact exists_lies hg
  copied := by
    intro g start copy k h
    have hsize : Piece.size (.copied start copy) = Text.byteLength copy.toList := rfl
    have hposition := givenPosition_of_lies h
    have hbyte := h.byteAt?
    obtain ⟨front, back, hparts, -, hk⟩ := h
    obtain ⟨before, behind, hsource, hstart, -⟩ :=
      (tiles_parts hsound hplaced).copied_eq (hparts ▸ List.mem_append_right _ List.mem_cons_self)
    have hgiven : Text.byteAt? text (start + k) = (Text.bytes copy.toList)[k]? :=
      hstart ▸ Text.byteAt?_of_toList hsource hk
    refine ⟨?_, ?_⟩
    · rw [hposition]
      simp [Piece.given?, PositionMap.transfer, Span.length, hsize]
    · have hlt : k < (Text.bytes copy.toList).length := by rwa [Text.length_bytes]
      exact ⟨(Text.bytes copy.toList)[k], hbyte.trans (List.getElem?_eq_getElem hlt),
        hgiven.trans (List.getElem?_eq_getElem hlt)⟩
  grows := by
    intro g start copy k g' start' copy' k' h h' hlt
    have hm := h.mapping_mem rfl
    have hm' := h'.mapping_mem rfl
    obtain ⟨front, back, hparts, rfl, hk⟩ := h
    obtain ⟨front', back', hparts', rfl, hk'⟩ := h'
    simp only [Piece.size, Piece.text, Nat.add_sub_cancel] at hm hm' hk hk'
    by_cases hsame : sizeOfParts front = sizeOfParts front' ∧ start = start'
    · omega
    · have hapart := (aligned_apply hsound).before_or_after hm hm' fun heq => by
        simp only [Mapping.mk.injEq, Span.mk.injEq] at heq
        exact hsame ⟨heq.1.1, heq.2.1⟩
      dsimp only at hapart
      omega
  inserted := by
    intro g insertion k h
    rw [givenPosition_of_lies h]
    rfl
  ended := by
    intro g hg
    rw [toList_apply_code, ← sizeOfParts_eq_byteLength] at hg
    refine (ordered_apply p text).givenPosition_eq_none fun m hm hcontains => ?_
    rw [mappings_apply] at hm
    have hbounds := bounds_of_mem_mappingsFrom hm
    rw [Span.contains_eq_true] at hcontains
    omega
  thereAndBack := by
    intro o hlt huncovered
    obtain ⟨part, hpart, s, hgiven, hle, hstop⟩ :=
      (tiles_parts hsound hplaced).exists_part (Nat.zero_le o) hlt
    cases part with
    | inserted insertion => cases hgiven
    | replaced span replacement =>
      -- this part is that of an overwrite, which covers the byte
      cases hgiven
      have hmem := mem_sortedOverwrites.1 (replaced_mem_pieces.1 hpart)
      exact absurd (Span.contains_eq_true.2 ⟨hle, hstop⟩) (huncovered _ hmem)
    | copied start copy =>
      cases hgiven
      obtain ⟨front, back, hparts⟩ := List.append_of_mem hpart
      have hlies : Lies (p.parts text) (sizeOfParts front + 0) (.copied start copy) 0 := by
        refine ⟨front, back, hparts, rfl, ?_⟩
        simp only [Piece.size, Piece.text]
        dsimp only at hle hstop
        omega
      refine (aligned_apply hsound).exists_generatedPosition (hlies.mapping_mem rfl) ?_ ?_
      · simp [Span.length, Piece.size, Piece.text]
      · exact Span.contains_eq_true.2 ⟨hle, hstop⟩
  removed := by
    intro w hw hempty o hcontains
    refine PositionMap.generatedPosition_eq_none fun m hm hm' => ?_
    obtain ⟨span, replacement⟩ := w
    obtain rfl : replacement = "" := hempty
    rw [Span.contains_eq_true] at hcontains hm'
    dsimp only at hcontains
    rw [mappings_apply] at hm
    -- the part of the overwrite leaves no mapping, and all others are before or behind it
    obtain ⟨front, back, hparts⟩ :=
      List.append_of_mem (replaced_mem_pieces.2 (mem_sortedOverwrites.2 hw))
    have htiles := tiles_parts hsound hplaced
    change p.parts text = _ at hparts
    rw [hparts] at htiles hm
    obtain ⟨middle, -, hrest, hbefore⟩ := htiles.split
    obtain ⟨hstart, -, hbehind⟩ := hrest.head rfl
    rw [mappingsFrom_append, mappingsFrom, List.mem_append, List.mem_append] at hm
    rcases hm with hm | hm | hm
    · obtain ⟨front', part', back', rfl, hmapping⟩ := mem_mappingsFrom.1 hm
      have := hbefore part' (List.mem_append_right _ List.mem_cons_self) m.given
        (Piece.mapping?_eq_some.1 hmapping).2.1
      omega
    · cases hm
    · obtain ⟨front', part', back', rfl, hmapping⟩ := mem_mappingsFrom.1 hm
      have := hbehind.le_start (List.mem_append_right _ List.mem_cons_self)
        (Piece.mapping?_eq_some.1 hmapping).2.1
      omega

end Main

/-- **The position map is exact after every run.** Whatever calls came, accepted
or not, as long as none names a position within a character. -/
theorem mapsExactly_after_run {text : String} {edits : List Edit}
    (h : ∀ e ∈ edits, e.KeepsCharacters text.toList) :
    ((ofText text).run edits).MapsExactly text :=
  mapsExactly_of_placed ((sound_ofText text).run edits)
    ((placed_ofText text).run (sound_ofText text) h)

/-- A character of three bytes is removed, the one before it has text behind it, and the
one after it is replaced. -/
theorem mapsExactly_after_run_removed :
    let edits : List Edit := [.appendRight 1 "-", .remove ⟨1, 4⟩, .overwrite ⟨4, 5⟩ "BB"]
    let p := (ofText "a€bc").run edits
    (∀ e ∈ edits, e.KeepsCharacters "a€bc".toList) ∧ p.MapsExactly "a€bc" ∧
      (p.apply "a€bc").map.generatedPosition 2 = none ∧
      ∃ g, (p.apply "a€bc").map.generatedPosition 5 = some g ∧
        (p.apply "a€bc").map.givenPosition g = some 5 := by
  intro edits p
  have h : ∀ e ∈ edits, e.KeepsCharacters "a€bc".toList := by decide
  have hexact : p.MapsExactly "a€bc" := mapsExactly_after_run h
  refine ⟨h, hexact, ?_, ?_⟩
  · exact hexact.removed ⟨⟨1, 4⟩, ""⟩ (by decide) rfl 2 rfl
  · exact hexact.thereAndBack 5 (by decide) (by decide)

end Patch

end ModuleAssets
