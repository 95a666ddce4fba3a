import ModuleAssets.Proofs.Evaluate.Datum
import ModuleAssets.Value.Basic
import Mathlib.Data.List.TakeWhile
/-!
# Numeric texts — the number a text stands for

A text that is taken for a number loses the white space around it, and what is
left is a numeral with at most one sign, `Infinity`, or nothing. Here the
numbers that are known of texts are shown to be those of the language
(`Language.numberOf_of_numberOfText?`). The two differ in what they take for
white space: U+0085 is white space to Unicode and not to the language.
-/

namespace ModuleAssets.Language

open Text (isWhiteSpace trim)

/-! ## White space -/

/-- The control character that begins a new line. -/
def nextLine : Char := '\u0085'

theorem isBlank_of_isWhiteSpace {c : Char} (h : isWhiteSpace c = true) (hc : c ≠ nextLine) :
    isBlank c = true := by
  have hcode : c.toNat ≠ 0x85 := fun heq => hc (Char.toNat_inj.1 heq)
  simp only [isWhiteSpace, Bool.or_eq_true, Bool.and_eq_true, decide_eq_true_eq, List.contains_iff_mem,
    List.mem_cons, List.not_mem_nil, or_false] at h
  simp only [isBlank, Bool.or_eq_true, Bool.and_eq_true, decide_eq_true_eq, List.contains_iff_mem,
    List.mem_cons, List.not_mem_nil, or_false]
  omega

/-- The characters of which signed numerals consist. -/
def isNumeric (c : Char) : Bool :=
  c.isDigit || (c == '+' || c == '-') || c == '.' || c == 'e' || c == 'E'

theorem toNat_of_isNumeric {c : Char} (h : isNumeric c = true) :
    (48 ≤ c.toNat ∧ c.toNat ≤ 57) ∨ c.toNat = 43 ∨ c.toNat = 45 ∨ c.toNat = 46 ∨
      c.toNat = 101 ∨ c.toNat = 69 := by
  simp only [isNumeric, Bool.or_eq_true, beq_iff_eq] at h
  obtain (((h | rfl | rfl) | rfl) | rfl) | rfl := h
  · rw [Char.isDigit, Bool.and_eq_true, decide_eq_true_iff, decide_eq_true_iff] at h
    exact .inl h
  all_goals decide

theorem not_isNumeric_of_isWhiteSpace {c : Char} (h : isWhiteSpace c = true) :
    isNumeric c = false := by
  refine Bool.eq_false_iff.2 fun hnumeric => ?_
  have hcode := toNat_of_isNumeric hnumeric
  simp only [isWhiteSpace, Bool.or_eq_true, Bool.and_eq_true, decide_eq_true_eq, List.contains_iff_mem,
    List.mem_cons, List.not_mem_nil, or_false] at h
  omega

theorem not_isNumeric_of_isBlank {c : Char} (h : isBlank c = true) : isNumeric c = false := by
  refine Bool.eq_false_iff.2 fun hnumeric => ?_
  have hcode := toNat_of_isNumeric hnumeric
  simp only [isBlank, Bool.or_eq_true, Bool.and_eq_true, decide_eq_true_eq, List.contains_iff_mem,
    List.mem_cons, List.not_mem_nil, or_false] at h
  omega

/-- What trimming takes away is white space. -/
theorem trim_spec (cs : List Char) :
    ∃ before after, cs = before ++ trim cs ++ after ∧
      (∀ c ∈ before, isWhiteSpace c = true) ∧ ∀ c ∈ after, isWhiteSpace c = true := by
  refine ⟨cs.takeWhile isWhiteSpace, ((cs.dropWhile isWhiteSpace).reverse.takeWhile isWhiteSpace).reverse,
    ?_, fun c hc => List.mem_takeWhile_imp hc, fun c hc => ?_⟩
  · rw [trim, List.append_assoc, ← List.reverse_append, List.takeWhile_append_dropWhile,
      List.reverse_reverse, List.takeWhile_append_dropWhile]
  · exact List.mem_takeWhile_imp (List.mem_reverse.1 hc)

/-! ## Numerals -/

variable {text cs ds : List Char} {x : Float} {d : Decimal}

theorem isNumeric_of_areDigits (h : Decimal.AreDigits ds) : ∀ c ∈ ds, isNumeric c = true := by
  intro c hc
  simp [isNumeric, h c hc]

theorem isNumeric_of_numeral (h : Decimal.Numeral ds d) : ∀ c ∈ ds, isNumeric c = true := by
  have hmantissa {cs : List Char} {d : Decimal} (h : Decimal.Mantissa cs d) :
      ∀ c ∈ cs, isNumeric c = true := by
    cases h with
    | whole hw => exact isNumeric_of_areDigits hw
    | pointed hw hf =>
      exact List.forall_mem_append.2 ⟨isNumeric_of_areDigits hw,
        List.forall_mem_cons.2 ⟨rfl, isNumeric_of_areDigits hf⟩⟩
  have hmark {mark : Char} (h : mark = 'e' ∨ mark = 'E') : isNumeric mark = true := by
    obtain rfl | rfl := h <;> rfl
  cases h with
  | plain h => exact hmantissa h
  | scaled h he =>
    refine List.forall_mem_append.2 ⟨hmantissa h, ?_⟩
    cases he with
    | plain hm hds => exact List.forall_mem_cons.2 ⟨hmark hm, isNumeric_of_areDigits hds⟩
    | plus hm hds =>
      exact List.forall_mem_cons.2 ⟨hmark hm, List.forall_mem_cons.2 ⟨rfl, isNumeric_of_areDigits hds⟩⟩
    | minus hm hds =>
      exact List.forall_mem_cons.2 ⟨hmark hm, List.forall_mem_cons.2 ⟨rfl, isNumeric_of_areDigits hds⟩⟩

/-- A numeral starts with a digit or a point. -/
theorem head?_numeral (h : Decimal.Numeral ds d) :
    ∃ c rest, ds = c :: rest ∧ (c.isDigit = true ∨ c = '.') := by
  have hmantissa {cs : List Char} {d : Decimal} (h : Decimal.Mantissa cs d) :
      ∃ c rest, cs = c :: rest ∧ (c.isDigit = true ∨ c = '.') := by
    cases h with
    | whole hw hne =>
      obtain ⟨c, rest, rfl⟩ := List.exists_cons_of_ne_nil hne
      exact ⟨c, rest, rfl, .inl (hw c List.mem_cons_self)⟩
    | @pointed w f hw =>
      cases w with
      | nil => exact ⟨'.', f, rfl, .inr rfl⟩
      | cons c w => exact ⟨c, _, rfl, .inl (hw c List.mem_cons_self)⟩
  cases h with
  | plain h => exact hmantissa h
  | scaled h =>
    obtain ⟨c, rest, rfl, hc⟩ := hmantissa h
    exact ⟨c, _, rfl, hc⟩

/-- The character is a sign. -/
def isSign (c : Char) : Bool :=
  c == '+' || c == '-'

theorem isSign_of_mem {sign : List Char} {negative : Bool} (h : IsSign sign negative) :
    ∀ c ∈ sign, isSign c = true := by
  intro c hc
  cases h with
  | missing => cases hc
  | plus => rw [List.mem_singleton.1 hc]; rfl
  | minus => rw [List.mem_singleton.1 hc]; rfl

theorem isNumeric_of_isSign {sign : List Char} {negative : Bool} (h : IsSign sign negative) :
    ∀ c ∈ sign, isNumeric c = true := by
  intro c hc
  have hsign := isSign_of_mem h c hc
  rw [isSign] at hsign
  rw [isNumeric, hsign, Bool.or_true]
  rfl

/-- The sign of a numeral is what stands in front of its digits. -/
theorem takeWhile_isSign {sign : List Char} {negative : Bool} (hsign : IsSign sign negative)
    (h : Decimal.Numeral ds d) :
    (sign ++ ds).takeWhile isSign = sign ∧ (sign ++ ds).dropWhile isSign = ds := by
  obtain ⟨c, rest, rfl, hc⟩ := head?_numeral h
  have hnot : isSign c = false := by
    refine Bool.eq_false_iff.2 fun hs => ?_
    simp only [isSign, Bool.or_eq_true, beq_iff_eq] at hs
    obtain rfl | rfl := hs <;> simp at hc
  rw [List.takeWhile_append_of_pos (isSign_of_mem hsign),
    List.dropWhile_append_of_pos (isSign_of_mem hsign)]
  simp [hnot]

/-- One sign at most is the sign of a number. -/
theorem isSign_takeWhile (h : (cs.takeWhile isSign).length ≤ 1) :
    IsSign (cs.takeWhile isSign) (cs.takeWhile isSign == ['-']) := by
  have hall : ∀ c ∈ cs.takeWhile isSign, isSign c = true := fun c hc => List.mem_takeWhile_imp hc
  generalize cs.takeWhile isSign = sign at *
  match sign with
  | [] => exact .missing
  | [c] =>
    have hc := hall c List.mem_cons_self
    simp only [isSign, Bool.or_eq_true, beq_iff_eq] at hc
    obtain rfl | rfl := hc
    · exact .plus
    · exact .minus
  | _ :: _ :: _ => simp at h

/-! ## Texts -/

/-- A text of which only white space and parts of numerals are known has no
other core than what is left of it. -/
theorem core_unique (hcore : IsCore text cs) (hcs : ∀ c ∈ cs, isNumeric c = true)
    (htext : text.filter isNumeric = ds) : cs = ds := by
  obtain ⟨before, after, rfl, hbefore, hafter⟩ := hcore
  have hnone {blank : List Char} (h : AreBlank blank) : blank.filter isNumeric = [] :=
    List.filter_eq_nil_iff.2 fun c hc => Bool.not_eq_true _ ▸ not_isNumeric_of_isBlank (h c hc)
  rw [List.filter_append, List.filter_append, hnone hbefore, hnone hafter,
    List.filter_eq_self.2 hcs, List.nil_append, List.append_nil] at htext
  exact htext

/-- Where all that is left of a text are parts of numerals and it is none, it
stands for no number. -/
theorem numberOf_of_not_numeral {before after : List Char} (htext : text = before ++ cs ++ after)
    (hbefore : ∀ c ∈ before, isWhiteSpace c = true) (hafter : ∀ c ∈ after, isWhiteSpace c = true)
    (hne : cs ≠ []) (hcs : ∀ c ∈ cs, isNumeric c = true)
    (hnone : ∀ sign ds negative d, IsSign sign negative → cs = sign ++ ds → ¬ Decimal.Numeral ds d) :
    NumberOf text Double.nan := by
  have hnot {blank : List Char} (h : ∀ c ∈ blank, isWhiteSpace c = true) :
      blank.filter isNumeric = [] :=
    List.filter_eq_nil_iff.2 fun c hc => Bool.not_eq_true _ ▸ not_isNumeric_of_isWhiteSpace (h c hc)
  have hfilter : text.filter isNumeric = cs := by
    rw [htext, List.filter_append, List.filter_append, hnot hbefore, hnot hafter,
      List.filter_eq_self.2 hcs, List.nil_append, List.append_nil]
  have hmem (c : Char) (hc : c ∈ text) : isWhiteSpace c = true ∨ isNumeric c = true := by
    rw [htext, List.mem_append, List.mem_append] at hc
    obtain (hc | hc) | hc := hc
    · exact .inl (hbefore c hc)
    · exact .inr (hcs c hc)
    · exact .inl (hafter c hc)
  refine .other fun core hcore => ⟨fun x hx => ?_, ?_⟩
  · cases hx with
    | blank => exact hne (core_unique hcore (by simp) hfilter).symm
    | numeral hsign hds =>
      have hnumeric := List.forall_mem_append.2 ⟨isNumeric_of_isSign hsign, isNumeric_of_numeral hds⟩
      exact hnone _ _ _ _ hsign (core_unique hcore hnumeric hfilter).symm hds
    | @infinity sign _ hsign =>
      obtain ⟨front, back, rfl, -, -⟩ := hcore
      have hI : 'I' ∈ front ++ (sign ++ "Infinity".toList) ++ back := by simp
      obtain h | h := hmem 'I' hI <;> cases h
  · rintro ⟨mark, hmark, hstart⟩
    obtain ⟨front, back, rfl, -, -⟩ := hcore
    have hmem := hmem mark (by
      refine List.mem_append_left _ (List.mem_append_right _ (hstart.subset ?_))
      simp)
    simp only [List.mem_cons, List.not_mem_nil, or_false] at hmark
    obtain rfl | rfl | rfl | rfl | rfl | rfl := hmark <;> obtain h | h := hmem <;> cases h

/-- **A number that is known of a text is the one that the text stands for.** -/
theorem numberOf_of_numberOfText? {s : String} (h : Value.numberOfText? s = some x)
    (hnext : nextLine ∉ s.toList) : NumberOf s.toList x := by
  obtain ⟨before, after, htext, hbefore, hafter⟩ := trim_spec s.toList
  have hblank {part : List Char} (hpart : ∀ c ∈ part, isWhiteSpace c = true)
      (hsub : ∀ c ∈ part, c ∈ s.toList) : AreBlank part := fun c hc =>
    isBlank_of_isWhiteSpace (hpart c hc) fun heq => hnext (heq ▸ hsub c hc)
  have hcore : IsCore s.toList (trim s.toList) :=
    ⟨before, after, htext,
      hblank hbefore fun c hc => htext ▸ List.mem_append_left _ (List.mem_append_left _ hc),
      hblank hafter fun c hc => htext ▸ List.mem_append_right _ hc⟩
  have hread : Value.numberOfText? s =
      let cs := trim s.toList
      let sign := cs.takeWhile isSign
      let rest := cs.dropWhile isSign
      let signed := withSign (sign == ['-'])
      if cs = [] then some 0.0
      else if 1 < sign.length then none
      else if rest = "Infinity".toList then some (signed Double.infinity)
      else if rest.all isNumeric then
        some (((Decimal.ofNumeral? rest).map fun d => signed d.toFloat).getD Double.nan)
      else none := rfl
  rw [hread] at h
  generalize trim s.toList = cs at *
  simp only at h
  split at h
  · rename_i hempty
    obtain rfl := Option.some.inj h
    exact .numeric (hempty ▸ hcore) .blank
  rename_i hne
  split at h
  · cases h
  rename_i hsigns
  have hsign := isSign_takeWhile (Nat.le_of_not_lt hsigns)
  have hcs := List.takeWhile_append_dropWhile (p := isSign) (l := cs)
  split at h
  · rename_i hinfinity
    obtain rfl := Option.some.inj h
    rw [← hcs, hinfinity] at hcore
    exact .numeric hcore (.infinity hsign)
  split at h
  · rename_i hnumeric
    obtain rfl := Option.some.inj h
    cases hread : Decimal.ofNumeral? (cs.dropWhile isSign) with
    | some d =>
      rw [← hcs] at hcore
      exact .numeric hcore (.numeral hsign (Decimal.ofNumeral?_eq_some_iff.1 hread))
    | none =>
      refine numberOf_of_not_numeral htext hbefore hafter hne ?_ ?_
      · rw [← hcs]
        exact List.forall_mem_append.2 ⟨isNumeric_of_isSign hsign, List.all_eq_true.1 hnumeric⟩
      · rintro sign ds negative d hsigned rfl hds
        rw [(takeWhile_isSign hsigned hds).2, Decimal.ofNumeral?_eq_some_iff.2 hds] at hread
        cases hread
  · cases h

end ModuleAssets.Language
