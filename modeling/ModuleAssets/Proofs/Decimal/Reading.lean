import ModuleAssets.Decimal.Numeral
import Mathlib.Tactic.Common
/-!
# Reading — the numerals of the grammar

The grammar of the language says what a numeral is and which decimal it
stands for. Reading takes the same for numerals, with the same decimals
(`Decimal.ofNumeral?_eq_some_iff`).
-/

namespace ModuleAssets.Decimal

/-- All characters are decimal digits. -/
def AreDigits (cs : List Char) : Prop :=
  ∀ c ∈ cs, c.isDigit = true

/-- The whole number that decimal digits write. -/
def written (cs : List Char) : Nat :=
  Nat.ofDigitChars 10 cs 0

/-- Digits with at most one point, which is not alone. -/
inductive Mantissa : List Char → Decimal → Prop
  | whole {w : List Char} (hw : AreDigits w) (hne : w ≠ []) : Mantissa w ⟨written w, 0⟩
  | pointed {w f : List Char} (hw : AreDigits w) (hf : AreDigits f) (hne : w ++ f ≠ []) :
    Mantissa (w ++ '.' :: f) ⟨written (w ++ f), -(f.length : Int)⟩

/-- A letter, perhaps a sign, and digits. -/
inductive ExponentPart : List Char → Int → Prop
  | plain {mark : Char} {ds : List Char} (hmark : mark = 'e' ∨ mark = 'E') (hds : AreDigits ds)
    (hne : ds ≠ []) : ExponentPart (mark :: ds) (written ds)
  | plus {mark : Char} {ds : List Char} (hmark : mark = 'e' ∨ mark = 'E') (hds : AreDigits ds)
    (hne : ds ≠ []) : ExponentPart (mark :: '+' :: ds) (written ds)
  | minus {mark : Char} {ds : List Char} (hmark : mark = 'e' ∨ mark = 'E') (hds : AreDigits ds)
    (hne : ds ≠ []) : ExponentPart (mark :: '-' :: ds) (-(written ds : Int))

/-- A numeral without sign, and the decimal that it stands for. -/
inductive Numeral : List Char → Decimal → Prop
  | plain {cs : List Char} {d : Decimal} (h : Mantissa cs d) : Numeral cs d
  | scaled {cs es : List Char} {d : Decimal} {e : Int} (h : Mantissa cs d) (he : ExponentPart es e) :
    Numeral (cs ++ es) ⟨d.digits, d.exponent + e⟩

variable {w f tail cs : List Char} {d : Decimal} {e : Int}

theorem all_isDigit_iff : cs.all Char.isDigit = true ↔ AreDigits cs := by
  rw [List.all_eq_true, AreDigits]

/-! ## Exponents -/

/-- Digits that are read, if there are any and nothing else. -/
theorem digits_eq_some_iff {x : Int} :
    (if cs.isEmpty || !cs.all Char.isDigit then none else some x) = some e ↔
      cs ≠ [] ∧ AreDigits cs ∧ x = e := by
  rw [← all_isDigit_iff]
  cases cs.all Char.isDigit <;> cases cs <;> simp

theorem exponentOf?_unsigned (hplus : cs.head? ≠ some '+') (hminus : cs.head? ≠ some '-') :
    exponentOf? cs =
      if cs.isEmpty || !cs.all Char.isDigit then none else some (written cs : Int) := by
  unfold exponentOf?
  split
  rename_i negative digits hsign
  split at hsign
  · exact absurd rfl hminus
  · exact absurd rfl hplus
  · obtain ⟨rfl, rfl⟩ := Prod.mk.inj hsign
    rfl

/-- What is read behind the letter. -/
theorem exponentOf?_eq_some_iff {mark : Char} (hmark : mark = 'e' ∨ mark = 'E') :
    exponentOf? cs = some e ↔ ExponentPart (mark :: cs) e := by
  constructor
  · intro h
    by_cases hminus : cs.head? = some '-'
    · obtain ⟨rest, rfl⟩ := List.head?_eq_some_iff.1 hminus
      obtain ⟨hne, hds, rfl⟩ := digits_eq_some_iff.1 h
      exact .minus hmark hds hne
    by_cases hplus : cs.head? = some '+'
    · obtain ⟨rest, rfl⟩ := List.head?_eq_some_iff.1 hplus
      obtain ⟨hne, hds, rfl⟩ := digits_eq_some_iff.1 h
      exact .plus hmark hds hne
    rw [exponentOf?_unsigned hplus hminus] at h
    obtain ⟨hne, hds, rfl⟩ := digits_eq_some_iff.1 h
    exact .plain hmark hds hne
  · intro h
    cases h with
    | plain _ hds hne =>
      have hhead (c : Char) (hc : c.isDigit = false) : cs.head? ≠ some c := fun h => by
        rw [hds c (List.mem_of_head? h)] at hc
        cases hc
      rw [exponentOf?_unsigned (hhead '+' rfl) (hhead '-' rfl)]
      exact digits_eq_some_iff.2 ⟨hne, hds, rfl⟩
    | plus _ hds hne => exact digits_eq_some_iff.2 ⟨hne, hds, rfl⟩
    | minus _ hds hne => exact digits_eq_some_iff.2 ⟨hne, hds, rfl⟩

/-! ## The end of a numeral -/

/-- The character after some digits is none of them. -/
def StartsOutside (tail : List Char) : Prop :=
  ∀ c ∈ tail.head?, c.isDigit = false

theorem takeWhile_digits (hw : AreDigits w) (htail : StartsOutside tail) :
    (w ++ tail).takeWhile Char.isDigit = w := by
  rw [List.takeWhile_append_of_pos hw]
  cases tail with
  | nil => simp
  | cons c rest => simp [htail c rfl]

theorem dropWhile_digits (hw : AreDigits w) (htail : StartsOutside tail) :
    (w ++ tail).dropWhile Char.isDigit = tail := by
  rw [List.dropWhile_append_of_pos hw]
  cases tail with
  | nil => simp
  | cons c rest => simp [htail c rfl]

/-- Some digits are followed by something else. -/
theorem exists_digits (cs : List Char) :
    ∃ w tail, cs = w ++ tail ∧ AreDigits w ∧ StartsOutside tail := by
  induction cs with
  | nil => exact ⟨[], [], rfl, by simp [AreDigits], by simp [StartsOutside]⟩
  | cons c rest ih =>
    by_cases hc : c.isDigit = true
    · obtain ⟨w, tail, rfl, hw, htail⟩ := ih
      exact ⟨c :: w, tail, rfl, List.forall_mem_cons.2 ⟨hc, hw⟩, htail⟩
    · refine ⟨[], c :: rest, rfl, by simp [AreDigits], fun d hd => ?_⟩
      obtain rfl := Option.some.inj hd
      simpa using hc

/-- What is read behind the digits. -/
def finish (digits : Nat) (exponent : Int) : List Char → Option Decimal
  | [] => some ⟨digits, exponent⟩
  | c :: rest =>
    if c = 'e' ∨ c = 'E' then (exponentOf? rest).map fun e => ⟨digits, e + exponent⟩ else none

theorem finish_eq_some_iff {digits : Nat} {exponent : Int} :
    finish digits exponent tail = some d ↔
      (tail = [] ∧ d = ⟨digits, exponent⟩) ∨
        ∃ e, ExponentPart tail e ∧ d = ⟨digits, exponent + e⟩ := by
  cases tail with
  | nil =>
    constructor
    · intro h
      exact .inl ⟨rfl, (Option.some.inj h).symm⟩
    · rintro (⟨-, rfl⟩ | ⟨e, he, -⟩)
      · rfl
      · cases he
  | cons c rest =>
    rw [finish]
    by_cases hmark : c = 'e' ∨ c = 'E'
    · rw [if_pos hmark, Option.map_eq_some_iff]
      constructor
      · rintro ⟨e, he, rfl⟩
        exact .inr ⟨e, (exponentOf?_eq_some_iff hmark).1 he, by rw [Int.add_comm]⟩
      · rintro (⟨hnil, -⟩ | ⟨e, he, rfl⟩)
        · cases hnil
        · exact ⟨e, (exponentOf?_eq_some_iff hmark).2 he, by rw [Int.add_comm]⟩
    · rw [if_neg hmark]
      refine iff_of_false (Option.some_ne_none d).symm ?_
      rintro (⟨hnil, -⟩ | ⟨e, he, -⟩)
      · cases hnil
      · cases he with
        | plain h => exact hmark h
        | plus h => exact hmark h
        | minus h => exact hmark h

theorem ofNumeral?_whole (hw : AreDigits w) (htail : StartsOutside tail)
    (hpoint : tail.head? ≠ some '.') :
    ofNumeral? (w ++ tail) = if w = [] then none else finish (written w) 0 tail := by
  unfold ofNumeral?
  simp only [takeWhile_digits hw htail, dropWhile_digits hw htail]
  split
  · exact absurd rfl hpoint
  · simp only [List.append_nil]
    cases w <;> cases tail <;> rfl

theorem ofNumeral?_pointed (hw : AreDigits w) (hf : AreDigits f) (htail : StartsOutside tail) :
    ofNumeral? (w ++ '.' :: (f ++ tail)) =
      if w ++ f = [] then none else finish (written (w ++ f)) (-(f.length : Int)) tail := by
  have hpoint : StartsOutside ('.' :: (f ++ tail)) := fun c hc => by
    obtain rfl := Option.some.inj hc
    rfl
  unfold ofNumeral?
  simp only [takeWhile_digits hw hpoint, dropWhile_digits hw hpoint, takeWhile_digits hf htail,
    dropWhile_digits hf htail]
  cases w <;> cases f <;> cases tail <;> rfl

theorem ExponentPart.head?_eq (h : ExponentPart tail e) :
    tail.head? = some 'e' ∨ tail.head? = some 'E' := by
  cases h with
  | plain hmark => exact hmark.imp (congrArg some) (congrArg some)
  | plus hmark => exact hmark.imp (congrArg some) (congrArg some)
  | minus hmark => exact hmark.imp (congrArg some) (congrArg some)

/-- The end of a numeral is read behind its digits. -/
theorem ofNumeral?_mantissa (h : Mantissa cs d)
    (htail : tail.head? = none ∨ tail.head? = some 'e' ∨ tail.head? = some 'E') :
    ofNumeral? (cs ++ tail) = finish d.digits d.exponent tail := by
  have houtside : StartsOutside tail := by
    intro c hc
    rcases htail with hnone | hmark | hmark
    · simp [hnone] at hc
    · obtain rfl : 'e' = c := Option.some.inj (hmark.symm.trans hc)
      rfl
    · obtain rfl : 'E' = c := Option.some.inj (hmark.symm.trans hc)
      rfl
  cases h with
  | whole hw hne =>
    have hpoint : tail.head? ≠ some '.' := by
      rcases htail with hnone | hmark | hmark
      · simp [hnone]
      · simp [hmark]
      · simp [hmark]
    rw [ofNumeral?_whole hw houtside hpoint, if_neg hne]
  | pointed hw hf hne =>
    rw [List.append_assoc, List.cons_append, ofNumeral?_pointed hw hf houtside, if_neg hne]

/-- **What is read as a numeral is one, and all numerals are read.** -/
theorem ofNumeral?_eq_some_iff : ofNumeral? cs = some d ↔ Numeral cs d := by
  constructor
  · intro h
    obtain ⟨w, tail, rfl, hw, htail⟩ := exists_digits cs
    by_cases hpoint : tail.head? = some '.'
    · obtain ⟨rest, rfl⟩ := List.head?_eq_some_iff.1 hpoint
      obtain ⟨f, tail, rfl, hf, htail⟩ := exists_digits rest
      rw [ofNumeral?_pointed hw hf htail] at h
      split at h
      · cases h
      rename_i hne
      have hmantissa := Mantissa.pointed hw hf hne
      obtain ⟨rfl, rfl⟩ | ⟨e, he, rfl⟩ := finish_eq_some_iff.1 h
      · rw [List.append_nil]
        exact .plain hmantissa
      · rw [← List.cons_append, ← List.append_assoc]
        exact .scaled hmantissa he
    · rw [ofNumeral?_whole hw htail hpoint] at h
      split at h
      · cases h
      rename_i hne
      have hmantissa := Mantissa.whole hw hne
      obtain ⟨rfl, rfl⟩ | ⟨e, he, rfl⟩ := finish_eq_some_iff.1 h
      · rw [List.append_nil]
        exact .plain hmantissa
      · exact .scaled hmantissa he
  · intro h
    cases h with
    | plain h =>
      have hread : ofNumeral? (cs ++ []) = finish d.digits d.exponent [] :=
        ofNumeral?_mantissa h (.inl rfl)
      rwa [List.append_nil] at hread
    | scaled h he =>
      rw [ofNumeral?_mantissa h (.inr he.head?_eq)]
      exact finish_eq_some_iff.2 (.inr ⟨_, he, rfl⟩)

/-! ## Whole numbers -/

theorem digitChar_of_isDigit {c : Char} (h : c.isDigit = true) :
    c.toNat - '0'.toNat < 10 ∧ (c.toNat - '0'.toNat).digitChar = c := by
  have hzero : '0'.toNat = 48 := rfl
  obtain ⟨hlow, hhigh⟩ : 48 ≤ c.toNat ∧ c.toNat ≤ 57 := by
    rw [Char.isDigit, Bool.and_eq_true, decide_eq_true_iff, decide_eq_true_iff] at h
    exact h
  have hchars : ∀ n < 10, n.digitChar = Char.ofNat (48 + n) := by decide
  refine ⟨by omega, ?_⟩
  rw [hchars _ (by omega), show 48 + (c.toNat - '0'.toNat) = c.toNat by omega, Char.ofNat_toNat]

/-- Digits behind a number that is not zero make it greater. -/
theorem toDigits_append {n : Nat} (hn : 0 < n) (hcs : AreDigits cs) :
    Nat.toDigits 10 n ++ cs = Nat.toDigits 10 (Nat.ofDigitChars 10 cs n) := by
  induction cs generalizing n with
  | nil => rw [List.append_nil, Nat.ofDigitChars_nil]
  | cons c rest ih =>
    obtain ⟨hc, hrest⟩ := List.forall_mem_cons.1 hcs
    obtain ⟨hlt, hchar⟩ := digitChar_of_isDigit hc
    have hstep := Nat.toDigits_append_toDigits (b := 10) (by decide) hn hlt
    rw [Nat.toDigits_of_lt_base hlt, hchar] at hstep
    rw [Nat.ofDigitChars_cons, ← ih (by omega) hrest, ← hstep, List.append_assoc,
      List.singleton_append]

/-- Digits without zeros in front are those of the number they write. -/
theorem toDigits_written (hcs : AreDigits cs) (hne : cs ≠ [])
    (hzero : cs = ['0'] ∨ cs.head? ≠ some '0') : Nat.toDigits 10 (written cs) = cs := by
  obtain rfl | hzero := hzero
  · decide
  cases cs with
  | nil => exact absurd rfl hne
  | cons c rest =>
    obtain ⟨hc, hrest⟩ := List.forall_mem_cons.1 hcs
    obtain ⟨hlt, hchar⟩ := digitChar_of_isDigit hc
    have hpos : 0 < c.toNat - '0'.toNat := by
      refine Nat.pos_of_ne_zero fun h => hzero ?_
      rw [← hchar, h]
      rfl
    have happend := toDigits_append hpos hrest
    rw [Nat.toDigits_of_lt_base hlt, hchar, List.singleton_append] at happend
    rw [written, Nat.ofDigitChars_cons, Nat.mul_zero, Nat.zero_add, ← happend]

end ModuleAssets.Decimal
