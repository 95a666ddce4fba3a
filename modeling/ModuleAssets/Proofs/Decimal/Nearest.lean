import ModuleAssets.Decimal.Shortest
import Mathlib.Algebra.Order.Field.Power
import Mathlib.Data.Rat.Cast.Order
import Mathlib.Tactic.FieldSimp
import Mathlib.Tactic.Linarith
import Mathlib.Tactic.NormNum
import Mathlib.Tactic.Positivity
import Mathlib.Tactic.Ring
/-!
# Nearest doubles — what rounds to a double

A number rounds to the double that is nearest to it, and of two equally near
to the one with the even mantissa. The interval with which decimals are
compared is that of the numbers which round to a double: it ends half-way to
the neighbours, and it has its ends if the mantissa is even.
-/

namespace ModuleAssets

namespace Binary

/-- The magnitude of the number. -/
def size (b : Binary) : ℚ :=
  b.mantissa * 2 ^ b.exponent

/-- The mantissa has at most 53 bits and the exponent is not below the least.
There is no upper end, rounding being told before a number is found to be too
large. -/
structure Fits (b : Binary) : Prop where
  mantissa : b.mantissa < 2 ^ 53
  exponent : leastExponent ≤ b.exponent

/-- The mantissa uses all its bits, unless the exponent is the least. -/
structure IsNormal (b : Binary) : Prop extends b.Fits where
  full : 2 ^ 52 ≤ b.mantissa ∨ b.exponent = leastExponent

/-- The number rounds to the magnitude of the double. -/
def Nearest (q : ℚ) (b : Binary) : Prop :=
  ∀ c : Binary, c.Fits →
    |q - b.size| ≤ |q - c.size| ∧
      (|q - b.size| = |q - c.size| → c.size = b.size ∨ b.mantissa % 2 = 0)

/-! ## Neighbours -/

variable {b c : Binary}

/-- The mantissa is the least of its exponent, and there is an exponent below. -/
def IsPower (b : Binary) : Prop :=
  b.mantissa = 2 ^ 52 ∧ leastExponent < b.exponent

/-- The next greater double. -/
def above (b : Binary) : Binary :=
  if b.mantissa + 1 < 2 ^ 53 then ⟨b.negative, b.mantissa + 1, b.exponent⟩
  else ⟨b.negative, 2 ^ 52, b.exponent + 1⟩

instance (b : Binary) : Decidable b.IsPower :=
  inferInstanceAs (Decidable (_ ∧ _))

/-- The next smaller double. -/
def below (b : Binary) : Binary :=
  if b.IsPower then ⟨b.negative, 2 ^ 53 - 1, b.exponent - 1⟩
  else ⟨b.negative, b.mantissa - 1, b.exponent⟩

theorem step_pos (b : Binary) : (0 : ℚ) < 2 ^ b.exponent := by
  positivity

theorem Fits.above (hb : b.Fits) : b.above.Fits := by
  obtain ⟨hmantissa, hexponent⟩ := hb
  unfold Binary.above
  split
  · exact ⟨by assumption, hexponent⟩
  · exact ⟨by norm_num, by simp only; omega⟩

theorem Fits.below (hb : b.Fits) : b.below.Fits := by
  obtain ⟨hmantissa, hexponent⟩ := hb
  unfold Binary.below
  split
  · rename_i hpower
    have := hpower.2
    exact ⟨by norm_num, by simp only; omega⟩
  · exact ⟨by simp only; omega, hexponent⟩

theorem size_above (hb : b.Fits) : b.above.size = (b.mantissa + 1) * 2 ^ b.exponent := by
  unfold above
  split
  · simp [size]
  · have hfull : b.mantissa + 1 = 2 ^ 53 := by
      have := hb.mantissa
      omega
    have hcast : (b.mantissa : ℚ) + 1 = 2 ^ 53 := by exact_mod_cast hfull
    rw [size, hcast, zpow_add_one₀ two_ne_zero]
    push_cast
    ring

theorem size_below_of_isPower (h : b.IsPower) :
    b.below.size = (b.mantissa - 1 / 2) * 2 ^ b.exponent := by
  rw [below, if_pos h, size, h.1, zpow_sub_one₀ two_ne_zero]
  norm_num
  ring

theorem size_below_of_not_isPower (h : ¬ b.IsPower) (hpos : 0 < b.mantissa) :
    b.below.size = (b.mantissa - 1) * 2 ^ b.exponent := by
  rw [below, if_neg h, size, Nat.cast_pred hpos]

/-- A double is a whole number of steps of any smaller exponent. -/
theorem size_eq_steps (c : Binary) {e : ℤ} (h : e ≤ c.exponent) :
    c.size = (c.mantissa * 2 ^ (c.exponent - e).toNat : ℕ) * 2 ^ e := by
  have hsplit : c.exponent = ((c.exponent - e).toNat : ℤ) + e := by omega
  rw [size]
  conv_lhs => rw [hsplit]
  rw [zpow_add₀ two_ne_zero, zpow_natCast]
  push_cast
  ring

/-- A double of a smaller exponent is below all those that use all bits of
their mantissa. -/
theorem Fits.size_lt (hc : c.Fits) {e : ℤ} {n : ℕ} (h : c.exponent + n ≤ e) :
    c.size < 2 ^ (53 - n : ℤ) * 2 ^ e := by
  have hm : (c.mantissa : ℚ) < 2 ^ 53 := by exact_mod_cast hc.mantissa
  have hstep : (2 : ℚ) ^ c.exponent ≤ 2 ^ (e - n) :=
    zpow_le_zpow_right₀ one_le_two (by omega)
  calc c.size
    _ = c.mantissa * 2 ^ c.exponent := rfl
    _ < 2 ^ 53 * 2 ^ c.exponent := mul_lt_mul_of_pos_right hm c.step_pos
    _ ≤ 2 ^ 53 * 2 ^ (e - n) := mul_le_mul_of_nonneg_left hstep (by positivity)
    _ = 2 ^ (53 - n : ℤ) * 2 ^ e := by
      rw [← zpow_natCast 2 53, ← zpow_add₀ two_ne_zero, ← zpow_add₀ two_ne_zero]
      congr 1
      push_cast
      omega

/-- Between a double and the next greater one there is none. -/
theorem above_le (hb : b.IsNormal) (hc : c.Fits) (h : b.size < c.size) :
    b.above.size ≤ c.size := by
  rw [size_above hb.toFits]
  by_cases hexponent : b.exponent ≤ c.exponent
  · rw [size_eq_steps c hexponent] at h ⊢
    have hsteps := lt_of_mul_lt_mul_right h b.step_pos.le
    norm_cast at hsteps
    refine mul_le_mul_of_nonneg_right ?_ b.step_pos.le
    exact_mod_cast hsteps
  · -- below its exponent a double that uses all its bits has no greater one
    have hfull : 2 ^ 52 ≤ b.mantissa := by
      have := hc.exponent
      have := hb.full
      omega
    have hfull : (2 : ℚ) ^ 52 ≤ b.mantissa := by exact_mod_cast hfull
    have hlt := hc.size_lt (e := b.exponent) (n := 1) (by omega)
    have hle : (2 : ℚ) ^ (53 - (1 : ℕ) : ℤ) * 2 ^ b.exponent ≤ b.size :=
      mul_le_mul_of_nonneg_right hfull b.step_pos.le
    linarith

/-- Between a double and the next smaller one there is none. -/
theorem le_below (hb : b.IsNormal) (hpos : 0 < b.mantissa) (hc : c.Fits) (h : c.size < b.size) :
    c.size ≤ b.below.size := by
  have hstep := b.step_pos
  by_cases hpower : b.IsPower
  · rw [size_below_of_isPower hpower]
    by_cases hexponent : b.exponent - 1 ≤ c.exponent
    · have hhalf : b.size = (2 ^ 53 : ℕ) * 2 ^ (b.exponent - 1) := by
        rw [size, hpower.1, zpow_sub_one₀ two_ne_zero]
        push_cast
        ring
      rw [size_eq_steps c hexponent, hhalf] at h
      have hsteps := lt_of_mul_lt_mul_right h (by positivity)
      norm_cast at hsteps
      rw [size_eq_steps c hexponent, hpower.1]
      calc _ ≤ ((2 ^ 53 - 1 : ℕ) : ℚ) * 2 ^ (b.exponent - 1) :=
            mul_le_mul_of_nonneg_right (by exact_mod_cast Nat.le_pred_of_lt hsteps) (by positivity)
        _ = _ := by
          rw [zpow_sub_one₀ two_ne_zero]
          norm_num
          ring
    · have hlt := hc.size_lt (e := b.exponent) (n := 2) (by omega)
      have hle : (2 : ℚ) ^ (53 - (2 : ℕ) : ℤ) * 2 ^ b.exponent
          ≤ (b.mantissa - 1 / 2) * 2 ^ b.exponent :=
        mul_le_mul_of_nonneg_right (by rw [hpower.1]; norm_num) hstep.le
      exact hlt.le.trans hle
  · rw [size_below_of_not_isPower hpower hpos]
    by_cases hexponent : b.exponent ≤ c.exponent
    · rw [size_eq_steps c hexponent] at h ⊢
      have hsteps := lt_of_mul_lt_mul_right h hstep.le
      norm_cast at hsteps
      refine mul_le_mul_of_nonneg_right ?_ hstep.le
      rw [← Nat.cast_pred hpos]
      exact_mod_cast Nat.le_pred_of_lt hsteps
    · have hfull : 2 ^ 52 + 1 ≤ b.mantissa := by
        have hleast := hc.exponent
        have hfull := hb.full
        have : ¬ b.mantissa = 2 ^ 52 := fun h => hpower ⟨h, by omega⟩
        omega
      have hfull : (2 : ℚ) ^ 52 + 1 ≤ b.mantissa := by exact_mod_cast hfull
      have hlt := hc.size_lt (e := b.exponent) (n := 1) (by omega)
      have hle : (2 : ℚ) ^ (53 - (1 : ℕ) : ℤ) * 2 ^ b.exponent
          ≤ (b.mantissa - 1) * 2 ^ b.exponent :=
        mul_le_mul_of_nonneg_right (by norm_num; linarith) hstep.le
      exact hlt.le.trans hle

theorem size_lt_above (hb : b.Fits) : b.size < b.above.size := by
  rw [size_above hb, size]
  nlinarith [b.step_pos]

theorem below_lt_size (hpos : 0 < b.mantissa) : b.below.size < b.size := by
  have hstep := b.step_pos
  by_cases hpower : b.IsPower
  · rw [size_below_of_isPower hpower, size]
    nlinarith
  · rw [size_below_of_not_isPower hpower hpos, size]
    nlinarith

/-! ## Half-way to the neighbours -/

/-- The difference of the squared distances from two numbers. -/
theorem sq_sub_sq_sub (q x y : ℚ) :
    (q - x) ^ 2 - (q - y) ^ 2 = (y - x) * (2 * q - (x + y)) := by
  ring

/-- Of two numbers the smaller is no further away up to the middle. -/
theorem abs_sub_le_iff_of_lt {q x y : ℚ} (h : x < y) : |q - x| ≤ |q - y| ↔ 2 * q ≤ x + y := by
  rw [← sq_le_sq, ← sub_nonpos, sq_sub_sq_sub, ← neg_nonneg, ← mul_neg,
    mul_nonneg_iff_of_pos_left (sub_pos.2 h), neg_nonneg, sub_nonpos]

/-- And the greater one is no further away from the middle on. -/
theorem abs_sub_le_iff_of_gt {q x y : ℚ} (h : y < x) : |q - x| ≤ |q - y| ↔ y + x ≤ 2 * q := by
  have hmirrored := abs_sub_le_iff_of_lt (q := -q) (neg_lt_neg h)
  rw [neg_sub_neg, neg_sub_neg, abs_sub_comm x, abs_sub_comm y] at hmirrored
  rw [hmirrored]
  constructor <;> intro <;> linarith

/-- At the middle both are equally far away. -/
theorem abs_sub_eq_iff_of_ne {q x y : ℚ} (h : x ≠ y) : |q - x| = |q - y| ↔ 2 * q = x + y := by
  rw [← sq_eq_sq_iff_abs_eq_abs, ← sub_eq_zero, sq_sub_sq_sub, mul_eq_zero, sub_eq_zero,
    sub_eq_zero, or_iff_right h.symm]

/-- What rounds to a double lies between the middles to its neighbours, and at
a middle only if the mantissa is even. -/
theorem nearest_iff (hb : b.IsNormal) (hpos : 0 < b.mantissa) {q : ℚ} :
    Nearest q b ↔
      (b.below.size + b.size ≤ 2 * q ∧ 2 * q ≤ b.size + b.above.size) ∧
        (2 * q = b.below.size + b.size ∨ 2 * q = b.size + b.above.size → b.mantissa % 2 = 0) := by
  have habove := size_lt_above hb.toFits
  have hbelow := below_lt_size hpos
  constructor
  · intro h
    obtain ⟨hle, htie⟩ := h _ hb.toFits.above
    obtain ⟨hge, htie'⟩ := h _ hb.toFits.below
    rw [abs_sub_le_iff_of_lt habove] at hle
    rw [abs_sub_eq_iff_of_ne habove.ne] at htie
    rw [abs_sub_le_iff_of_gt hbelow] at hge
    rw [abs_sub_eq_iff_of_ne hbelow.ne', add_comm] at htie'
    refine ⟨⟨hge, hle⟩, ?_⟩
    rintro (hmiddle | hmiddle)
    · exact (htie' hmiddle).resolve_left hbelow.ne
    · exact (htie hmiddle).resolve_left habove.ne'
  · rintro ⟨⟨hge, hle⟩, heven⟩ c hc
    rcases lt_trichotomy c.size b.size with hlt | heq | hgt
    · -- beyond the smaller neighbour all is further away than it
      have hc := le_below hb hpos hc hlt
      refine ⟨(abs_sub_le_iff_of_gt hlt).2 (by linarith), fun htie => .inr (heven (.inl ?_))⟩
      have hmiddle := (abs_sub_eq_iff_of_ne hlt.ne').1 htie
      linarith
    · exact ⟨by rw [heq], fun _ => .inl heq⟩
    · have hc := above_le hb hc hgt
      refine ⟨(abs_sub_le_iff_of_lt hgt).2 (by linarith), fun htie => .inr (heven (.inr ?_))⟩
      have hmiddle := (abs_sub_eq_iff_of_ne hgt.ne).1 htie
      linarith

end Binary

/-! ## The interval -/

namespace Decimal

/-- The fraction as a number. -/
def Ratio.value (r : Ratio) : ℚ :=
  r.num / r.den

/-- The decimal as a number. -/
def value (d : Decimal) : ℚ :=
  d.digits * 10 ^ d.exponent

namespace Ratio

variable {r s : Ratio}

theorem den_scale_pos (hr : 0 < r.den) {base : ℕ} (hbase : 0 < base) (power : ℤ) :
    0 < (r.scale base power).den := by
  unfold scale
  split
  · exact hr
  · exact Nat.mul_pos hr (Nat.pow_pos hbase)

theorem value_scale (r : Ratio) {base : ℕ} (hbase : 0 < base) (power : ℤ) :
    (r.scale base power).value = r.value * (base : ℚ) ^ power := by
  have hbase : (base : ℚ) ≠ 0 := by exact_mod_cast hbase.ne'
  unfold scale value
  split
  · rename_i hpower
    obtain ⟨n, rfl⟩ := Int.eq_ofNat_of_zero_le hpower
    rw [Int.toNat_natCast, Nat.pow_eq, zpow_natCast]
    push_cast
    ring
  · rename_i hpower
    obtain ⟨n, hn⟩ := Int.eq_ofNat_of_zero_le (show 0 ≤ -power by omega)
    rw [hn, show power = -(n : ℤ) by omega, Int.toNat_natCast, Nat.pow_eq, zpow_neg, zpow_natCast]
    push_cast
    field_simp

theorem le_iff (hr : 0 < r.den) (hs : 0 < s.den) : r.le s ↔ r.value ≤ s.value := by
  have hr : (0 : ℚ) < r.den := by exact_mod_cast hr
  have hs : (0 : ℚ) < s.den := by exact_mod_cast hs
  rw [le, decide_eq_true_iff, value, value, div_le_div_iff₀ hr hs]
  exact_mod_cast Iff.rfl

theorem lt_iff (hr : 0 < r.den) (hs : 0 < s.den) : r.lt s ↔ r.value < s.value := by
  have hr : (0 : ℚ) < r.den := by exact_mod_cast hr
  have hs : (0 : ℚ) < s.den := by exact_mod_cast hs
  rw [lt, decide_eq_true_iff, value, value, div_lt_div_iff₀ hr hs]
  exact_mod_cast Iff.rfl

end Ratio

theorem den_toRatio_pos (d : Decimal) : 0 < d.toRatio.den :=
  Ratio.den_scale_pos Nat.one_pos (by norm_num) _

@[simp] theorem value_toRatio (d : Decimal) : d.toRatio.value = d.value := by
  rw [toRatio, Ratio.value_scale _ (by norm_num), Ratio.value, value]
  norm_num

theorem den_interval_pos (b : Binary) : 0 < (interval b).low.den ∧ 0 < (interval b).high.den :=
  ⟨Ratio.den_scale_pos (by norm_num) (by norm_num) _,
    Ratio.den_scale_pos (by norm_num) (by norm_num) _⟩

theorem value_high {b : Binary} (hb : b.Fits) :
    2 * (interval b).high.value = b.size + b.above.size := by
  rw [interval, Ratio.value_scale _ (by norm_num), Ratio.value, Binary.size_above hb, Binary.size]
  push_cast
  ring

theorem value_low {b : Binary} (hpos : 0 < b.mantissa) :
    2 * (interval b).low.value = b.below.size + b.size := by
  have hlow : (interval b).low =
      Ratio.scale ⟨4 * b.mantissa - if b.IsPower then 1 else 2, 4⟩ 2 b.exponent := rfl
  rw [hlow, Ratio.value_scale _ (by norm_num), Ratio.value]
  by_cases hpower : b.IsPower
  · rw [Binary.size_below_of_isPower hpower, Binary.size, if_pos hpower,
      Nat.cast_sub (show 1 ≤ 4 * b.mantissa by omega)]
    push_cast
    ring
  · rw [Binary.size_below_of_not_isPower hpower hpos, Binary.size,
      if_neg hpower, Nat.cast_sub (show 2 ≤ 4 * b.mantissa by omega)]
    push_cast
    ring

/-- The interval holds what rounds to the double. -/
theorem holds_interval {b : Binary} (hb : b.IsNormal) (hpos : 0 < b.mantissa) {r : Ratio}
    (hr : 0 < r.den) : (interval b).holds r ↔ Binary.Nearest r.value b := by
  obtain ⟨hlow, hhigh⟩ := den_interval_pos b
  have hlowValue := value_low hpos
  have hhighValue := value_high hb.toFits
  rw [Binary.nearest_iff hb hpos, ← hlowValue, ← hhighValue, Interval.holds]
  by_cases heven : b.mantissa % 2 = 0
  · rw [if_pos (show (interval b).closed from beq_iff_eq.2 heven), Bool.and_eq_true,
      Ratio.le_iff hlow hr, Ratio.le_iff hr hhigh]
    constructor
    · rintro ⟨hle, hge⟩
      exact ⟨⟨by linarith, by linarith⟩, fun _ => heven⟩
    · rintro ⟨⟨hle, hge⟩, -⟩
      exact ⟨by linarith, by linarith⟩
  · rw [if_neg (show ¬ (interval b).closed from fun h => heven (beq_iff_eq.1 h)),
      Bool.and_eq_true, Ratio.lt_iff hlow hr, Ratio.lt_iff hr hhigh]
    constructor
    · rintro ⟨hlt, hgt⟩
      refine ⟨⟨by linarith, by linarith⟩, ?_⟩
      rintro (hmiddle | hmiddle) <;> exfalso <;> linarith
    · rintro ⟨⟨hle, hge⟩, htie⟩
      constructor
      · refine lt_of_le_of_ne (by linarith) fun hmiddle => heven (htie (.inl ?_))
        rw [hmiddle]
      · refine lt_of_le_of_ne (by linarith) fun hmiddle => heven (htie (.inr ?_))
        rw [hmiddle]

end Decimal

end ModuleAssets
