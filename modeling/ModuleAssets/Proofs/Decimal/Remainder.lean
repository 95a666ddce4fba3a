import ModuleAssets.Proofs.Decimal.Unpacked
/-!
# Remainders — exact on the parts

A double is put together from its parts, and the parts of what is put together
have the same value. So the remainder of two doubles, which is worked out on
whole numbers, is the exact one.
-/

namespace ModuleAssets

open Float.Model (UnpackedFloat)
open Float.Model.UnpackedFloat (pack unpack packComponents)

namespace Double

/-! ## Packing -/

theorem toNat_packComponents (s : UnpackedFloat.Sign) (e : BitVec 11) (m : BitVec 52) :
    (packComponents .binary64 s e m).toNat =
      (s.toBitVec.toNat * 2 ^ 11 + e.toNat) * 2 ^ 52 + m.toNat := by
  show (s.toBitVec ++ e ++ m).toNat = _
  rw [BitVec.toNat_append, BitVec.toNat_append, ← Nat.shiftLeft_add_eq_or_of_lt e.isLt,
    ← Nat.shiftLeft_add_eq_or_of_lt m.isLt, Nat.shiftLeft_eq, Nat.shiftLeft_eq]

theorem toNat_signOf (w : UInt64) : (signOf (isNegative w)).toBitVec.toNat = w.toNat / 2 ^ 63 := by
  have hbits : w.toNat < 2 ^ 64 := w.toBitVec.isLt
  by_cases hzero : w.toNat / 2 ^ 63 = 0
  · rw [isNegative, hzero]
    rfl
  · have hone : w.toNat / 2 ^ 63 = 1 := by omega
    rw [isNegative, hone]
    rfl

theorem pack_full (s : UnpackedFloat.Sign) {m : ℕ} {e : ℤ} {hm : 0 < m} (hfull : 2 ^ 52 ≤ m)
    (hfits : m < 2 ^ 53) (hleast : -1074 ≤ e) (hmost : e ≤ 971) :
    pack .binary64 (.finite s m e hm) =
      packComponents .binary64 s (BitVec.ofNat 11 (e + 1075).toNat) (BitVec.ofNat 52 m) := by
  have hlog : m.log2 + 1 = 53 := by
    have := (Nat.le_log2 hm.ne').2 hfull
    have := (Nat.log2_lt hm.ne').2 hfits
    omega
  have hexponent : e + 1023 + 52 = e + 1075 := by ring
  show (if 2 ^ 11 ≤ (e + 1023 + 52).toNat + 1 then _ else if m.log2 + 1 = 53 then _ else _) = _
  rw [if_neg (by omega), if_pos hlog, ← hexponent]
  rfl

theorem pack_small (s : UnpackedFloat.Sign) {m : ℕ} {e : ℤ} {hm : 0 < m} (hsmall : m < 2 ^ 52)
    (hmost : e ≤ 971) :
    pack .binary64 (.finite s m e hm) = packComponents .binary64 s 0#11 (BitVec.ofNat 52 m) := by
  have hlog : ¬ m.log2 + 1 = 53 := by
    have := (Nat.log2_lt hm.ne').2 hsmall
    omega
  show (if 2 ^ 11 ≤ (e + 1023 + 52).toNat + 1 then _ else if m.log2 + 1 = 53 then _ else _) = _
  rw [if_neg (by omega), if_neg hlog]

/-- Bits that are not those of an infinite number or none are kept. -/
theorem toBits_ofBits {w : UInt64} (h : biased w ≠ 2047) : (Float.ofBits w).toBits = w := by
  have hpacked : (Float.ofBits w).toBits.toBitVec = pack .binary64 (unpack .binary64 w.toBitVec) := rfl
  have hsign := toNat_signOf w
  have hbiased := biased_lt w
  have hfraction := fraction_lt w
  have hsplit : w.toNat = (w.toNat / 2 ^ 63 * 2 ^ 11 + biased w) * 2 ^ 52 + fraction w := by
    rw [biased, fraction]
    omega
  have hbits : w.toBitVec.toNat = w.toNat := rfl
  refine UInt64.toBitVec_inj.1 (BitVec.eq_of_toNat_eq ?_)
  rw [hpacked, hbits, hsplit]
  obtain ⟨hinfinite, -⟩ | ⟨hzero, hnone, hw⟩ | ⟨hzero, hpos, hw⟩ | ⟨-, hzero, hpos, hw⟩ :=
    unpack_cases w
  · exact absurd hinfinite h
  · rw [hw, hzero, hnone]
    show (packComponents .binary64 _ 0#11 0#52).toNat = _
    rw [toNat_packComponents, hsign]
    rfl
  · rw [hw, pack_small _ hfraction (by norm_num), toNat_packComponents, hsign, hzero]
    show _ + fraction w % 2 ^ 52 = _
    rw [Nat.mod_eq_of_lt hfraction]
    rfl
  · rw [hw, pack_full _ (by omega) (by omega) (by omega) (by omega), toNat_packComponents, hsign,
      BitVec.toNat_ofNat, BitVec.toNat_ofNat, sub_add_cancel, Int.toNat_natCast,
      Nat.mod_eq_of_lt hbiased, Nat.add_mod_right, Nat.mod_eq_of_lt hfraction]

/-! ## Putting a double together -/

/-- The bits of a double whose mantissa has all its bits, or needs none of them
above. -/
theorem ofFloat_ofBits {n : ℕ} {negative : Bool} (hn : n / 2 ^ 52 < 2047) :
    Binary.ofFloat (Float.ofBits (UInt64.ofNat (n + if negative then Binary.signBit else 0))) =
      if n / 2 ^ 52 = 0 then ⟨negative, n % 2 ^ 52, -1074⟩
      else ⟨negative, n % 2 ^ 52 + 2 ^ 52, (n / 2 ^ 52 : ℕ) - 1075⟩ := by
  have hsignBit : Binary.signBit = 2 ^ 63 := rfl
  generalize hw : UInt64.ofNat (n + if negative then Binary.signBit else 0) = w
  have hbits : w.toNat = n + if negative then 2 ^ 63 else 0 := by
    rw [← hw, UInt64.toNat_ofNat', hsignBit]
    split <;> omega
  have hfraction : fraction w = n % 2 ^ 52 := by
    rw [fraction, hbits]
    split <;> omega
  have hbiased : biased w = n / 2 ^ 52 := by
    rw [biased, hbits]
    split <;> omega
  have hnegative : isNegative w = negative := by
    rw [isNegative, hbits]
    cases negative with
    | true =>
      simp
      omega
    | false =>
      simp
      omega
  rw [ofFloat_eq, toBits_ofBits (by omega), hfraction, hbiased, hnegative]
  rfl

/-- Bits can be moved from the exponent into the mantissa. -/
theorem size_shift (b : Binary) (shift : ℕ) (negative : Bool) :
    Binary.size ⟨negative, b.mantissa * 2 ^ shift, b.exponent - shift⟩ = b.size := by
  rw [Binary.size, Binary.size, zpow_sub₀ two_ne_zero, zpow_natCast]
  push_cast
  field_simp

/-- How far a mantissa is moved up: until it is full, or the exponent is the
least. -/
theorem shift_bounds {m shift : ℕ} {e : ℤ} (hpos : 0 < m) (hm : m < 2 ^ 53) (he : -1074 ≤ e)
    (hshift : shift = min (52 - m.log2) (e + 1074).toNat) :
    m * 2 ^ shift < 2 ^ 53 ∧ (m * 2 ^ shift < 2 ^ 52 → e - shift = -1074) := by
  have hlog : m.log2 < 53 := (Nat.log2_lt hpos.ne').2 hm
  constructor
  · calc m * 2 ^ shift
      _ < 2 ^ (m.log2 + 1) * 2 ^ shift := Nat.mul_lt_mul_of_pos_right Nat.lt_log2_self (by positivity)
      _ = 2 ^ (m.log2 + 1 + shift) := by rw [pow_add _ _ shift]
      _ ≤ 2 ^ 53 := Nat.pow_le_pow_right two_pos (by omega)
  · intro hsmall
    have hle : 2 ^ (m.log2 + shift) ≤ m * 2 ^ shift := by
      rw [pow_add]
      exact Nat.mul_le_mul_right _ (Nat.log2_self_le hpos.ne')
    have hlt := (Nat.pow_lt_pow_iff_right one_lt_two).1 (hle.trans_lt hsmall)
    omega

/-- The double that is put together has the sign and the value of the parts. -/
theorem ofFloat_toFloat {b : Binary} (hb : b.Fits) (hexponent : b.exponent ≤ 971) :
    (Binary.ofFloat b.toFloat).negative = b.negative ∧
      (Binary.ofFloat b.toFloat).size = b.size ∧ (Binary.ofFloat b.toFloat).exponent ≤ 971 := by
  have hleast : -1074 ≤ b.exponent := hb.exponent
  obtain ⟨shift, hshift⟩ : ∃ shift, shift = min (52 - b.mantissa.log2) (b.exponent + 1074).toNat :=
    ⟨_, rfl⟩
  have hfloat : b.toFloat = Float.ofBits (UInt64.ofNat
      ((if b.mantissa * 2 ^ shift < 2 ^ 52 then b.mantissa * 2 ^ shift
        else (b.exponent - shift + 1075).toNat * 2 ^ 52 + (b.mantissa * 2 ^ shift - 2 ^ 52)) +
        if b.negative then Binary.signBit else 0)) := by
    rw [hshift]
    rfl
  have hsize := size_shift b shift b.negative
  rw [hfloat]
  rcases Nat.eq_zero_or_pos b.mantissa with hzero | hpos
  · rw [hzero, zero_mul, if_pos (by norm_num), ofFloat_ofBits (by norm_num)]
    simp [Binary.size, hzero]
  obtain ⟨hfits, hsmall⟩ := shift_bounds hpos hb.mantissa hleast hshift
  generalize b.mantissa * 2 ^ shift = m at *
  rw [← hsize]
  by_cases hm : m < 2 ^ 52
  · rw [if_pos hm, ofFloat_ofBits (by omega), if_pos (by omega), Nat.mod_eq_of_lt hm, hsmall hm]
    exact ⟨rfl, rfl, by norm_num⟩
  · have hquotient : ((b.exponent - shift + 1075).toNat * 2 ^ 52 + (m - 2 ^ 52)) / 2 ^ 52 =
        (b.exponent - shift + 1075).toNat := by
      omega
    have hrest : ((b.exponent - shift + 1075).toNat * 2 ^ 52 + (m - 2 ^ 52)) % 2 ^ 52 + 2 ^ 52 = m := by
      omega
    rw [if_neg hm, ofFloat_ofBits (by omega), hquotient, hrest, if_neg (by omega),
      Int.toNat_of_nonneg (by omega), add_sub_cancel_right]
    exact ⟨rfl, rfl, by simp only; omega⟩

/-! ## The remainder -/

/-- The sign and the magnitude of a finite number. -/
def parts? : UnpackedFloat → Option (UnpackedFloat.Sign × ℚ)
  | .zero s => some (s, 0)
  | .finite s m e _ => some (s, m * 2 ^ e)
  | _ => none

/-- What is left of a number after taking away another as often as possible.
It has the sign of the number, also if nothing is left. -/
def Remains (x y r : Float) : Prop :=
  match unpacked x, unpacked y with
  | .notANumber, _ | _, .notANumber | .infinity _, _ | _, .zero _ => unpacked r = .notANumber
  | .zero _, _ | _, .infinity _ => r = x
  | .finite s m e _, .finite _ n d _ =>
    ∃ (times : ℕ) (rest : ℚ), m * 2 ^ e = times * (n * 2 ^ d) + rest ∧ 0 ≤ rest ∧
      rest < n * 2 ^ d ∧ parts? (unpacked r) = some (s, rest)

theorem parts?_eq {x : Float} (h : (Binary.ofFloat x).exponent ≤ 971) :
    parts? (unpacked x) = some (signOf (Binary.ofFloat x).negative, (Binary.ofFloat x).size) := by
  have hparts := ofFloat_eq x
  have hunpacked : unpacked x = UnpackedFloat.unpack .binary64 x.toBits.toBitVec := rfl
  rw [negative_ofFloat, hunpacked]
  obtain ⟨hinfinite, -⟩ | ⟨hzero, hnone, hx⟩ | ⟨hzero, hpos, hx⟩ | ⟨-, hzero, hpos, hx⟩ :=
    unpack_cases x.toBits
  · rw [hparts, if_neg (by omega)] at h
    simp only [hinfinite] at h
    omega
  · rw [hx, hparts, if_pos hzero, hnone, Binary.size, Nat.cast_zero, zero_mul]
    rfl
  · rw [hx, hparts, if_pos hzero]
    rfl
  · rw [hx, hparts, if_neg hzero]
    rfl

theorem unpacked_nan : unpacked nan = .notANumber := rfl

section Parts

variable (a b : Binary)

/-- The steps in which both numbers are whole. -/
def commonStep : ℤ :=
  min a.exponent b.exponent

/-- The number of those steps. -/
def stepsOf (c : Binary) : ℕ :=
  c.mantissa * 2 ^ (c.exponent - commonStep a b).toNat

/-- The remainder, worked out on whole numbers. -/
def rest : Binary :=
  ⟨a.negative, stepsOf a b a % stepsOf a b b, commonStep a b⟩

theorem size_left : a.size = stepsOf a b a * 2 ^ commonStep a b :=
  Binary.size_eq_steps a (min_le_left _ _)

theorem size_right : b.size = stepsOf a b b * 2 ^ commonStep a b :=
  Binary.size_eq_steps b (min_le_right _ _)

variable {a b}

theorem fits_rest (ha : a.Fits) (hb : b.Fits) (hpos : 0 < b.mantissa) : (rest a b).Fits := by
  refine ⟨?_, le_min ha.exponent hb.exponent⟩
  show stepsOf a b a % stepsOf a b b < 2 ^ 53
  rcases le_total a.exponent b.exponent with hle | hle
  · have hleft : stepsOf a b a = a.mantissa := by
      rw [stepsOf, commonStep, min_eq_left hle, sub_self, Int.toNat_zero, pow_zero, mul_one]
    exact (Nat.mod_le _ _).trans_lt (hleft ▸ ha.mantissa)
  · have hright : stepsOf a b b = b.mantissa := by
      rw [stepsOf, commonStep, min_eq_right hle, sub_self, Int.toNat_zero, pow_zero, mul_one]
    rw [hright]
    exact (Nat.mod_lt _ hpos).trans hb.mantissa

/-- The number is some times the other and the rest. -/
theorem size_eq_times_add_rest (a b : Binary) :
    a.size = (stepsOf a b a / stepsOf a b b : ℕ) * b.size + (rest a b).size := by
  have hdivision : (stepsOf a b a : ℚ) =
      stepsOf a b b * (stepsOf a b a / stepsOf a b b : ℕ) +
        (stepsOf a b a % stepsOf a b b : ℕ) := by
    exact_mod_cast (Nat.div_add_mod _ _).symm
  have hrest : (rest a b).size = (stepsOf a b a % stepsOf a b b : ℕ) * 2 ^ commonStep a b := rfl
  rw [hrest, size_left a b, size_right a b, hdivision]
  ring

theorem size_rest_lt (hpos : 0 < b.mantissa) : (rest a b).size < b.size := by
  have hsteps : 0 < stepsOf a b b := Nat.mul_pos hpos (by positivity)
  have hlt : ((stepsOf a b a % stepsOf a b b : ℕ) : ℚ) < stepsOf a b b := by
    exact_mod_cast Nat.mod_lt (stepsOf a b a) hsteps
  rw [size_right a b]
  exact mul_lt_mul_of_pos_right hlt (by positivity)

end Parts

/-- The remainder of two finite numbers. -/
theorem parts?_remainder {x y : Float} {s t : UnpackedFloat.Sign} {m n : ℕ} {e d : ℤ} {hm : 0 < m}
    {hn : 0 < n} (hx : unpacked x = .finite s m e hm) (hy : unpacked y = .finite t n d hn) :
    ∃ (times : ℕ) (rest : ℚ), m * 2 ^ e = times * (n * 2 ^ d) + rest ∧ 0 ≤ rest ∧
      rest < n * 2 ^ d ∧ parts? (unpacked (remainder x y)) = some (s, rest) := by
  obtain ⟨hxnan, hxinf, hxzero⟩ := tests_of_finite hx
  obtain ⟨hynan, hyinf, hyzero⟩ := tests_of_finite hy
  have hremainder : remainder x y = (rest (Binary.ofFloat x) (Binary.ofFloat y)).toFloat := by
    rw [remainder, isNaN_eq, isNaN_eq, isInf_eq, isInf_eq, if_neg, if_neg]
    · rfl
    · simp [hyinf, hxzero]
    · simp [hxnan, hynan, hxinf, hyzero]
  obtain ⟨hsign, hm', he, hmost⟩ := ofFloat_of_finite hx
  obtain ⟨-, hn', hd, -⟩ := ofFloat_of_finite hy
  have ha := (isNormal_ofFloat x).toFits
  have hb := (isNormal_ofFloat y).toFits
  have hpos : 0 < (Binary.ofFloat y).mantissa := hn' ▸ hn
  have hsize : (Binary.ofFloat x).size = m * 2 ^ e := by rw [Binary.size, hm', he]
  have hsize' : (Binary.ofFloat y).size = n * 2 ^ d := by rw [Binary.size, hn', hd]
  rw [hremainder, ← hsize, ← hsize', ← hsign]
  generalize Binary.ofFloat x = a at *
  generalize Binary.ofFloat y = b at *
  have hexponent : (rest a b).exponent ≤ 971 := (min_le_left _ _).trans (he ▸ hmost)
  obtain ⟨hnegative, hrest, hfinite⟩ := ofFloat_toFloat (fits_rest ha hb hpos) hexponent
  refine ⟨_, (rest a b).size, size_eq_times_add_rest a b, ?_, size_rest_lt hpos, ?_⟩
  · exact mul_nonneg (Nat.cast_nonneg _) (by positivity)
  · rw [parts?_eq hfinite, hnegative, hrest]
    rfl

/-- **The remainder is the exact one.** -/
theorem remains_remainder (x y : Float) : Remains x y (remainder x y) := by
  have hfirst : remainder x y =
      if (unpacked x).isNaN || (unpacked y).isNaN || (unpacked x).isInf || y == 0.0 then nan
      else if (unpacked y).isInf || x == 0.0 then x else remainder x y := by
    unfold remainder
    rw [← isNaN_eq, ← isNaN_eq, ← isInf_eq, ← isInf_eq]
    split
    · rfl
    · split <;> rfl
  have hnan (h : ((unpacked x).isNaN || (unpacked y).isNaN || (unpacked x).isInf || y == 0.0) = true) :
      unpacked (remainder x y) = .notANumber := by
    rw [hfirst, if_pos h]
    exact unpacked_nan
  have hleft
      (h : ((unpacked x).isNaN || (unpacked y).isNaN || (unpacked x).isInf || y == 0.0) = false)
      (hwhole : ((unpacked y).isInf || x == 0.0) = true) : remainder x y = x := by
    rw [hfirst, if_neg (Bool.eq_false_iff.1 h), if_pos hwhole]
  unfold Remains
  cases hx : unpacked x with
  | notANumber =>
    have hresult := hnan (by rw [hx]; rfl)
    cases unpacked y <;> exact hresult
  | infinity s =>
    have hresult := hnan (by
      rw [hx]
      exact Bool.or_eq_true_iff.2 (.inl (Bool.or_true _)))
    cases unpacked y <;> exact hresult
  | zero s =>
    have hxzero := beq_zero_iff.2 ⟨s, hx⟩
    cases hy : unpacked y with
    | notANumber => exact hnan (by rw [hx, hy]; rfl)
    | zero t => exact hnan (by rw [beq_zero_iff.2 ⟨t, hy⟩, Bool.or_true])
    | infinity t =>
      refine hleft ?_ (by rw [hxzero, Bool.or_true])
      rw [hx, hy, (tests_of_infinity hy).2]
      rfl
    | finite t n d hn =>
      obtain ⟨-, -, hyzero⟩ := tests_of_finite hy
      refine hleft ?_ (by rw [hxzero, Bool.or_true])
      rw [hx, hy, hyzero]
      rfl
  | finite s m e hm =>
    cases hy : unpacked y with
    | notANumber => exact hnan (by rw [hx, hy]; rfl)
    | zero t => exact hnan (by rw [beq_zero_iff.2 ⟨t, hy⟩, Bool.or_true])
    | infinity t =>
      refine hleft ?_ (by rw [hy]; rfl)
      rw [hx, hy, (tests_of_infinity hy).2]
      rfl
    | finite t n d hn => exact parts?_remainder hx hy

end Double

end ModuleAssets
