import ModuleAssets.Decimal.Double
import ModuleAssets.Proofs.Decimal.Nearest
/-!
# Unpacked doubles — the parts and the bits

A double comes with its bits, and the meaning of its operations is told by its
unpacked form. The parts that are read off the bits are those of that form.
-/

namespace ModuleAssets

open Float.Model (UnpackedFloat)
open Float.Model.UnpackedFloat (unpackMantissa unpackExponent unpackSign)

namespace Double

variable {x y : Float}

/-- The unpacked form of a double. -/
def unpacked (x : Float) : UnpackedFloat :=
  x.toModel.unpack

/-! ## The bits -/

/-- The stored bits of the mantissa. -/
def fraction (w : UInt64) : ℕ :=
  w.toNat % 2 ^ 52

/-- The exponent as it is stored. -/
def biased (w : UInt64) : ℕ :=
  w.toNat / 2 ^ 52 % 2048

/-- The bit of the sign is set. -/
def isNegative (w : UInt64) : Bool :=
  w.toNat / 2 ^ 63 == 1

/-- The sign of a double. -/
def signOf (negative : Bool) : UnpackedFloat.Sign :=
  if negative then .negative else .positive

theorem ofFloat_eq (x : Float) :
    Binary.ofFloat x =
      if biased x.toBits = 0 then ⟨isNegative x.toBits, fraction x.toBits, Binary.leastExponent⟩
      else ⟨isNegative x.toBits, fraction x.toBits + 2 ^ 52, biased x.toBits - 1075⟩ := rfl

theorem negative_ofFloat (x : Float) : (Binary.ofFloat x).negative = isNegative x.toBits := by
  rw [ofFloat_eq, apply_ite Binary.negative, ite_self]

theorem fraction_lt (w : UInt64) : fraction w < 2 ^ 52 :=
  Nat.mod_lt _ (by norm_num)

theorem biased_lt (w : UInt64) : biased w < 2048 :=
  Nat.mod_lt _ (by norm_num)

theorem toNat_mantissa (w : UInt64) :
    (@unpackMantissa .binary64 w.toBitVec).toNat = fraction w := by
  show (w.toNat >>> 0) % 2 ^ 52 = _
  rw [Nat.shiftRight_zero, fraction]

theorem toNat_exponent (w : UInt64) :
    (@unpackExponent .binary64 w.toBitVec).toNat = biased w := by
  show (w.toNat >>> 52) % 2 ^ 11 = _
  rw [Nat.shiftRight_eq_div_pow, biased]

theorem sign_eq (w : UInt64) :
    UnpackedFloat.Sign.ofBitVec (@unpackSign .binary64 w.toBitVec) =
      signOf (isNegative w) := by
  have hsign : (@unpackSign .binary64 w.toBitVec).toNat = w.toNat / 2 ^ 63 % 2 := by
    show (w.toNat >>> 63) % 2 ^ 1 = _
    rw [Nat.shiftRight_eq_div_pow]
  have hbits : w.toNat < 2 ^ 64 := w.toBitVec.isLt
  unfold UnpackedFloat.Sign.ofBitVec signOf isNegative
  simp only [← BitVec.toNat_inj, hsign]
  by_cases hzero : w.toNat / 2 ^ 63 = 0
  · rw [hzero]
    rfl
  · have hone : w.toNat / 2 ^ 63 = 1 := by omega
    rw [hone]
    rfl

/-- The bit above the stored ones. -/
theorem toNat_implicit (v : BitVec 52) : (1#1 ++ v).toNat = v.toNat + 2 ^ 52 := by
  show 2 ^ 52 ||| v.toNat = _
  rw [Nat.or_comm, Nat.or_two_pow_eq_add_of_lt v.isLt]

/-! ## The unpacked form -/

theorem finite_congr {s : UnpackedFloat.Sign} {m m' : ℕ} {e e' : ℤ} {hm : 0 < m} (hmantissa : m = m')
    (hexponent : e = e') :
    UnpackedFloat.finite s m e hm = .finite s m' e' (hmantissa ▸ hm) := by
  subst hmantissa hexponent
  rfl

/-- What some bits stand for. -/
theorem unpack_cases (w : UInt64) :
    (biased w = 2047 ∧ (UnpackedFloat.unpack .binary64 w.toBitVec = .notANumber ∨
        UnpackedFloat.unpack .binary64 w.toBitVec = .infinity (signOf (isNegative w)))) ∨
      (biased w = 0 ∧ fraction w = 0 ∧
        UnpackedFloat.unpack .binary64 w.toBitVec = .zero (signOf (isNegative w))) ∨
      (biased w = 0 ∧ ∃ hpos, UnpackedFloat.unpack .binary64 w.toBitVec =
        .finite (signOf (isNegative w)) (fraction w) (-1074) hpos) ∨
      (biased w ≠ 2047 ∧ biased w ≠ 0 ∧ ∃ hpos, UnpackedFloat.unpack .binary64 w.toBitVec =
        .finite (signOf (isNegative w)) (fraction w + 2 ^ 52) (biased w - 1075) hpos) := by
  have hmantissa := toNat_mantissa w
  have hexponent := toNat_exponent w
  delta UnpackedFloat.unpack
  dsimp only
  rw [sign_eq]
  by_cases hinfinite : @unpackExponent .binary64 w.toBitVec = -1#11
  · rw [hinfinite] at hexponent
    refine .inl ⟨hexponent.symm, ?_⟩
    rw [if_pos hinfinite]
    by_cases hnone : @unpackMantissa .binary64 w.toBitVec = 0#52
    · exact .inr (if_pos hnone)
    · exact .inl (if_neg hnone)
  rw [if_neg hinfinite]
  by_cases hleast : @unpackExponent .binary64 w.toBitVec = 0#11
  · have hzero : biased w = 0 := by
      rw [← hexponent, hleast]
      rfl
    rw [if_pos hleast]
    by_cases hnone : @unpackMantissa .binary64 w.toBitVec = 0#52
    · rw [hnone] at hmantissa
      exact .inr (.inl ⟨hzero, hmantissa.symm, dif_pos hnone⟩)
    · have hpos : 0 < fraction w := by
        rw [← hmantissa]
        exact Nat.pos_of_ne_zero fun h => hnone (BitVec.eq_of_toNat_eq h)
      refine .inr (.inr (.inl ⟨hzero, hpos, (dif_neg hnone).trans (finite_congr hmantissa ?_)⟩))
      rw [hexponent, hzero]
      rfl
  · refine .inr (.inr (.inr ⟨fun h => ?_, fun h => ?_, ?_⟩))
    · exact hinfinite (BitVec.eq_of_toNat_eq (hexponent.trans h))
    · exact hleast (BitVec.eq_of_toNat_eq (hexponent.trans h))
    · rw [if_neg hleast]
      refine ⟨Nat.add_pos_right _ (by norm_num), finite_congr ?_ ?_⟩
      · rw [toNat_implicit, hmantissa]
      · rw [hexponent]
        rfl

/-- What a double is, and what its parts are if it is finite. -/
theorem unpacked_cases (x : Float) :
    unpacked x = .notANumber ∨ unpacked x = .infinity (signOf (Binary.ofFloat x).negative) ∨
      (unpacked x = .zero (signOf (Binary.ofFloat x).negative) ∧
        (Binary.ofFloat x).mantissa = 0) ∨
      ∃ hpos, unpacked x = .finite (signOf (Binary.ofFloat x).negative)
          (Binary.ofFloat x).mantissa (Binary.ofFloat x).exponent hpos ∧
        (Binary.ofFloat x).exponent ≤ 971 := by
  have hparts := ofFloat_eq x
  have hbiased := biased_lt x.toBits
  have hunpacked : unpacked x = UnpackedFloat.unpack .binary64 x.toBits.toBitVec := rfl
  rw [negative_ofFloat, hunpacked]
  obtain ⟨-, h | h⟩ | ⟨hzero, hnone, h⟩ | ⟨hzero, hpos, h⟩ | ⟨hinfinite, hzero, hpos, h⟩ :=
    unpack_cases x.toBits
  · exact .inl h
  · exact .inr (.inl h)
  · rw [hparts, if_pos hzero]
    exact .inr (.inr (.inl ⟨h, hnone⟩))
  · rw [hparts, if_pos hzero]
    exact .inr (.inr (.inr ⟨hpos, h, by simp [Binary.leastExponent]⟩))
  · rw [hparts, if_neg hzero]
    refine .inr (.inr (.inr ⟨hpos, h, ?_⟩))
    show (biased x.toBits : ℤ) - 1075 ≤ 971
    omega

/-- The parts of a double, also of one that is not finite, are a mantissa of
53 bits and an exponent in range. -/
theorem isNormal_ofFloat (x : Float) : (Binary.ofFloat x).IsNormal := by
  have hfraction := fraction_lt x.toBits
  rw [ofFloat_eq]
  split
  · exact ⟨⟨by simp only; omega, le_rfl⟩, .inr rfl⟩
  · refine ⟨⟨by simp only; omega, ?_⟩, .inl (by simp only; omega)⟩
    show (-1074 : ℤ) ≤ biased x.toBits - 1075
    omega

/-- The parts of a finite number are those of its unpacked form. -/
theorem ofFloat_of_finite {s : UnpackedFloat.Sign} {m : ℕ} {e : ℤ} {hm : 0 < m}
    (hx : unpacked x = .finite s m e hm) :
    signOf (Binary.ofFloat x).negative = s ∧ (Binary.ofFloat x).mantissa = m ∧
      (Binary.ofFloat x).exponent = e ∧ e ≤ 971 := by
  obtain h | h | ⟨h, -⟩ | ⟨hpos, h, hexponent⟩ := unpacked_cases x
  · cases hx.symm.trans h
  · cases hx.symm.trans h
  · cases hx.symm.trans h
  · rw [hx, UnpackedFloat.finite.injEq] at h
    obtain ⟨rfl, rfl, rfl⟩ := h
    exact ⟨rfl, rfl, rfl, hexponent⟩

/-! ## Tests -/

theorem isNaN_eq (x : Float) : x.isNaN = (unpacked x).isNaN := rfl

theorem isInf_eq (x : Float) : x.isInf = (unpacked x).isInf := rfl

theorem lt_iff : x < y ↔ (unpacked x).compare (unpacked y) = some .lt := by
  show decide (x.toModel < y.toModel) = true ↔ _
  rw [decide_eq_true_iff]
  exact beq_iff_eq

theorem beq_iff : (x == y) = true ↔ (unpacked x).compare (unpacked y) = some .eq := by
  show ((unpacked x).compare (unpacked y) == some .eq) = true ↔ _
  exact beq_iff_eq

theorem unpacked_zero : unpacked 0.0 = .zero .positive := rfl

theorem beq_zero_iff : (x == 0.0) = true ↔ ∃ s, unpacked x = .zero s := by
  rw [beq_iff, unpacked_zero]
  cases unpacked x with
  | zero s => exact iff_of_true rfl ⟨s, rfl⟩
  | infinity s =>
    refine iff_of_false (fun h => ?_) fun ⟨_, h⟩ => by cases h
    cases s <;> cases h
  | finite s =>
    refine iff_of_false (fun h => ?_) fun ⟨_, h⟩ => by cases h
    cases s <;> cases h
  | notANumber => exact iff_of_false (fun h => by cases h) fun ⟨_, h⟩ => by cases h

/-- A finite number is none of the special ones. -/
theorem tests_of_finite {s : UnpackedFloat.Sign} {m : ℕ} {e : ℤ} {hm : 0 < m}
    (hx : unpacked x = .finite s m e hm) :
    (unpacked x).isNaN = false ∧ (unpacked x).isInf = false ∧ (x == 0.0) = false := by
  refine ⟨by rw [hx]; rfl, by rw [hx]; rfl, Bool.eq_false_iff.2 fun hzero => ?_⟩
  obtain ⟨t, h⟩ := beq_zero_iff.1 hzero
  cases hx.symm.trans h

theorem tests_of_infinity {s : UnpackedFloat.Sign} (hx : unpacked x = .infinity s) :
    (unpacked x).isNaN = false ∧ (x == 0.0) = false := by
  refine ⟨by rw [hx]; rfl, Bool.eq_false_iff.2 fun hzero => ?_⟩
  obtain ⟨t, h⟩ := beq_zero_iff.1 hzero
  cases hx.symm.trans h

/-- Comparing the other way round. -/
theorem compare_swap (u v : UnpackedFloat) : v.compare u = (u.compare v).map Ordering.swap := by
  have hsign (s t : UnpackedFloat.Sign) : compare t s = (compare s t).swap := by
    cases s <;> cases t <;> rfl
  have hparts (d e : ℤ) (m n : ℕ) :
      (compare e d).then (compare n m) = ((compare d e).then (compare m n)).swap := by
    rw [Ordering.swap_then, ← Std.OrientedOrd.eq_swap, ← Std.OrientedOrd.eq_swap]
  cases u with
  | notANumber => cases v <;> rfl
  | infinity s =>
    cases v with
    | infinity t => exact congrArg some (hsign s t)
    | _ => cases s <;> rfl
  | zero s =>
    cases v with
    | infinity t => cases t <;> rfl
    | finite t => cases t <;> rfl
    | _ => rfl
  | finite s m e =>
    cases v with
    | infinity t => cases t <;> cases s <;> rfl
    | finite t n d =>
      cases s <;> cases t
      · exact congrArg (fun o => some o.swap) (hparts e d m n)
      · rfl
      · rfl
      · exact congrArg some (hparts e d m n)
    | _ => cases s <;> rfl

theorem gt_iff : y < x ↔ (unpacked x).compare (unpacked y) = some .gt := by
  rw [lt_iff, compare_swap]
  cases (unpacked x).compare (unpacked y) with
  | none => simp
  | some o => cases o <;> simp

theorem isSome_compare (u v : UnpackedFloat) :
    (u.compare v).isSome = !(u.isNaN || v.isNaN) := by
  cases u with
  | notANumber => rfl
  | infinity s => cases v <;> cases s <;> rfl
  | zero s =>
    cases v with
    | infinity t => cases t <;> rfl
    | finite t => cases t <;> rfl
    | _ => rfl
  | finite s =>
    cases v with
    | infinity t => cases s <;> cases t <;> rfl
    | finite t => cases s <;> cases t <;> rfl
    | _ => cases s <;> rfl

/-- Only what is not a number cannot be compared. -/
theorem compare_eq_none_iff (u v : UnpackedFloat) :
    u.compare v = none ↔ u.isNaN = true ∨ v.isNaN = true := by
  rw [← Option.not_isSome_iff_eq_none, isSome_compare, Bool.not_eq_true, Bool.not_eq_false',
    Bool.or_eq_true]

end Double

end ModuleAssets
