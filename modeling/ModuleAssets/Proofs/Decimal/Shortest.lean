import ModuleAssets.Proofs.Decimal.Nearest
/-!
# Shortest decimals — fewest digits, and the nearest of those

The search for the shortest decimal of a double goes through the multiples of
smaller and smaller powers of ten. What is needed of it is that a decimal with
fewer digits than the first hit would have been a hit before, since the power
of ten at the head of the double lies between such a decimal and the double.
-/

namespace ModuleAssets

namespace Binary

variable {b : Binary} {q r : ℚ}

/-- What lies between a double and something that rounds to it does so, too. -/
theorem Nearest.of_between_left (hb : b.IsNormal) (hpos : 0 < b.mantissa) (hq : Nearest q b)
    (hqr : q ≤ r) (hr : r ≤ b.size) : Nearest r b := by
  have habove := size_lt_above hb.toFits
  obtain ⟨⟨hlow, hhigh⟩, htie⟩ := (nearest_iff hb hpos).1 hq
  refine (nearest_iff hb hpos).2 ⟨⟨by linarith, by linarith⟩, ?_⟩
  rintro (hmiddle | hmiddle)
  · exact htie (.inl (by linarith))
  · exfalso
    linarith

theorem Nearest.of_between_right (hb : b.IsNormal) (hpos : 0 < b.mantissa) (hq : Nearest q b)
    (hr : b.size ≤ r) (hrq : r ≤ q) : Nearest r b := by
  have hbelow := below_lt_size hpos
  obtain ⟨⟨hlow, hhigh⟩, htie⟩ := (nearest_iff hb hpos).1 hq
  refine (nearest_iff hb hpos).2 ⟨⟨by linarith, by linarith⟩, ?_⟩
  rintro (hmiddle | hmiddle)
  · exfalso
    linarith
  · exact htie (.inr (by linarith))

end Binary

namespace Decimal

variable {b : Binary} {d : Decimal}

/-- How many digits the decimal has. -/
def length (d : Decimal) : ℕ :=
  (digitChars d.digits).length

/-- The decimal rounds to the magnitude of the double and has the fewest digits
of those that do. Of those with as few it is one of the nearest. -/
structure IsShortest (b : Binary) (d : Decimal) : Prop where
  nearest : Binary.Nearest d.value b
  trimmed : d.digits % 10 ≠ 0
  fewest (d' : Decimal) (h : Binary.Nearest d'.value b) : d.length ≤ d'.length
  closest (d' : Decimal) (h : Binary.Nearest d'.value b) (hlength : d'.length = d.length) :
    |d.value - b.size| ≤ |d'.value - b.size|

theorem length_pos (d : Decimal) : 0 < d.length :=
  Nat.length_toDigits_pos

theorem length_le_iff {k : ℕ} (hk : 0 < k) : d.length ≤ k ↔ d.digits < 10 ^ k :=
  Nat.length_toDigits_le_iff (by norm_num) hk

/-! ## A grid -/

/-- A multiple of a power of ten. -/
def multiple (k : ℕ) (exponent : ℤ) : ℚ :=
  k * 10 ^ exponent

/-- How many steps of a grid fit into a double. -/
def stepsOf (b : Binary) (exponent : ℤ) : Ratio :=
  (Ratio.scale ⟨b.mantissa, 1⟩ 2 b.exponent).scale 10 (-exponent)

theorem value_eq_multiple (d : Decimal) : d.value = multiple d.digits d.exponent := rfl

theorem multiple_le_multiple {j k : ℕ} {e : ℤ} (h : j ≤ k) : multiple j e ≤ multiple k e :=
  mul_le_mul_of_nonneg_right (by exact_mod_cast h) (by positivity)

/-- On a finer grid a multiple is one as well. -/
theorem exists_multiple_eq (k : ℕ) {g h : ℤ} (hgh : g ≤ h) :
    ∃ j, multiple k h = multiple j g := by
  obtain ⟨n, hn⟩ := Int.eq_ofNat_of_zero_le (show 0 ≤ h - g by omega)
  refine ⟨k * 10 ^ n, ?_⟩
  rw [multiple, multiple, show h = n + g by omega, zpow_add₀ (by norm_num), zpow_natCast]
  push_cast
  ring

theorem den_stepsOf_pos (b : Binary) (exponent : ℤ) : 0 < (stepsOf b exponent).den :=
  Ratio.den_scale_pos (Ratio.den_scale_pos Nat.one_pos (by norm_num) _) (by norm_num) _

theorem value_stepsOf (b : Binary) (exponent : ℤ) :
    (stepsOf b exponent).value * 10 ^ exponent = b.size := by
  rw [stepsOf, Ratio.value_scale _ (by norm_num), Ratio.value_scale _ (by norm_num), Ratio.value,
    Binary.size, zpow_neg]
  push_cast
  field_simp

/-- The whole steps below a double. -/
def floorOf (b : Binary) (exponent : ℤ) : ℕ :=
  (stepsOf b exponent).num / (stepsOf b exponent).den

/-- The part of a step above those. -/
def restOf (b : Binary) (exponent : ℤ) : Ratio :=
  ⟨(stepsOf b exponent).num % (stepsOf b exponent).den, (stepsOf b exponent).den⟩

theorem floorOf_add_restOf (b : Binary) (exponent : ℤ) :
    (floorOf b exponent + (restOf b exponent).value) * 10 ^ exponent = b.size := by
  have hden : ((stepsOf b exponent).den : ℚ) ≠ 0 := by
    exact_mod_cast (den_stepsOf_pos b exponent).ne'
  have hdivision : ((stepsOf b exponent).num : ℚ) =
      (stepsOf b exponent).den * floorOf b exponent + (restOf b exponent).num := by
    exact_mod_cast (Nat.div_add_mod _ _).symm
  rw [← value_stepsOf b exponent, Ratio.value, Ratio.value, hdivision]
  congr 1
  rw [add_div, mul_div_cancel_left₀ _ hden]
  rfl

theorem value_restOf_nonneg (b : Binary) (exponent : ℤ) : 0 ≤ (restOf b exponent).value :=
  div_nonneg (Nat.cast_nonneg _) (Nat.cast_nonneg _)

theorem value_restOf_lt_one (b : Binary) (exponent : ℤ) : (restOf b exponent).value < 1 := by
  have hden := den_stepsOf_pos b exponent
  rw [Ratio.value, div_lt_one (by exact_mod_cast hden)]
  exact_mod_cast Nat.mod_lt _ hden

/-- How far a double is from the multiple below it. -/
theorem size_sub_multiple_floorOf (b : Binary) (exponent : ℤ) :
    b.size - multiple (floorOf b exponent) exponent =
      (restOf b exponent).value * 10 ^ exponent := by
  rw [← floorOf_add_restOf b exponent, multiple]
  ring

/-- And how far from the one above it. -/
theorem multiple_succ_floorOf_sub_size (b : Binary) (exponent : ℤ) :
    multiple (floorOf b exponent + 1) exponent - b.size =
      (1 - (restOf b exponent).value) * 10 ^ exponent := by
  rw [← floorOf_add_restOf b exponent, multiple]
  push_cast
  ring

theorem multiple_floorOf_le (b : Binary) (exponent : ℤ) :
    multiple (floorOf b exponent) exponent ≤ b.size := by
  rw [← sub_nonneg, size_sub_multiple_floorOf]
  exact mul_nonneg (value_restOf_nonneg b exponent) (by positivity)

theorem lt_multiple_succ_floorOf (b : Binary) (exponent : ℤ) :
    b.size < multiple (floorOf b exponent + 1) exponent := by
  rw [← sub_pos, multiple_succ_floorOf_sub_size]
  exact mul_pos (sub_pos.2 (value_restOf_lt_one b exponent)) (by positivity)

theorem abs_multiple_floorOf_sub (b : Binary) (exponent : ℤ) :
    |multiple (floorOf b exponent) exponent - b.size| =
      (restOf b exponent).value * 10 ^ exponent := by
  rw [abs_sub_comm, abs_of_nonneg (sub_nonneg.2 (multiple_floorOf_le b exponent)),
    size_sub_multiple_floorOf]

theorem abs_multiple_succ_floorOf_sub (b : Binary) (exponent : ℤ) :
    |multiple (floorOf b exponent + 1) exponent - b.size| =
      (1 - (restOf b exponent).value) * 10 ^ exponent := by
  rw [abs_of_pos (sub_pos.2 (lt_multiple_succ_floorOf b exponent)),
    multiple_succ_floorOf_sub_size]

theorem nearer_eq_or (tie : Tie) (n : ℕ) (rest : Ratio) :
    nearer tie n rest = n ∧ 2 * rest.num ≤ rest.den ∨
      nearer tie n rest = n + 1 ∧ rest.den ≤ 2 * rest.num := by
  unfold nearer
  split
  · exact .inl ⟨rfl, by omega⟩
  · split
    · exact .inr ⟨rfl, by omega⟩
    · cases tie with
      | up => exact .inr ⟨rfl, by omega⟩
      | even =>
        rcases Nat.mod_two_eq_zero_or_one n with heven | hodd
        · exact .inl ⟨by simp only [heven, Nat.add_zero], by omega⟩
        · exact .inr ⟨by simp only [hodd], by omega⟩

/-- Of the two around a double the one that is taken is no further away. -/
theorem nearer_cases (tie : Tie) (b : Binary) (exponent : ℤ) :
    (nearer tie (floorOf b exponent) (restOf b exponent) = floorOf b exponent ∧
        |multiple (floorOf b exponent) exponent - b.size| ≤
          |multiple (floorOf b exponent + 1) exponent - b.size|) ∨
      (nearer tie (floorOf b exponent) (restOf b exponent) = floorOf b exponent + 1 ∧
        |multiple (floorOf b exponent + 1) exponent - b.size| ≤
          |multiple (floorOf b exponent) exponent - b.size|) := by
  have hden : (0 : ℚ) < (restOf b exponent).den := by exact_mod_cast den_stepsOf_pos b exponent
  rw [abs_multiple_floorOf_sub, abs_multiple_succ_floorOf_sub]
  obtain ⟨hnearer, hrest⟩ | ⟨hnearer, hrest⟩ :=
    nearer_eq_or tie (floorOf b exponent) (restOf b exponent)
  · refine .inl ⟨hnearer, mul_le_mul_of_nonneg_right ?_ (by positivity)⟩
    have hhalf : (restOf b exponent).value ≤ 1 / 2 := by
      rw [Ratio.value, div_le_div_iff₀ hden two_pos]
      exact_mod_cast (by omega)
    linarith
  · refine .inr ⟨hnearer, mul_le_mul_of_nonneg_right ?_ (by positivity)⟩
    have hhalf : 1 / 2 ≤ (restOf b exponent).value := by
      rw [Ratio.value, div_le_div_iff₀ two_pos hden]
      exact_mod_cast (by omega)
    linarith

/-- A hit on a grid is a multiple that rounds to the double, and no other that
does is nearer. -/
structure IsHit (b : Binary) (exponent : ℤ) (k : ℕ) : Prop where
  nearest : Binary.Nearest (multiple k exponent) b
  closest (j : ℕ) (h : Binary.Nearest (multiple j exponent) b) :
    |multiple k exponent - b.size| ≤ |multiple j exponent - b.size|

section Grid

variable (hb : b.IsNormal) (hpos : 0 < b.mantissa) {g : ℤ}
include hb hpos

/-- If some multiple rounds to the double, one of the two around the double
does so, which is no further away. -/
theorem nearest_floorOf_or (j : ℕ) (h : Binary.Nearest (multiple j g) b) :
    (Binary.Nearest (multiple (floorOf b g) g) b ∧
        |multiple (floorOf b g) g - b.size| ≤ |multiple j g - b.size|) ∨
      (Binary.Nearest (multiple (floorOf b g + 1) g) b ∧
        |multiple (floorOf b g + 1) g - b.size| ≤ |multiple j g - b.size|) := by
  have hbelow := multiple_floorOf_le b g
  have habove := lt_multiple_succ_floorOf b g
  rcases Nat.lt_or_ge (floorOf b g) j with hj | hj
  · have hle := multiple_le_multiple (e := g) (Nat.succ_le_of_lt hj)
    refine .inr ⟨h.of_between_right hb hpos habove.le hle, ?_⟩
    rw [abs_of_nonneg (by linarith), abs_of_nonneg (by linarith)]
    linarith
  · have hle := multiple_le_multiple (e := g) hj
    refine .inl ⟨h.of_between_left hb hpos hle hbelow, ?_⟩
    rw [abs_of_nonpos (by linarith), abs_of_nonpos (by linarith)]
    linarith

theorem holds_interval_multiple (k : ℕ) :
    (interval b).holds (toRatio ⟨k, g⟩) ↔ Binary.Nearest (multiple k g) b := by
  rw [holds_interval hb hpos (den_toRatio_pos _), value_toRatio]
  rfl

/-- A multiple is a hit if neither of the two around the double is a nearer one. -/
theorem isHit_of_le {k : ℕ} (hk : Binary.Nearest (multiple k g) b)
    (hbelow : Binary.Nearest (multiple (floorOf b g) g) b →
      |multiple k g - b.size| ≤ |multiple (floorOf b g) g - b.size|)
    (habove : Binary.Nearest (multiple (floorOf b g + 1) g) b →
      |multiple k g - b.size| ≤ |multiple (floorOf b g + 1) g - b.size|) : IsHit b g k := by
  refine ⟨hk, fun j hj => ?_⟩
  obtain ⟨hnearest, hle⟩ | ⟨hnearest, hle⟩ := nearest_floorOf_or hb hpos j hj
  · exact (hbelow hnearest).trans hle
  · exact (habove hnearest).trans hle

/-- What the search does on one grid: it finds a hit if there is one. -/
theorem onGrid?_cases (tie : Tie) (g : ℤ) :
    (onGrid? tie b g = none ∧ ∀ k, ¬ Binary.Nearest (multiple k g) b) ∨
      ∃ k, onGrid? tie b g = some ⟨k, g⟩ ∧ IsHit b g k ∧
        (k = floorOf b g ∨ k = floorOf b g + 1) := by
  have hsearch : onGrid? tie b g =
      if (interval b).holds (toRatio ⟨floorOf b g, g⟩) then
        some ⟨if (interval b).holds (toRatio ⟨floorOf b g + 1, g⟩) then
          nearer tie (floorOf b g) (restOf b g) else floorOf b g, g⟩
      else if (interval b).holds (toRatio ⟨floorOf b g + 1, g⟩) then some ⟨floorOf b g + 1, g⟩
      else none := by
    unfold onGrid?
    dsimp only
    split <;> simp_all [floorOf, restOf, stepsOf]
  have hbelow := holds_interval_multiple hb hpos (g := g) (floorOf b g)
  have habove := holds_interval_multiple hb hpos (g := g) (floorOf b g + 1)
  rw [hsearch]
  cases hbelowHolds : (interval b).holds (toRatio ⟨floorOf b g, g⟩) <;>
    cases haboveHolds : (interval b).holds (toRatio ⟨floorOf b g + 1, g⟩) <;>
    simp only [hbelowHolds, haboveHolds, true_iff, Bool.false_eq_true, false_iff] at hbelow habove
  · refine .inl ⟨rfl, fun j hj => ?_⟩
    obtain ⟨h, -⟩ | ⟨h, -⟩ := nearest_floorOf_or hb hpos j hj
    · exact hbelow h
    · exact habove h
  · exact .inr ⟨_, rfl, isHit_of_le hb hpos habove (fun h => absurd h hbelow) fun _ => le_rfl,
      .inr rfl⟩
  · exact .inr ⟨_, rfl, isHit_of_le hb hpos hbelow (fun _ => le_rfl) fun h => absurd h habove,
      .inl rfl⟩
  · obtain ⟨hnearer, hle⟩ | ⟨hnearer, hle⟩ := nearer_cases tie b g
    · refine .inr ⟨_, rfl, ?_, .inl hnearer⟩
      rw [hnearer]
      exact isHit_of_le hb hpos hbelow (fun _ => le_rfl) fun _ => hle
    · refine .inr ⟨_, rfl, ?_, .inr hnearer⟩
      rw [hnearer]
      exact isHit_of_le hb hpos habove (fun _ => hle) fun _ => le_rfl

/-- There is a hit where the grid is finer than what rounds to the double. -/
theorem exists_nearest_multiple (h : 2 * 10 ^ g < b.above.size - b.below.size) :
    ∃ k, Binary.Nearest (multiple k g) b := by
  have hbelow := multiple_floorOf_le b g
  have habove := lt_multiple_succ_floorOf b g
  have hlow := Binary.below_lt_size hpos
  have hhigh := Binary.size_lt_above hb.toFits
  have hstep : multiple (floorOf b g + 1) g = multiple (floorOf b g) g + 10 ^ g := by
    rw [multiple, multiple]
    push_cast
    ring
  rcases lt_or_ge (b.below.size + b.size) (2 * multiple (floorOf b g) g) with hin | hout
  · refine ⟨floorOf b g, (Binary.nearest_iff hb hpos).2 ⟨⟨hin.le, by linarith⟩, ?_⟩⟩
    rintro (hmiddle | hmiddle) <;> exfalso <;> linarith
  · refine ⟨floorOf b g + 1, (Binary.nearest_iff hb hpos).2 ⟨⟨by linarith, by linarith⟩, ?_⟩⟩
    rintro (hmiddle | hmiddle) <;> exfalso <;> linarith

/-! ## The search -/

/-- The search ends on the first grid that has a hit. -/
theorem search_eq (tie : Tie) {tries : ℕ} {start finest : ℤ} (hfinest : finest + tries = start)
    {k : ℕ} (hk : Binary.Nearest (multiple k finest) b) :
    ∃ g k, search tie b (tries + 1) start = ⟨k, g⟩ ∧ g ≤ start ∧ finest ≤ g ∧
      IsHit b g k ∧ (k = floorOf b g ∨ k = floorOf b g + 1) ∧
      ∀ h, g < h → h ≤ start → ∀ j, ¬ Binary.Nearest (multiple j h) b := by
  induction tries generalizing start with
  | zero =>
    obtain ⟨-, hnone⟩ | ⟨j, hsome, hhit, hj⟩ := onGrid?_cases hb hpos tie start
    · obtain rfl : finest = start := by omega
      exact absurd hk (hnone k)
    · rw [search, hsome]
      exact ⟨start, j, rfl, le_rfl, by omega, hhit, hj, fun h hlt hle => absurd hle (by omega)⟩
  | succ tries ih =>
    rw [search]
    obtain ⟨hmiss, hnone⟩ | ⟨j, hsome, hhit, hj⟩ := onGrid?_cases hb hpos tie start
    · rw [hmiss, Option.getD_none]
      obtain ⟨g, j, hfound, hle, hge, hhit, hj, hcoarser⟩ :=
        @ih (start - 1) (by push_cast at hfinest; omega)
      refine ⟨g, j, hfound, by omega, by omega, hhit, hj, fun h hlt hle => ?_⟩
      rcases eq_or_lt_of_le hle with rfl | hlt'
      · exact hnone
      · exact hcoarser h hlt (by omega)
    · rw [hsome]
      exact ⟨start, j, rfl, le_rfl, by omega, hhit, hj, fun h hlt hle => absurd hle (by omega)⟩

end Grid

/-! ## The power of ten below a double -/

/-- `28 / 93` is a little more than the decimal logarithm of two, and
`59 / 196` a little less. -/
theorem two_zpow_le_ten_zpow {m n : ℤ} (hmore : 28 * m ≤ 93 * n) (hless : 59 * m ≤ 196 * n) :
    (2 : ℚ) ^ m ≤ 10 ^ n := by
  rcases le_or_gt 0 m with hm | hm
  · obtain ⟨k, rfl⟩ := Int.eq_ofNat_of_zero_le hm
    obtain ⟨j, rfl⟩ := Int.eq_ofNat_of_zero_le (show 0 ≤ n by omega)
    rw [zpow_natCast, zpow_natCast, ← pow_le_pow_iff_left₀ (by positivity) (by positivity)
      (show 93 ≠ 0 by norm_num)]
    calc ((2 : ℚ) ^ k) ^ 93
      _ = (2 ^ 93) ^ k := by rw [← pow_mul, ← pow_mul, mul_comm]
      _ ≤ (10 ^ 28) ^ k := pow_le_pow_left₀ (by positivity) (by norm_num) k
      _ = 10 ^ (28 * k) := by rw [← pow_mul]
      _ ≤ 10 ^ (93 * j) := pow_le_pow_right₀ (by norm_num) (by omega)
      _ = (10 ^ j) ^ 93 := by rw [← pow_mul, mul_comm]
  · obtain ⟨k, hk⟩ := Int.eq_ofNat_of_zero_le (show 0 ≤ -m by omega)
    obtain rfl : m = -(k : ℤ) := by omega
    rcases le_or_gt 0 n with hn | hn
    · calc (2 : ℚ) ^ (-(k : ℤ))
        _ ≤ 1 := zpow_le_one_of_nonpos₀ one_le_two (by omega)
        _ ≤ 10 ^ n := one_le_zpow₀ (by norm_num) hn
    · obtain ⟨j, hj⟩ := Int.eq_ofNat_of_zero_le (show 0 ≤ -n by omega)
      obtain rfl : n = -(j : ℤ) := by omega
      rw [zpow_neg, zpow_neg, inv_le_inv₀ (by positivity) (by positivity), zpow_natCast,
        zpow_natCast, ← pow_le_pow_iff_left₀ (by positivity) (by positivity)
        (show 196 ≠ 0 by norm_num)]
      calc ((10 : ℚ) ^ j) ^ 196
        _ = 10 ^ (196 * j) := by rw [← pow_mul, mul_comm]
        _ ≤ 10 ^ (59 * k) := pow_le_pow_right₀ (by norm_num) (by omega)
        _ = (10 ^ 59) ^ k := by rw [← pow_mul]
        _ ≤ (2 ^ 196) ^ k := pow_le_pow_left₀ (by positivity) (by norm_num) k
        _ = (2 ^ k) ^ 196 := by rw [← pow_mul, ← pow_mul, mul_comm]

theorem ten_zpow_le_two_zpow {m n : ℤ} (hmore : 93 * n ≤ 28 * m) (hless : 196 * n ≤ 59 * m) :
    (10 : ℚ) ^ n ≤ 2 ^ m := by
  have h := two_zpow_le_ten_zpow (m := -m) (n := -n) (by omega) (by omega)
  rwa [zpow_neg, zpow_neg, inv_le_inv₀ (by positivity) (by positivity)] at h

/-- A double lies between two powers of two. -/
theorem two_zpow_le_size (hpos : 0 < b.mantissa) :
    2 ^ (b.mantissa.log2 + b.exponent) ≤ b.size ∧
      b.size < 2 ^ (b.mantissa.log2 + b.exponent + 1) := by
  have hlow : ((2 ^ b.mantissa.log2 : ℕ) : ℚ) ≤ b.mantissa := by
    exact_mod_cast Nat.log2_self_le hpos.ne'
  have hhigh : (b.mantissa : ℚ) < (2 ^ (b.mantissa.log2 + 1) : ℕ) := by
    exact_mod_cast Nat.lt_log2_self
  push_cast at hlow hhigh
  constructor
  · rw [zpow_add₀ two_ne_zero, zpow_natCast]
    exact mul_le_mul_of_nonneg_right hlow b.step_pos.le
  · rw [show (b.mantissa.log2 : ℤ) + b.exponent + 1 = (b.mantissa.log2 + 1 : ℕ) + b.exponent by
      push_cast; ring, zpow_add₀ two_ne_zero, zpow_natCast]
    exact mul_lt_mul_of_pos_right hhigh b.step_pos

/-- The magnitude is the power of ten at or below the double. -/
theorem magnitude_spec (hb : b.IsNormal) (hpos : 0 < b.mantissa) (hexponent : b.exponent ≤ 971) :
    10 ^ magnitude b ≤ b.size ∧ b.size < 10 ^ (magnitude b + 1) := by
  obtain ⟨hlow, hhigh⟩ := two_zpow_le_size hpos
  have hleast : -1074 ≤ b.exponent := hb.exponent
  have hlog : b.mantissa.log2 < 53 := (Nat.log2_lt hpos.ne').2 hb.mantissa
  have hle (n : ℤ) : (toRatio ⟨1, n⟩).le (Ratio.scale ⟨b.mantissa, 1⟩ 2 b.exponent) ↔
      10 ^ n ≤ b.size := by
    rw [Ratio.le_iff (den_toRatio_pos _) (Ratio.den_scale_pos Nat.one_pos two_pos _), value_toRatio,
      Ratio.value_scale _ two_pos, value, Ratio.value, Binary.size]
    norm_num
  unfold magnitude
  -- the guess is off by one at most
  generalize hguess : (Int.ofNat b.mantissa.log2 + b.exponent) * 30103 / 100000 = guess
  have hcast : Int.ofNat b.mantissa.log2 = (b.mantissa.log2 : ℤ) := rfl
  rw [hcast] at hguess
  have hfirst : (10 : ℚ) ^ (guess - 1) ≤ b.size :=
    (ten_zpow_le_two_zpow (by omega) (by omega)).trans hlow
  have hlast : b.size < 10 ^ (guess + 1 + 1) :=
    hhigh.trans_le (two_zpow_le_ten_zpow (by omega) (by omega))
  simp only [hle]
  split
  · rename_i hnext
    exact ⟨hnext, hlast⟩
  · rename_i hnext
    split
    · rename_i hguessed
      exact ⟨hguessed, lt_of_not_ge hnext⟩
    · rename_i hguessed
      rw [sub_add_cancel]
      exact ⟨hfirst, lt_of_not_ge hguessed⟩

/-! ## Zeros at the end -/

theorem value_div_ten (h : d.digits % 10 = 0) : value ⟨d.digits / 10, d.exponent + 1⟩ = d.value := by
  have hdigits : (d.digits : ℚ) = 10 * (d.digits / 10 : ℕ) := by
    exact_mod_cast (show d.digits = 10 * (d.digits / 10) by omega)
  rw [value, value, hdigits, zpow_add_one₀ (by norm_num)]
  ring

/-- Without the zeros at the end of its digits a decimal has the same value. -/
theorem trimZeros_spec {fuel : ℕ} (hpos : d.digits ≠ 0) (hfuel : d.digits ≤ 10 ^ fuel) :
    (trimZeros fuel d).value = d.value ∧ (trimZeros fuel d).digits % 10 ≠ 0 ∧
      (trimZeros fuel d).digits ≤ d.digits := by
  induction fuel generalizing d with
  | zero => exact ⟨rfl, by rw [trimZeros]; omega, le_rfl⟩
  | succ fuel ih =>
    rw [trimZeros]
    split
    · rename_i hzero
      rw [pow_succ] at hfuel
      obtain ⟨hvalue, htrimmed, hle⟩ :=
        @ih ⟨d.digits / 10, d.exponent + 1⟩ (by simp only; omega) (by simp only; omega)
      exact ⟨hvalue.trans (value_div_ten hzero.1), htrimmed, hle.trans (Nat.div_le_self _ _)⟩
    · rename_i hzero
      exact ⟨rfl, fun h => hzero ⟨h, hpos⟩, le_rfl⟩

/-! ## The shortest decimal -/

/-- A decimal with few digits is below a power of ten. -/
theorem value_lt_of_length_le {n : ℕ} {m : ℤ} (hn : 0 < n) (hlength : d.length ≤ n)
    (hexponent : d.exponent + n ≤ m) : d.value < 10 ^ m := by
  have hdigits : (d.digits : ℚ) < 10 ^ n := by exact_mod_cast (length_le_iff hn).1 hlength
  calc d.value
    _ = d.digits * 10 ^ d.exponent := rfl
    _ < 10 ^ n * 10 ^ d.exponent := mul_lt_mul_of_pos_right hdigits (by positivity)
    _ = 10 ^ (d.exponent + n) := by
      rw [← zpow_natCast, ← zpow_add₀ (by norm_num), add_comm]
    _ ≤ 10 ^ m := zpow_le_zpow_right₀ (by norm_num) hexponent

theorem multiple_one (m : ℤ) : multiple 1 m = 10 ^ m := by
  rw [multiple, Nat.cast_one, one_mul]

section Shortest

variable (hb : b.IsNormal) (hpos : 0 < b.mantissa)
include hb hpos

/-- No double but zero is so small that zero rounds to it. -/
theorem not_nearest_zero : ¬ Binary.Nearest 0 b := by
  intro h
  have hsize : 0 < b.size := mul_pos (by exact_mod_cast hpos) b.step_pos
  have hbelow : 0 ≤ b.below.size := mul_nonneg (Nat.cast_nonneg _) b.below.step_pos.le
  have := ((Binary.nearest_iff hb hpos).1 h).1.1
  linarith

/-- Seventeen digits are enough. -/
theorem exists_nearest_seventeen {m : ℤ} (hm : 10 ^ m ≤ b.size) :
    ∃ k, Binary.Nearest (multiple k (m - 16)) b := by
  refine exists_nearest_multiple hb hpos ?_
  have hmantissa : (b.mantissa : ℚ) < 2 ^ 53 := by exact_mod_cast hb.mantissa
  have hstep := b.step_pos
  have hsize : b.size = b.mantissa * 2 ^ b.exponent := rfl
  have hgrid : (10 : ℚ) ^ (m - 16) ≤ b.size / 10 ^ 16 := by
    rw [zpow_sub₀ (by norm_num)]
    exact div_le_div_of_nonneg_right hm (by positivity)
  rw [Binary.size_above hb.toFits]
  by_cases hpower : b.IsPower
  · rw [Binary.size_below_of_isPower hpower]
    rw [hpower.1] at hsize ⊢
    push_cast at hsize ⊢
    linarith
  · rw [Binary.size_below_of_not_isPower hpower hpos]
    have hgap : (b.mantissa + 1) * 2 ^ b.exponent - (b.mantissa - 1) * 2 ^ b.exponent =
        (2 : ℚ) * 2 ^ b.exponent := by
      ring
    have hless : b.size < 2 ^ 53 * 2 ^ b.exponent := mul_lt_mul_of_pos_right hmantissa hstep
    rw [hgap]
    linarith

variable (hexponent : b.exponent ≤ 971)
include hexponent

/-- **The search finds the shortest decimal.** -/
theorem isShortest_search (tie : Tie) :
    IsShortest b (trimZeros 17 (search tie b 17 (magnitude b))) := by
  obtain ⟨hhead, hnext⟩ := magnitude_spec hb hpos hexponent
  obtain ⟨_, hfine⟩ := exists_nearest_seventeen hb hpos hhead
  obtain ⟨g, k, hfound, hle, hge, hhit, hk, hcoarser⟩ :=
    search_eq hb hpos tie (show magnitude b - 16 + (16 : ℕ) = magnitude b by push_cast; ring) hfine
  generalize magnitude b = m at *
  obtain ⟨p, hp⟩ := Int.eq_ofNat_of_zero_le (show 0 ≤ m - g by omega)
  obtain rfl : m = g + p := by omega
  -- the head of the double rounds to it if something smaller does
  have hbetween {d' : Decimal} (h : Binary.Nearest d'.value b) (hlt : d'.value < 10 ^ (g + p)) :
      Binary.Nearest (multiple 1 (g + p)) b := by
    rw [multiple_one]
    exact h.of_between_left hb hpos hlt.le hhead
  have hkpos : k ≠ 0 := by
    rintro rfl
    have hzero := hhit.nearest
    rw [multiple, Nat.cast_zero, zero_mul] at hzero
    exact not_nearest_zero hb hpos hzero
  have hkle : k ≤ 10 ^ (p + 1) := by
    have hfloor := (multiple_floorOf_le b g).trans_lt hnext
    rw [multiple, add_assoc, zpow_add₀ (by norm_num), mul_comm, ← Nat.cast_succ,
      zpow_natCast] at hfloor
    have hfloor := lt_of_mul_lt_mul_left hfloor (by positivity)
    have hfloor : floorOf b g < 10 ^ (p + 1) := by exact_mod_cast hfloor
    omega
  have hkle17 : k ≤ 10 ^ 17 :=
    hkle.trans (Nat.pow_le_pow_right (by norm_num) (by omega))
  rw [hfound]
  obtain ⟨hvalue, htrimmed, hdigits⟩ := trimZeros_spec (d := ⟨k, g⟩) hkpos hkle17
  generalize trimZeros 17 ⟨k, g⟩ = d at *
  rw [value_eq_multiple ⟨k, g⟩] at hvalue
  have hlength : d.length ≤ p + 1 := by
    rw [length_le_iff (Nat.succ_pos p)]
    refine lt_of_le_of_ne (hdigits.trans hkle) fun h => htrimmed ?_
    rw [h, pow_succ, Nat.mul_mod_left]
  refine ⟨hvalue ▸ hhit.nearest, htrimmed, fun d' h => ?_, fun d' h hsame => ?_⟩
  · by_contra hfewer
    have hd' := d'.length_pos
    rcases lt_or_ge g d'.exponent with hexp | hexp
    · obtain ⟨j, hj⟩ := exists_multiple_eq d'.digits (min_le_left d'.exponent (g + p))
      refine hcoarser _ (lt_min hexp (by omega)) (min_le_right _ _) j ?_
      rwa [← hj]
    · have hsmall := value_lt_of_length_le (d := d') (n := p) (m := g + p) (by omega) (by omega)
        (by omega)
      exact hcoarser (g + p) (by omega) le_rfl 1 (hbetween h hsmall)
  · rw [hvalue]
    rcases le_or_gt g d'.exponent with hexp | hexp
    · obtain ⟨j, hj⟩ := exists_multiple_eq d'.digits hexp
      rw [value_eq_multiple d', hj] at h ⊢
      exact hhit.closest j h
    · have hsmall := value_lt_of_length_le (d := d') (n := p + 1) (m := g + p) (by omega)
        (by omega) (by push_cast; omega)
      obtain ⟨j, hj⟩ := exists_multiple_eq 1 (show g ≤ g + p by omega)
      have hclosest := hhit.closest j (hj ▸ hbetween h hsmall)
      rw [← hj, multiple_one, abs_of_nonpos (a := 10 ^ (g + (p : ℤ)) - b.size)
        (by linarith)] at hclosest
      rw [abs_of_nonpos (a := d'.value - b.size) (by linarith)]
      linarith

end Shortest

end Decimal

end ModuleAssets
