import ModuleAssets.Proofs.Decimal.Shortest
import ModuleAssets.Proofs.Decimal.Unpacked
import ModuleAssets.Value.Basic
/-!
# Writing — the text of a number

The language writes a number with the fewest digits that read back. Where the
decimal point falls among them, or not far from them, it is written there, and
else the number has an exponent.
-/

namespace ModuleAssets

open Float.Model (UnpackedFloat)

namespace Double

/-- Digits with the decimal point after the first `place` of them. -/
def numeral (digits : List Char) (place : ℤ) : List Char :=
  if -5 ≤ place ∧ place ≤ 21 then
    if digits.length ≤ place then
      digits ++ List.replicate (place - digits.length).toNat '0'
    else if 0 < place then digits.take place.toNat ++ '.' :: digits.drop place.toNat
    else '0' :: '.' :: List.replicate (-place).toNat '0' ++ digits
  else
    digits.take 1 ++ (if digits.length = 1 then [] else '.' :: digits.drop 1) ++
      'e' :: (if 0 < place then '+' else '-') :: Nat.toDigits 10 (place - 1).natAbs

/-- The number is written in this way. The digits are told up to the choice
between two decimals that are equally short and equally near. -/
def Writes (x : Float) (t : List Char) : Prop :=
  match unpacked x with
  | .notANumber => t = "NaN".toList
  | .infinity .positive => t = "Infinity".toList
  | .infinity .negative => t = "-Infinity".toList
  | .zero _ => t = "0".toList
  | .finite s m e _ =>
    ∃ d : Decimal, d.IsShortest ⟨false, m, e⟩ ∧
      t = (match s with | .positive => [] | .negative => ['-']) ++
        numeral (Nat.toDigits 10 d.digits) ((Nat.toDigits 10 d.digits).length + d.exponent)

/-- A finite number is below zero if its sign says so. -/
theorem lt_zero_iff {x : Float} {s : UnpackedFloat.Sign} {m : ℕ} {e : ℤ} {hm : 0 < m}
    (hx : unpacked x = .finite s m e hm) : x < 0.0 ↔ s = .negative := by
  rw [lt_iff, hx, unpacked_zero]
  cases s with
  | positive => exact iff_of_false (fun h => by cases h) fun h => by cases h
  | negative => exact iff_of_true rfl rfl

/-- Nothing that is asked of a shortest decimal depends on the sign. -/
theorem isShortest_congr {b c : Binary} {d : Decimal} (h : d.IsShortest b)
    (hmantissa : b.mantissa = c.mantissa) (hexponent : b.exponent = c.exponent) :
    d.IsShortest c := by
  have hsize : b.size = c.size := by
    rw [Binary.size, Binary.size, hmantissa, hexponent]
  have hnearest (q : ℚ) : Binary.Nearest q b ↔ Binary.Nearest q c := by
    rw [Binary.Nearest, Binary.Nearest, hsize, hmantissa]
  exact ⟨(hnearest _).1 h.nearest, h.trimmed, fun d' hd' => h.fewest d' ((hnearest _).2 hd'),
    fun d' hd' hlength => hsize ▸ h.closest d' ((hnearest _).2 hd') hlength⟩

theorem isShortest_shortest (tie : Decimal.Tie) {x : Float} {s : UnpackedFloat.Sign} {m : ℕ} {e : ℤ}
    {hm : 0 < m} (hx : unpacked x = .finite s m e hm) :
    (Decimal.shortest tie x).IsShortest ⟨false, m, e⟩ := by
  obtain ⟨-, hmantissa, hexp, hmost⟩ := ofFloat_of_finite hx
  have hpos : 0 < (Binary.ofFloat x).mantissa := hmantissa ▸ hm
  have hshortest : Decimal.shortest tie x =
      Decimal.trimZeros 17 (Decimal.search tie (Binary.ofFloat x) 17
        (Decimal.magnitude (Binary.ofFloat x))) := if_neg hpos.ne'
  rw [hshortest]
  exact isShortest_congr
    (Decimal.isShortest_search (isNormal_ofFloat x) hpos (hexp ▸ hmost) tie) hmantissa hexp

theorem positional_eq {d : Decimal} (hlow : -6 < d.pointPlace) (hhigh : d.pointPlace ≤ 21) :
    d.positional = numeral (Decimal.digitChars d.digits) d.pointPlace := by
  have hplace : d.pointPlace = (Decimal.digitChars d.digits).length + d.exponent := rfl
  rw [numeral, if_pos ⟨by omega, hhigh⟩]
  by_cases hwhole : 0 ≤ d.exponent
  · rw [if_pos (by omega), hplace, add_sub_cancel_left]
    exact if_pos hwhole
  · rw [if_neg (by omega)]
    exact if_neg hwhole

/-- **A number that is written is written as the language does.** -/
theorem writes_of_numberText? {x : Float} {t : String} (h : Value.numberText? x = some t) :
    Writes x t.toList := by
  have hzero := beq_zero_iff (x := x)
  unfold Value.numberText? at h
  unfold Writes
  rw [isNaN_eq, isInf_eq] at h
  cases hx : unpacked x with
  | notANumber =>
    rw [hx] at h
    obtain rfl : "NaN" = t := Option.some.inj h
    rfl
  | infinity s =>
    have hgreater := lt_iff (x := 0.0) (y := x)
    rw [hx, unpacked_zero] at hgreater
    rw [hx] at h
    obtain rfl : (if 0.0 < x then "Infinity" else "-Infinity") = t := Option.some.inj h
    cases s with
    | positive => rw [if_pos (hgreater.2 rfl)]
    | negative => rw [if_neg fun hpos => by cases hgreater.1 hpos]
  | zero s =>
    rw [hx] at hzero h
    replace h : (if (x == 0.0) = true then some "0" else _) = some t := h
    rw [if_pos (hzero.2 ⟨s, rfl⟩)] at h
    obtain rfl : "0" = t := Option.some.inj h
    rfl
  | finite s m e hm =>
    have hnonzero : ¬ (x == 0.0) = true := Bool.not_eq_true _ ▸ (tests_of_finite hx).2.2
    rw [hx] at h
    replace h : (if (x == 0.0) = true then some "0" else _) = some t := h
    rw [if_neg hnonzero] at h
    have hshortest := isShortest_shortest .up hx
    generalize Decimal.shortest .up x = d at h hshortest
    have hless := lt_zero_iff hx
    split at h
    · rename_i hplace
      rw [Option.some.injEq] at h
      refine ⟨d, hshortest, ?_⟩
      rw [← h, String.toList_ofList, positional_eq hplace.1 hplace.2]
      cases s with
      | positive =>
        rw [if_neg fun hneg => by cases hless.1 hneg]
        rfl
      | negative =>
        rw [if_pos (hless.2 rfl)]
        rfl
    · cases h

end Double

end ModuleAssets
