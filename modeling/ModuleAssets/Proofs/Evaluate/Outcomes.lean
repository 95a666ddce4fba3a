import ModuleAssets.Proofs.Evaluate.Gives
/-!
# Outcomes — deciding the test

An outcome with two values becomes one with a single value as soon as its
test is decided. It is the same whether this happens before or after outcomes
are combined, and a combination has the test of the one part that has any.
-/

namespace ModuleAssets

namespace Outcome

variable {x y z : Outcome}

/-- The test on which the value depends. -/
def test? : Outcome → Option Span
  | single _ => none
  | either test _ _ => some test

/-- What is left of the outcome if its test holds, or if it fails. -/
def decided (holds : Bool) : Outcome → Outcome
  | single v => single v
  | either _ a b => single (if holds then a else b)

theorem test?_eq_none : x.test? = none ↔ ∃ v, x = single v := by
  cases x <;> simp [test?]

theorem decided_of_test?_eq_none (h : x.test? = none) (holds : Bool) : x.decided holds = x := by
  obtain ⟨v, rfl⟩ := test?_eq_none.1 h
  rfl

theorem test?_map? {f : Value → Option Value} (h : x.map? f = some y) : y.test? = x.test? := by
  cases x with
  | single v =>
    obtain ⟨w, -, rfl⟩ := Option.map_eq_some_iff.1 h
    rfl
  | either test a b =>
    rw [map?, Option.bind_eq_some_iff] at h
    obtain ⟨a', -, h⟩ := h
    obtain ⟨b', -, rfl⟩ := Option.map_eq_some_iff.1 h
    rfl

theorem map?_decided {f : Value → Option Value} (h : x.map? f = some y) (holds : Bool) :
    (x.decided holds).map? f = some (y.decided holds) := by
  cases x with
  | single v =>
    obtain ⟨w, hw, rfl⟩ := Option.map_eq_some_iff.1 h
    rw [decided, map?, hw, Option.map_some, decided]
  | either test a b =>
    rw [map?, Option.bind_eq_some_iff] at h
    obtain ⟨a', ha, h⟩ := h
    obtain ⟨b', hb, rfl⟩ := Option.map_eq_some_iff.1 h
    cases holds with
    | true => simp [decided, map?, ha]
    | false => simp [decided, map?, hb]

/-- A way to combine two outcomes of which at most one has a test. Deciding
the test before comes to the same as deciding it after. -/
structure Combines (f : Outcome → Outcome → Option Outcome) : Prop where
  test? {x y z : Outcome} (h : f x y = some z) :
    x.test? = none ∧ z.test? = y.test? ∨ y.test? = none ∧ z.test? = x.test?
  decided {x y z : Outcome} (h : f x y = some z) (holds : Bool) :
    f (x.decided holds) (y.decided holds) = some (z.decided holds)

/-- What has no test is combined of parts that have none. -/
theorem Combines.test?_eq_none {f : Outcome → Outcome → Option Outcome} (hf : Combines f)
    (h : f x y = some z) (hz : z.test? = none) : x.test? = none ∧ y.test? = none := by
  obtain ⟨hx, htest⟩ | ⟨hy, htest⟩ := hf.test? h
  · exact ⟨hx, htest ▸ hz⟩
  · exact ⟨htest ▸ hz, hy⟩

theorem combines_zip? (f : Value → Value → Option Value) : Combines (zip? f) where
  test? {x y z} h := by
    cases y with
    | single b => exact .inr ⟨rfl, test?_map? h⟩
    | either test a b =>
      cases x with
      | single c => exact .inl ⟨rfl, test?_map? h⟩
      | either => cases h
  decided {x y z} h holds := by
    cases y with
    | single b => exact map?_decided h holds
    | either test a b =>
      cases x with
      | single c =>
        have hmap : (either test a b).map? (f c) = some z := h
        cases holds <;> exact map?_decided hmap _
      | either => cases h

/-- A function of each value may come before. -/
theorem Combines.map?_bind {f : Outcome → Outcome → Option Outcome} (hf : Combines f)
    (g : Value → Option Value) : Combines fun x y => (y.map? g).bind (f x) where
  test? {x y z} h := by
    obtain ⟨w, hw, h⟩ := Option.bind_eq_some_iff.1 h
    rw [← test?_map? hw]
    exact hf.test? h
  decided {x y z} h holds := by
    obtain ⟨w, hw, h⟩ := Option.bind_eq_some_iff.1 h
    rw [map?_decided hw, Option.bind_some]
    exact hf.decided h holds

/-- A function of each value may come after. -/
theorem Combines.bind_map? {f : Outcome → Outcome → Option Outcome} (hf : Combines f)
    (g : Value → Option Value) : Combines fun x y => (f x y).bind (map? g) where
  test? {x y z} h := by
    obtain ⟨w, hw, h⟩ := Option.bind_eq_some_iff.1 h
    rw [test?_map? h]
    exact hf.test? hw
  decided {x y z} h holds := by
    obtain ⟨w, hw, h⟩ := Option.bind_eq_some_iff.1 h
    rw [hf.decided hw, Option.bind_some]
    exact map?_decided h holds

theorem combines_joinPiece? (piece : String) : Combines (joinPiece? piece) :=
  (combines_zip? Value.concat?).bind_map? _

end Outcome

/-! ## Arguments -/

theorem splitArguments?_eq_none {xs : List Outcome} {vs : List Value}
    (h : splitArguments? xs = some (vs, none)) : xs = vs.map .single := by
  induction xs generalizing vs with
  | nil =>
    rw [splitArguments?, Option.some.injEq, Prod.mk.injEq] at h
    rw [← h.1, List.map_nil]
  | cons x rest ih =>
    cases x with
    | single v =>
      rw [splitArguments?, Option.map_eq_some_iff] at h
      obtain ⟨⟨firsts, other⟩, hrest, h⟩ := h
      rw [Prod.mk.injEq, Option.map_eq_none_iff] at h
      obtain ⟨rfl, rfl⟩ := h
      rw [List.map_cons, ih hrest]
    | either test a b =>
      rw [splitArguments?, Option.bind_eq_some_iff] at h
      obtain ⟨⟨firsts, other⟩, -, h⟩ := h
      cases other <;> simp at h

theorem splitArguments?_singles (vs : List Value) :
    splitArguments? (vs.map .single) = some (vs, none) := by
  induction vs with
  | nil => rfl
  | cons v vs ih => rw [List.map_cons, splitArguments?, ih]; rfl

/-- Where the arguments can be split, one of them has the test, and deciding
it leaves the arguments of one of the two calls. -/
theorem splitArguments?_eq_some {xs : List Outcome} {firsts seconds : List Value} {test : Span}
    (h : splitArguments? xs = some (firsts, some (test, seconds))) :
    ∃ i x, xs[i]? = some x ∧ x.test? = some test ∧
      (∀ j y, j ≠ i → xs[j]? = some y → y.test? = none) ∧
      ∀ holds, xs.set i (x.decided holds) = (if holds then firsts else seconds).map .single := by
  induction xs generalizing firsts seconds with
  | nil => simp [splitArguments?] at h
  | cons x rest ih =>
    cases x with
    | single v =>
      rw [splitArguments?, Option.map_eq_some_iff] at h
      obtain ⟨⟨firsts', other⟩, hrest, h⟩ := h
      rw [Prod.mk.injEq, Option.map_eq_some_iff] at h
      obtain ⟨rfl, ⟨test', seconds'⟩, rfl, h⟩ := h
      rw [Prod.mk.injEq] at h
      obtain ⟨rfl, rfl⟩ := h
      obtain ⟨i, x, hi, htest, hothers, hset⟩ := ih hrest
      refine ⟨i + 1, x, hi, htest, ?_, fun holds => ?_⟩
      · intro j y hj hy
        cases j with
        | zero =>
          rw [List.getElem?_cons_zero, Option.some.injEq] at hy
          rw [← hy, Outcome.test?]
        | succ j => exact hothers j y (by omega) hy
      · rw [List.set_cons_succ, hset]
        cases holds <;> rfl
    | either test' a b =>
      rw [splitArguments?, Option.bind_eq_some_iff] at h
      obtain ⟨⟨firsts', other⟩, hrest, h⟩ := h
      cases other with
      | some => cases h
      | none =>
        simp only [Option.some.injEq, Prod.mk.injEq] at h
        obtain ⟨rfl, rfl, rfl⟩ := h
        have hsingles := splitArguments?_eq_none hrest
        refine ⟨0, _, rfl, rfl, ?_, fun holds => ?_⟩
        · intro j y hj hy
          obtain ⟨j, rfl⟩ := Nat.exists_eq_succ_of_ne_zero hj
          rw [List.getElem?_cons_succ, hsingles, List.getElem?_map, Option.map_eq_some_iff] at hy
          obtain ⟨v, -, rfl⟩ := hy
          rfl
        · rw [List.set_cons_zero, hsingles]
          cases holds <;> rfl

/-- A call that has one value is one with known arguments. -/
theorem singles_of_callOutcome {ctx : ModuleContext} {b : Builtin} {xs : List Outcome}
    {y : Outcome} (h : (callOutcome ctx (.builtin b) xs).value = some y) (hy : y.test? = none) :
    ∃ vs : List Value, xs = vs.map .single := by
  rw [callOutcome] at h
  split at h
  · cases h
  · rename_i firsts hsplit
    exact ⟨firsts, splitArguments?_eq_none hsplit⟩
  · simp only [Evaluation.value_bind, Evaluation.value_pure, Option.bind_eq_some_iff,
      Option.some.injEq] at h
    obtain ⟨_, _, _, _, rfl⟩ := h
    cases hy

end ModuleAssets
