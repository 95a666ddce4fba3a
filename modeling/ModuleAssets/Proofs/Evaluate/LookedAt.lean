import ModuleAssets.Proofs.Evaluate.Outcomes
import ModuleAssets.Proofs.Syntax.Place
/-!
# Evaluation — the operands that are looked at

`lookedAt` lists the operands of an expression that evaluation looks at, and
what is reached by these is the evaluated part of the expression. A value that
is known rests on known values only, so that every conditional in the
evaluated part is decided.
-/

namespace ModuleAssets

open Syntax Syntax.Tree

section

variable (ctx : ModuleContext) (env : Environment)

/-- The operand at a place is left out. It is the arm that a decided test
rules out, or the right operand of an operator that ends at its left one. -/
def skips : Tree → List Nat → Bool
  | node .conditional _ [test, _, _], place =>
    match (evaluate ctx env test).value with
    | some (.single v) => place == if v.truthy then [2] else [1]
    | _ => false
  | node (.binary op) _ [left, _], place =>
    match (evaluate ctx env left).value with
    | some (.single v) => op.isLogical && v.endsAtLeft op && place == [1]
    | _ => false
  | _, _ => false

/-- The operands that evaluation looks at. Those that follow where it gives up
are among them. -/
def lookedAt (t : Tree) : List (List Nat × Tree) :=
  t.operands.filter fun o => !skips ctx env t o.1

end

variable {ctx : ModuleContext} {env : Environment} {span : Span} {t : Tree} {x y : Outcome}
variable {o : List Nat × Tree}

theorem mem_lookedAt : o ∈ lookedAt ctx env t ↔ o ∈ t.operands ∧ skips ctx env t o.1 = false := by
  rw [lookedAt, List.mem_filter, Bool.not_eq_true']

theorem lookedAt_subset (t : Tree) : lookedAt ctx env t ⊆ t.operands :=
  fun _ ho => (mem_lookedAt.1 ho).1

theorem isKnown_iff : IsKnown ctx env t ↔ ∃ x, Gives ctx env t x ∧ x.test? = none := by
  constructor
  · rintro ⟨v, hv⟩
    exact ⟨_, hv, rfl⟩
  · rintro ⟨x, hx, htest⟩
    obtain ⟨v, rfl⟩ := Outcome.test?_eq_none.1 htest
    exact ⟨v, hx⟩

theorem skips_conditional {v : Value} {a b : Tree} (h : Gives ctx env t (.single v))
    (place : List Nat) : skips ctx env (node .conditional span [t, a, b]) place =
      (place == if v.truthy then [2] else [1]) := by
  rw [Gives] at h
  simp only [skips, h]

theorem skips_conditional_of_not_isKnown {a b : Tree} (h : ¬ IsKnown ctx env t)
    (place : List Nat) : skips ctx env (node .conditional span [t, a, b]) place = false := by
  simp only [skips]
  split
  · rename_i v hv
    exact absurd ⟨v, hv⟩ h
  · rfl

theorem skips_binary {op : BinaryOp} {v : Value} {a : Tree} (h : Gives ctx env t (.single v))
    (place : List Nat) : skips ctx env (node (.binary op) span [t, a]) place =
      (op.isLogical && v.endsAtLeft op && place == [1]) := by
  rw [Gives] at h
  simp only [skips, h]

theorem skips_binary_of_not_isLogical {op : BinaryOp} {a : Tree} (h : ¬ op.isLogical)
    (place : List Nat) : skips ctx env (node (.binary op) span [t, a]) place = false := by
  rw [Bool.not_eq_true] at h
  simp only [skips, h, Bool.false_and]
  split <;> rfl

/-- The test of a conditional is always looked at. -/
theorem test_mem_lookedAt {a b : Tree} :
    ([0], t) ∈ lookedAt ctx env (node .conditional span [t, a, b]) := by
  refine mem_lookedAt.2 ⟨mem_numbered_three.2 (.inl rfl), ?_⟩
  by_cases h : IsKnown ctx env t
  · obtain ⟨v, hv⟩ := h
    rw [skips_conditional hv]
    split <;> rfl
  · exact skips_conditional_of_not_isKnown h _

/-! ## What a known value rests on -/

theorem isKnown_of_map? {f : Value → Option Value} (hy : Gives ctx env t y)
    (hmap : y.map? f = some x) (hx : x.test? = none) : IsKnown ctx env t :=
  isKnown_iff.2 ⟨y, hy, (Outcome.test?_map? hmap).symm.trans hx⟩

theorem isKnown_of_combines {f : Outcome → Outcome → Option Outcome} (hf : Outcome.Combines f)
    {a b : Tree} {z : Outcome} (hy : Gives ctx env a y) (hz : Gives ctx env b z)
    (hcombined : f y z = some x) (hx : x.test? = none) :
    IsKnown ctx env a ∧ IsKnown ctx env b := by
  obtain ⟨hytest, hztest⟩ := hf.test?_eq_none hcombined hx
  exact ⟨isKnown_iff.2 ⟨y, hy, hytest⟩, isKnown_iff.2 ⟨z, hz, hztest⟩⟩

theorem isKnown_cons {parts : List Tree} {n : Nat} (h : IsKnown ctx env t)
    (hrest : ∀ i < n, ∀ u, parts[i]? = some u → IsKnown ctx env u) :
    ∀ i < n + 1, ∀ u, (t :: parts)[i]? = some u → IsKnown ctx env u := by
  intro i hi u hu
  cases i with
  | zero =>
    rw [List.getElem?_cons_zero, Option.some.injEq] at hu
    exact hu ▸ h
  | succ i => exact hrest i (Nat.lt_of_succ_lt_succ hi) u hu

namespace GivesText

variable {prior : Outcome} {pieces : List String} {parts : List Tree}

/-- A template with one value has looked at known expressions. -/
theorem isKnown (h : GivesText ctx env prior pieces parts x) (hx : x.test? = none) :
    prior.test? = none ∧ ∀ i < pieces.length, ∀ t, parts[i]? = some t → IsKnown ctx env t := by
  induction parts generalizing prior pieces with
  | nil =>
    rw [nil] at h
    exact ⟨h ▸ hx, fun i _ t ht => by simp at ht⟩
  | cons t rest ih =>
    cases pieces with
    | nil =>
      rw [noPieces] at h
      exact ⟨h ▸ hx, fun i hi => absurd hi (Nat.not_lt_zero i)⟩
    | cons piece pieces =>
      obtain ⟨-, y, z, hy, hz, h⟩ := cons.1 h
      obtain ⟨hztest, hrest⟩ := ih h
      obtain ⟨hprior, hytest⟩ := (Outcome.combines_joinPiece? piece).test?_eq_none hz hztest
      exact ⟨hprior, isKnown_cons (isKnown_iff.2 ⟨y, hy, hytest⟩) hrest⟩

end GivesText

theorem exists_of_forall₂ {α β : Type} {R : α → β → Prop} {as : List α} {bs : List β}
    (h : List.Forall₂ R as bs) {i : Nat} {a : α} (ha : as[i]? = some a) :
    ∃ b, bs[i]? = some b ∧ R a b := by
  induction h generalizing i with
  | nil => simp at ha
  | cons hab _ ih =>
    cases i with
    | zero =>
      rw [List.getElem?_cons_zero, Option.some.injEq] at ha
      exact ⟨_, rfl, ha ▸ hab⟩
    | succ i => exact ih ha

/-- **A known value rests on known operands.** -/
theorem isKnown_of_mem_lookedAt (h : IsKnown ctx env t) (ho : o ∈ lookedAt ctx env t) :
    IsKnown ctx env o.2 := by
  obtain ⟨kind, span, parts⟩ := t
  obtain ⟨v, hv⟩ := h
  obtain ⟨ho, hskip⟩ := mem_lookedAt.1 ho
  cases kind with
  | paren =>
    obtain ⟨inner, rfl, hinner⟩ := Gives.paren.1 hv
    obtain rfl := mem_numbered_one.1 ho
    exact ⟨v, hinner⟩
  | member name =>
    obtain ⟨object, y, rfl, hy, hmap⟩ := Gives.member.1 hv
    obtain rfl := mem_numbered_one.1 ho
    exact isKnown_of_map? hy hmap rfl
  | hiddenMember name => exact absurd hv Gives.not_hiddenMember
  | computedMember =>
    obtain ⟨object, key, y, z, rfl, hy, hz, hzip⟩ := Gives.computedMember.1 hv
    obtain ⟨hobject, hkey⟩ :=
      isKnown_of_combines ((Outcome.combines_zip? _).map?_bind _) hy hz hzip rfl
    obtain rfl | rfl := mem_numbered_two.1 ho
    · exact hobject
    · exact hkey
  | binary op =>
    by_cases hop : op.isLogical
    · obtain ⟨left, right, w, rfl, hleft, hright⟩ := (Gives.logical hop).1 hv
      rw [skips_binary hleft] at hskip
      obtain rfl | rfl := mem_numbered_two.1 ho
      · exact ⟨w, hleft⟩
      · simp only [hop, Bool.true_and, beq_self_eq_true, Bool.and_true] at hskip
        rw [hskip, if_neg Bool.false_ne_true] at hright
        exact ⟨v, hright⟩
    · obtain ⟨left, right, y, z, rfl, hy, hz, hzip⟩ := (Gives.binary hop).1 hv
      obtain ⟨hleft, hright⟩ := isKnown_of_combines (Outcome.combines_zip? _) hy hz hzip rfl
      obtain rfl | rfl := mem_numbered_two.1 ho
      · exact hleft
      · exact hright
  | unary op =>
    rw [operands] at ho
    by_cases hop : op = .void
    · rw [if_pos hop] at ho
      cases ho
    · obtain ⟨operand, y, rfl, hy, hmap⟩ := (Gives.unary hop).1 hv
      rw [if_neg hop] at ho
      obtain rfl := mem_numbered_one.1 ho
      exact isKnown_of_map? hy hmap rfl
  | conditional =>
    obtain ⟨test, a, b, rfl, ⟨w, hw, hchosen⟩ | ⟨-, _, _, -, -, hx⟩⟩ := Gives.conditional.1 hv
    · rw [skips_conditional hw] at hskip
      obtain rfl | rfl | rfl := mem_numbered_three.1 ho
      · exact ⟨w, hw⟩
      · by_cases htruthy : w.truthy
        · rw [if_pos htruthy] at hchosen
          exact ⟨v, hchosen⟩
        · simp [htruthy] at hskip
      · by_cases htruthy : w.truthy
        · simp [htruthy] at hskip
        · rw [if_neg htruthy] at hchosen
          exact ⟨v, hchosen⟩
    · cases hx
  | call =>
    obtain ⟨callee, arguments, b, xs, rfl, hcallee, -, hxs, hcall⟩ := Gives.call.1 hv
    obtain ⟨i, hi, -⟩ := mem_numbered.1 ho
    cases i with
    | zero =>
      rw [List.getElem?_cons_zero, Option.some.injEq] at hi
      exact hi ▸ ⟨_, hcallee⟩
    | succ i =>
      obtain ⟨y, hy, hgives⟩ := exists_of_forall₂ hxs hi
      -- the value is known, so no argument had two
      obtain ⟨vs, rfl⟩ := singles_of_callOutcome hcall rfl
      obtain ⟨w, -, rfl⟩ := List.mem_map.1 (List.mem_of_getElem? hy)
      exact ⟨w, hgives⟩
  | template pieces =>
    obtain ⟨first, rest, rfl, -, htext⟩ := Gives.template.1 hv
    obtain ⟨i, hi, hpart, -⟩ := mem_numbered_take.1 ho
    exact (htext.isKnown rfl).2 i hi o.2 hpart
  | array =>
    obtain ⟨vs, hvs, -⟩ := Gives.array.1 hv
    obtain ⟨i, hi, -⟩ := mem_numbered.1 ho
    obtain ⟨w, -, hw⟩ := exists_of_forall₂ hvs hi
    exact ⟨w, hw⟩
  | object =>
    obtain ⟨fields, hfields, -⟩ := Gives.object.1 hv
    obtain ⟨i, key, inner, hi, -⟩ := mem_numberedValues.1 ho
    exact isKnown_of_members hfields (List.mem_of_getElem? hi)
  | _ => cases ho

/-- What a known value rests on is known, down to the last operand. -/
theorem isKnown_of_reaches {sub : Tree} {p : List Nat} (h : IsKnown ctx env t)
    (hsub : Reaches (lookedAt ctx env) t p sub) : IsKnown ctx env sub := by
  induction hsub with
  | self t => exact h
  | further ho _ ih => exact ih (isKnown_of_mem_lookedAt h ho)

/-- Below a known operand all conditionals are decided. -/
theorem IsKnown.decided (h : IsKnown ctx env t) {q : List Nat} {guard a b : Tree}
    (hq : Reaches (lookedAt ctx env) t q (node .conditional span [guard, a, b])) :
    IsKnown ctx env guard :=
  isKnown_of_mem_lookedAt (isKnown_of_reaches h hq) test_mem_lookedAt

end ModuleAssets
