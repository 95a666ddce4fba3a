import ModuleAssets.Proofs.Evaluate.LookedAt
/-!
# Evaluation — the guard of an outcome with two values

An expression has two values because of one conditional in its evaluated part,
whose test is not decided. One step of the argument is `Carries`: one operand
carries the test of the outcome, the others are known, and deciding the test
in the operand decides it in the whole. From step to step this leads down to
the conditional itself.
-/

namespace ModuleAssets

open Syntax Syntax.Tree

variable {ctx : ModuleContext} {env : Environment} {span : Span} {t : Tree} {x y : Outcome}
variable {o : List Nat × Tree}

/-! ## Templates -/

namespace GivesText

variable {prior : Outcome} {pieces : List String} {parts : List Tree}

/-- Known expressions change no test, and deciding the test of the text before
them decides it in the whole. -/
theorem decided (h : GivesText ctx env prior pieces parts x)
    (hknown : ∀ i < pieces.length, ∀ t, parts[i]? = some t → IsKnown ctx env t) :
    x.test? = prior.test? ∧
      ∀ holds, GivesText ctx env (prior.decided holds) pieces parts (x.decided holds) := by
  induction parts generalizing prior pieces with
  | nil =>
    rw [nil] at h
    exact ⟨h ▸ rfl, fun holds => nil.2 (h ▸ rfl)⟩
  | cons t rest ih =>
    cases pieces with
    | nil =>
      rw [noPieces] at h
      exact ⟨h ▸ rfl, fun holds => noPieces.2 (h ▸ rfl)⟩
    | cons piece pieces =>
      obtain ⟨hpiece, y, z, hy, hz, h⟩ := cons.1 h
      obtain ⟨v, hv⟩ := hknown 0 (Nat.zero_lt_succ _) t rfl
      obtain rfl := hy.unique hv
      obtain ⟨htest, hdecided⟩ := ih h fun i hi u hu =>
        hknown (i + 1) (Nat.succ_lt_succ hi) u hu
      have hcombines := Outcome.combines_joinPiece? piece
      have hztest : z.test? = prior.test? := by
        obtain ⟨hprior, hztest⟩ | ⟨-, hztest⟩ := hcombines.test? hz
        · rw [hztest, hprior, Outcome.test?]
        · exact hztest
      refine ⟨htest.trans hztest, fun holds => cons.2 ⟨hpiece, _, _, hv, ?_, hdecided holds⟩⟩
      exact hcombines.decided hz holds

/-- Where a template has two values, either the text so far has the test and
the expressions are known, or one of these has it. -/
theorem carries (h : GivesText ctx env prior pieces parts x) {test : Span}
    (hx : x.test? = some test) :
    (prior.test? = some test ∧
        ∀ i < pieces.length, ∀ t, parts[i]? = some t → IsKnown ctx env t) ∨
      (prior.test? = none ∧ ∃ i < pieces.length, ∃ t y, parts[i]? = some t ∧
        Gives ctx env t y ∧ y.test? = some test ∧
        (∀ j < pieces.length, j ≠ i → ∀ u, parts[j]? = some u → IsKnown ctx env u) ∧
        ∀ holds new, Gives ctx env new (y.decided holds) →
          GivesText ctx env prior pieces (parts.set i new) (x.decided holds)) := by
  induction parts generalizing prior pieces with
  | nil =>
    rw [nil] at h
    exact .inl ⟨h ▸ hx, fun i _ t ht => by simp at ht⟩
  | cons t rest ih =>
    cases pieces with
    | nil =>
      rw [noPieces] at h
      exact .inl ⟨h ▸ hx, fun i hi => absurd hi (Nat.not_lt_zero i)⟩
    | cons piece pieces =>
      obtain ⟨hpiece, y, z, hy, hz, h⟩ := cons.1 h
      have hcombines := Outcome.combines_joinPiece? piece
      obtain ⟨hztest, hknown⟩ | ⟨hztest, i, hi, u, w, hu, hw, hwtest, hothers, hset⟩ := ih h
      · obtain ⟨hprior, htest⟩ | ⟨hytest, htest⟩ := hcombines.test? hz
        · refine .inr ⟨hprior, 0, Nat.zero_lt_succ _, t, y, rfl, hy, htest ▸ hztest, ?_, ?_⟩
          · intro j hj hne u hu
            obtain ⟨j, rfl⟩ := Nat.exists_eq_succ_of_ne_zero hne
            exact hknown j (Nat.lt_of_succ_lt_succ hj) u hu
          · intro holds new hnew
            refine cons.2 ⟨hpiece, _, _, hnew, ?_, (h.decided hknown).2 holds⟩
            rw [← hcombines.decided hz holds, Outcome.decided_of_test?_eq_none hprior]
        · exact .inl ⟨htest ▸ hztest, isKnown_cons (isKnown_iff.2 ⟨y, hy, hytest⟩) hknown⟩
      · obtain ⟨hprior, hytest⟩ := hcombines.test?_eq_none hz hztest
        refine .inr ⟨hprior, i + 1, Nat.succ_lt_succ hi, u, w, hu, hw, hwtest, ?_, ?_⟩
        · intro j hj hne u hu
          cases j with
          | zero =>
            rw [List.getElem?_cons_zero, Option.some.injEq] at hu
            exact hu ▸ isKnown_iff.2 ⟨y, hy, hytest⟩
          | succ j => exact hothers j (Nat.lt_of_succ_lt_succ hj) (by omega) u hu
        · intro holds new hnew
          exact cons.2 ⟨hpiece, y, z, hy, hz, hset holds new hnew⟩

end GivesText

/-! ## The operand that carries the test -/

/-- Of the operands that evaluation looks at one has the test of the outcome,
and the others have one value. With the test decided in this operand it is
decided in the whole. -/
structure Carries (ctx : ModuleContext) (env : Environment) (t : Tree) (x : Outcome)
    (o : List Nat × Tree) (y : Outcome) : Prop where
  looked : o ∈ lookedAt ctx env t
  gives : Gives ctx env o.2 y
  test : y.test? = x.test?
  others : ∀ other ∈ lookedAt ctx env t, other.1 ≠ o.1 → IsKnown ctx env other.2
  replace : ∀ holds new, Gives ctx env new (y.decided holds) →
    Gives ctx env (t.replaceAt o.1 new) (x.decided holds)

/-- An expression with one operand and a function of its values. -/
theorem Carries.one {kind : Kind} {a : Tree} {f : Value → Option Value}
    (hlooked : ∀ o, o ∈ lookedAt ctx env (node kind span [a]) ↔ o = ([0], a))
    (hkind : ∀ b y x, Gives ctx env b y → y.map? f = some x → Gives ctx env (node kind span [b]) x)
    (hy : Gives ctx env a y) (hx : y.map? f = some x) :
    Carries ctx env (node kind span [a]) x ([0], a) y where
  looked := (hlooked _).2 rfl
  gives := hy
  test := (Outcome.test?_map? hx).symm
  others other h hne := by
    rw [(hlooked other).1 h] at hne
    exact absurd rfl hne
  replace holds new hnew := hkind new _ _ hnew (Outcome.map?_decided hx holds)

/-- An expression with two operands whose outcomes are combined. -/
theorem Carries.two {kind : Kind} {a b : Tree} {z : Outcome}
    {f : Outcome → Outcome → Option Outcome} (hf : Outcome.Combines f)
    (hlooked : ∀ o, o ∈ lookedAt ctx env (node kind span [a, b]) ↔ o = ([0], a) ∨ o = ([1], b))
    (hkind : ∀ a b y z x, Gives ctx env a y → Gives ctx env b z → f y z = some x →
      Gives ctx env (node kind span [a, b]) x)
    (hy : Gives ctx env a y) (hz : Gives ctx env b z) (hx : f y z = some x) :
    ∃ o w, Carries ctx env (node kind span [a, b]) x o w := by
  obtain ⟨hytest, htest⟩ | ⟨hztest, htest⟩ := hf.test? hx
  · refine ⟨([1], b), z, ⟨(hlooked _).2 (.inr rfl), hz, htest.symm, ?_, ?_⟩⟩
    · intro other h hne
      obtain rfl | rfl := (hlooked other).1 h
      · exact isKnown_iff.2 ⟨y, hy, hytest⟩
      · exact absurd rfl hne
    · intro holds new hnew
      refine hkind a new y _ _ hy hnew ?_
      rw [← hf.decided hx holds, Outcome.decided_of_test?_eq_none hytest]
  · refine ⟨([0], a), y, ⟨(hlooked _).2 (.inl rfl), hy, htest.symm, ?_, ?_⟩⟩
    · intro other h hne
      obtain rfl | rfl := (hlooked other).1 h
      · exact absurd rfl hne
      · exact isKnown_iff.2 ⟨z, hz, hztest⟩
    · intro holds new hnew
      refine hkind new b _ z _ hnew hz ?_
      rw [← hf.decided hx holds, Outcome.decided_of_test?_eq_none hztest]

theorem forall₂_set {α β : Type} {R : α → β → Prop} {as : List α} {bs : List β}
    (h : List.Forall₂ R as bs) (i : Nat) {a : α} {b : β} (hab : R a b) :
    List.Forall₂ R (as.set i a) (bs.set i b) := by
  induction h generalizing i with
  | nil => exact .nil
  | cons hfirst hrest ih =>
    cases i with
    | zero => exact .cons hab hrest
    | succ i => exact .cons hfirst (ih i)

/-- Of the arguments of a call with two values one carries the test. -/
theorem exists_carries_call {parts : List Tree} (h : Gives ctx env (node .call span parts) x)
    (hx : x.test? ≠ none) : ∃ o y, Carries ctx env (node .call span parts) x o y := by
  obtain ⟨callee, arguments, b, xs, rfl, hcallee, hb, hxs, hcall⟩ := Gives.call.1 h
  rw [callOutcome] at hcall
  split at hcall
  · cases hcall
  · simp only [Evaluation.value_bind, Evaluation.value_pure, Option.bind_eq_some_iff,
      Option.some.injEq] at hcall
    obtain ⟨_, _, rfl⟩ := hcall
    exact absurd rfl hx
  · rename_i firsts test seconds hsplit
    simp only [Evaluation.value_bind, Evaluation.value_pure, Option.bind_eq_some_iff,
      Option.some.injEq] at hcall
    obtain ⟨first, hfirst, second, hsecond, rfl⟩ := hcall
    obtain ⟨i, y, hi, hy, hothers, hset⟩ := splitArguments?_eq_some hsplit
    obtain ⟨c, hc, hgives⟩ := exists_of_forall₂ hxs.flip hi
    refine ⟨([i + 1], c), y, ⟨mem_lookedAt.2 ⟨mem_numbered.2 ⟨i + 1, hc, rfl⟩, rfl⟩, hgives, hy,
      ?_, ?_⟩⟩
    · intro other hother hne
      obtain ⟨j, hj, hplace⟩ := mem_numbered.1 (mem_lookedAt.1 hother).1
      cases j with
      | zero =>
        rw [List.getElem?_cons_zero, Option.some.injEq] at hj
        exact hj ▸ ⟨_, hcallee⟩
      | succ j =>
        obtain ⟨z, hz, hzgives⟩ := exists_of_forall₂ hxs hj
        have hji : j ≠ i := fun heq => hne (by rw [hplace, heq])
        exact isKnown_iff.2 ⟨z, hzgives, hothers j z hji hz⟩
    · intro holds new hnew
      have hall := forall₂_set hxs i hnew
      rw [hset holds] at hall
      rw [replaceAt_singleton, List.set_cons_succ]
      refine Gives.call.2 ⟨callee, _, b, _, rfl, hcallee, hb, hall, ?_⟩
      rw [callOutcome, splitArguments?_singles]
      cases holds with
      | true => simp [hfirst, Outcome.decided]
      | false => simp [hsecond, Outcome.decided]

/-- Of the expressions of a template with two values one carries the test. -/
theorem exists_carries_template {pieces : List String} {parts : List Tree}
    (h : Gives ctx env (node (.template pieces) span parts) x) (hx : x.test? ≠ none) :
    ∃ o y, Carries ctx env (node (.template pieces) span parts) x o y := by
  obtain ⟨first, rest, rfl, hfirst, htext⟩ := Gives.template.1 h
  obtain ⟨test, htest⟩ := Option.ne_none_iff_exists'.1 hx
  obtain ⟨hprior, -⟩ | ⟨-, i, hi, t, y, ht, hy, hytest, hothers, hset⟩ := htext.carries htest
  · cases hprior
  · refine ⟨([i], t), y, ⟨mem_lookedAt.2 ⟨mem_numbered_take.2 ⟨i, hi, ht, rfl⟩, rfl⟩, hy,
      hytest.trans htest.symm, ?_, ?_⟩⟩
    · intro other hother hne
      obtain ⟨j, hj, hpart, hplace⟩ := mem_numbered_take.1 (mem_lookedAt.1 hother).1
      have hji : j ≠ i := fun heq => hne (by rw [hplace, heq])
      exact hothers j hj hji other.2 hpart
    · intro holds new hnew
      rw [replaceAt_singleton]
      exact Gives.template.2 ⟨first, rest, rfl, hfirst, hset holds new hnew⟩

/-- Of an operator that goes on to its right operand, this one carries the
test. -/
theorem exists_carries_logical {op : BinaryOp} (hop : op.isLogical) {parts : List Tree}
    (h : Gives ctx env (node (.binary op) span parts) x) (hx : x.test? ≠ none) :
    ∃ o y, Carries ctx env (node (.binary op) span parts) x o y := by
  obtain ⟨left, right, v, rfl, hleft, hright⟩ := (Gives.logical hop).1 h
  by_cases hends : v.endsAtLeft op
  · rw [if_pos hends] at hright
    exact absurd (hright ▸ rfl) hx
  · rw [if_neg hends] at hright
    refine ⟨([1], right), x, ⟨mem_lookedAt.2 ⟨mem_numbered_two.2 (.inr rfl), ?_⟩, hright, rfl,
      ?_, ?_⟩⟩
    · rw [skips_binary hleft, Bool.eq_false_iff.2 hends, Bool.and_false, Bool.false_and]
    · intro other hother hne
      obtain rfl | rfl := mem_numbered_two.1 (mem_lookedAt.1 hother).1
      · exact ⟨v, hleft⟩
      · exact absurd rfl hne
    · intro holds new hnew
      refine (Gives.logical hop).2 ⟨left, new, v, rfl, hleft, ?_⟩
      rwa [if_neg hends]

/-- Of a decided conditional the chosen arm carries the test. -/
theorem exists_carries_conditional {a b : Tree} {v : Value} (hv : Gives ctx env t (.single v))
    (h : Gives ctx env (if v.truthy then a else b) x) :
    ∃ o y, Carries ctx env (node .conditional span [t, a, b]) x o y := by
  by_cases htruthy : v.truthy
  · rw [if_pos htruthy] at h
    refine ⟨([1], a), x, ⟨mem_lookedAt.2 ⟨mem_numbered_three.2 (.inr (.inl rfl)), ?_⟩, h, rfl,
      ?_, ?_⟩⟩
    · rw [skips_conditional hv, if_pos htruthy]
      rfl
    · intro other hother hne
      obtain ⟨hother, hskip⟩ := mem_lookedAt.1 hother
      rw [skips_conditional hv, if_pos htruthy] at hskip
      obtain rfl | rfl | rfl := mem_numbered_three.1 hother
      · exact ⟨v, hv⟩
      · exact absurd rfl hne
      · cases hskip
    · intro holds new hnew
      refine Gives.conditional.2 ⟨t, new, b, rfl, .inl ⟨v, hv, ?_⟩⟩
      rwa [if_pos htruthy]
  · rw [if_neg htruthy] at h
    refine ⟨([2], b), x, ⟨mem_lookedAt.2 ⟨mem_numbered_three.2 (.inr (.inr rfl)), ?_⟩, h, rfl,
      ?_, ?_⟩⟩
    · rw [skips_conditional hv, if_neg htruthy]
      rfl
    · intro other hother hne
      obtain ⟨hother, hskip⟩ := mem_lookedAt.1 hother
      rw [skips_conditional hv, if_neg htruthy] at hskip
      obtain rfl | rfl | rfl := mem_numbered_three.1 hother
      · exact ⟨v, hv⟩
      · cases hskip
      · exact absurd rfl hne
    · intro holds new hnew
      refine Gives.conditional.2 ⟨t, a, new, rfl, .inl ⟨v, hv, ?_⟩⟩
      rwa [if_neg htruthy]

/-- **One step.** Of an expression with two values one operand carries the
test, unless it is a conditional that is not decided. -/
theorem exists_carries (h : Gives ctx env t x) (hx : x.test? ≠ none)
    (hdecided : ∀ span guard a b, t = node .conditional span [guard, a, b] →
      IsKnown ctx env guard) : ∃ o y, Carries ctx env t x o y := by
  obtain ⟨kind, span, parts⟩ := t
  cases kind with
  | conditional =>
    obtain ⟨guard, a, b, rfl, ⟨v, hv, hchosen⟩ | ⟨hopen, -⟩⟩ := Gives.conditional.1 h
    · exact exists_carries_conditional hv hchosen
    · obtain ⟨v, hv⟩ := hdecided span guard a b rfl
      exact absurd hv (hopen v)
  | paren =>
    obtain ⟨inner, rfl, hinner⟩ := Gives.paren.1 h
    have hlooked : ∀ o, o ∈ lookedAt ctx env (node .paren span [inner]) ↔ o = ([0], inner) :=
      fun o => by simp [mem_lookedAt, operands, mem_numbered_one, skips]
    refine ⟨_, x, (hlooked _).2 rfl, hinner, rfl, fun other hother hne => ?_,
      fun holds new hnew => Gives.paren.2 ⟨new, rfl, hnew⟩⟩
    exact absurd ((hlooked other).1 hother ▸ rfl) hne
  | member name =>
    obtain ⟨object, y, rfl, hy, hmap⟩ := Gives.member.1 h
    refine ⟨_, y, .one (fun o => ?_) (fun b y x hb hx => ?_) hy hmap⟩
    · simp [mem_lookedAt, operands, mem_numbered_one, skips]
    · exact Gives.member.2 ⟨b, y, rfl, hb, hx⟩
  | hiddenMember name => exact absurd h Gives.not_hiddenMember
  | computedMember =>
    obtain ⟨object, key, y, z, rfl, hy, hz, hzip⟩ := Gives.computedMember.1 h
    have hcombines := (Outcome.combines_zip? fun o k => k.text?.bind o.member?).map?_bind
      fun k => k.toText?.map .text
    refine Carries.two hcombines (fun o => ?_) (fun a b y z x ha hb hx => ?_) hy hz hzip
    · simp [mem_lookedAt, operands, mem_numbered_two, skips]
    · exact Gives.computedMember.2 ⟨a, b, y, z, rfl, ha, hb, hx⟩
  | binary op =>
    by_cases hop : op.isLogical
    · exact exists_carries_logical hop h hx
    · obtain ⟨left, right, y, z, rfl, hy, hz, hzip⟩ := (Gives.binary hop).1 h
      refine Carries.two (Outcome.combines_zip? _) (fun o => ?_) (fun a b y z x ha hb hx => ?_) hy
        hz hzip
      · simp [mem_lookedAt, operands, mem_numbered_two, skips_binary_of_not_isLogical hop]
      · exact (Gives.binary hop).2 ⟨a, b, y, z, rfl, ha, hb, hx⟩
  | unary op =>
    by_cases hop : op = .void
    · subst hop
      obtain ⟨operand, -, rfl⟩ := Gives.void.1 h
      exact absurd rfl hx
    · obtain ⟨operand, y, rfl, hy, hmap⟩ := (Gives.unary hop).1 h
      refine ⟨_, y, .one (fun o => ?_) (fun b y x hb hx => ?_) hy hmap⟩
      · simp [mem_lookedAt, operands, hop, mem_numbered_one, skips]
      · exact (Gives.unary hop).2 ⟨b, y, rfl, hb, hx⟩
  | call => exact exists_carries_call h hx
  | template pieces => exact exists_carries_template h hx
  | array =>
    obtain ⟨vs, -, rfl⟩ := Gives.array.1 h
    exact absurd rfl hx
  | object =>
    obtain ⟨fields, -, rfl⟩ := Gives.object.1 h
    exact absurd rfl hx
  | text value =>
    simp only [Gives, evaluate, Evaluation.value_ofOption, Option.map_eq_some_iff] at h
    obtain ⟨t, -, rfl⟩ := h
    exact absurd rfl hx
  | identifier name =>
    simp only [Gives, evaluate, Evaluation.value_bind, Option.bind_eq_some_iff] at h
    obtain ⟨v, -, hv⟩ := h
    cases hv
    exact absurd rfl hx
  | number _ | boolean _ | null =>
    simp only [Gives, evaluate, Evaluation.value_pure, Option.some.injEq] at h
    exact absurd (h ▸ rfl) hx
  | _ => simp [Gives, evaluate] at h

/-! ## The guard of the whole -/

/-- The literal that stands for a test which holds or fails. -/
def literal (holds : Bool) (span : Span) : Tree :=
  node (.boolean holds) span []

theorem gives_literal (holds : Bool) (span : Span) :
    Gives ctx env (literal holds span) (.single (.bool holds)) := by
  simp [Gives, literal, evaluate]

/-- Of the conditionals that evaluation comes to, all are decided but the one
at `path` and those in its test. -/
def Alone (ctx : ModuleContext) (env : Environment) (e : Tree) (path : List Nat) : Prop :=
  ∀ q span t a b, Reaches (lookedAt ctx env) e q (node .conditional span [t, a, b]) →
    q = path ∨ IsKnown ctx env t ∨ path ++ [0] <+: q

theorem alone_of_arms {guard a b : Tree} (ha : IsKnown ctx env a) (hb : IsKnown ctx env b) :
    Alone ctx env (node .conditional span [guard, a, b]) [] := by
  intro q span' t a' b' hq
  cases hq with
  | self => exact .inl rfl
  | further ho hq =>
    obtain rfl | rfl | rfl := mem_numbered_three.1 (mem_lookedAt.1 ho).1
    · exact .inr (.inr (List.prefix_append _ _))
    · exact .inr (.inl (ha.decided hq))
    · exact .inr (.inl (hb.decided hq))

theorem Carries.alone (hcarries : Carries ctx env t x o y) {path : List Nat}
    (hdecided : ∀ span guard a b, t = node .conditional span [guard, a, b] →
      IsKnown ctx env guard) (h : Alone ctx env o.2 path) : Alone ctx env t (o.1 ++ path) := by
  intro q span' guard a b hq
  cases hq with
  | self => exact .inr (.inl (hdecided _ _ _ _ rfl))
  | @further _ _ other q ho hq =>
    by_cases hplace : other.1 = o.1
    · obtain rfl := eq_of_mem_operands (lookedAt_subset _ ho) (lookedAt_subset _ hcarries.looked)
        hplace
      -- below the operand that carries the test all is as before
      obtain rfl | hknown | hprefix := h q _ _ _ _ hq
      · exact .inl rfl
      · exact .inr (.inl hknown)
      · rw [List.append_assoc]
        exact .inr (.inr ((List.prefix_append_right_inj _).2 hprefix))
    · exact .inr (.inl ((hcarries.others other ho hplace).decided hq))

/-- What has two values has one guard, and deciding it decides the whole. -/
theorem exists_guard (e : Tree) {x : Outcome} (h : Gives ctx env e x) {test : Span}
    (hx : x.test? = some test) :
    ∃ path span guard a b,
      Reaches (lookedAt ctx env) e path (node .conditional span [guard, a, b]) ∧
        guard.span = test ∧ ¬ IsKnown ctx env guard ∧ Alone ctx env e path ∧
        ∀ holds, Gives ctx env (e.replaceAt (path ++ [0]) (literal holds test))
          (x.decided holds) := by
  by_cases hopen : ∃ span guard a b,
      e = node .conditional span [guard, a, b] ∧ ¬ IsKnown ctx env guard
  · -- the expression is the conditional itself
    obtain ⟨span, guard, a, b, rfl, hguard⟩ := hopen
    obtain ⟨_, _, _, hparts, ⟨v, hv, -⟩ | ⟨-, v, w, ha, hb, rfl⟩⟩ := Gives.conditional.1 h
    · simp only [List.cons.injEq] at hparts
      obtain ⟨rfl, -⟩ := hparts
      exact absurd ⟨v, hv⟩ hguard
    · simp only [List.cons.injEq] at hparts
      obtain ⟨rfl, rfl, rfl, -⟩ := hparts
      refine ⟨[], span, guard, a, b, .self _, Option.some.inj hx, hguard,
        alone_of_arms ⟨v, ha⟩ ⟨w, hb⟩, fun holds => ?_⟩
      refine Gives.conditional.2 ⟨_, a, b, rfl, .inl ⟨.bool holds, gives_literal holds test, ?_⟩⟩
      cases holds with
      | true => exact ha
      | false => exact hb
  · -- one operand carries the test, and the conditional is found below it
    have hdecided : ∀ span guard a b, e = node .conditional span [guard, a, b] →
        IsKnown ctx env guard := fun span guard a b he =>
      not_not.1 fun hguard => hopen ⟨span, guard, a, b, he, hguard⟩
    obtain ⟨o, y, hcarries⟩ := exists_carries h (by simp [hx]) hdecided
    obtain ⟨hplace, -⟩ := partAt?_of_mem_operands (lookedAt_subset _ hcarries.looked)
    have hsize := sizeOf_of_mem_operands (lookedAt_subset _ hcarries.looked)
    obtain ⟨path, span, guard, a, b, hreach, hspan, hguard, halone, hdecide⟩ :=
      exists_guard o.2 hcarries.gives (hcarries.test.trans hx)
    refine ⟨o.1 ++ path, span, guard, a, b, .further hcarries.looked hreach, hspan, hguard,
      hcarries.alone hdecided halone, fun holds => ?_⟩
    rw [List.append_assoc, replaceAt_append hplace]
    exact hcarries.replace holds _ (hdecide holds)
termination_by sizeOf e

/-- Where an expression splits into two values: the place of a conditional and
its test. -/
structure SplitsAt (ctx : ModuleContext) (env : Environment) (e : Tree) (test : Span)
    (first second : Value) (path : List Nat) (guard : Tree) : Prop where
  /-- Evaluation comes to the conditional. -/
  conditional : ∃ span a b,
    Reaches (lookedAt ctx env) e path (node .conditional span [guard, a, b])
  /-- The test is the first part of the conditional. -/
  place : e.partAt? (path ++ [0]) = some guard
  span : guard.span = test
  undecided : ¬ IsKnown ctx env guard
  /-- Any other conditional that evaluation comes to is decided, or belongs to
  the test itself. -/
  alone : Alone ctx env e path
  /-- No other conditional that evaluation comes to has a test with this span. -/
  unique : e.SpansNest → ∀ q span t a b,
    Reaches (lookedAt ctx env) e q (node .conditional span [t, a, b]) → t.span = test → q = path
  /-- With a test that is true, the expression has the first value. -/
  holds : (evaluate ctx env (e.replaceAt (path ++ [0]) (literal true test))).value =
    some (.single first)
  /-- With a test that is false, it has the second. -/
  fails : (evaluate ctx env (e.replaceAt (path ++ [0]) (literal false test))).value =
    some (.single second)

/-- **Two values are a case split on one guard.** -/
theorem exists_splitsAt {e : Tree} {test : Span} {first second : Value}
    (h : (evaluate ctx env e).value = some (.either test first second)) :
    ∃ path guard, SplitsAt ctx env e test first second path guard := by
  obtain ⟨path, span, guard, a, b, hreach, hspan, hguard, halone, hdecide⟩ := exists_guard e h rfl
  have hoperands := hreach.mono lookedAt_subset
  refine ⟨path, guard, ⟨⟨span, a, b, hreach⟩, ?_, hspan, hguard, halone, ?_, hdecide true,
    hdecide false⟩⟩
  · rw [partAt?_append, hoperands.partAt?_eq]
    rfl
  · intro hnest q span' t a' b' hq ht
    exact hnest.place_eq (hq.mono lookedAt_subset) hoperands (ht.trans hspan.symm)

/-- A name that may be anything chooses the middle of a template. -/
def openTemplate : Tree :=
  node (.template ["x", "y"]) ⟨0, 20⟩
    [node .conditional ⟨4, 17⟩
      [node (.identifier "c") ⟨4, 5⟩ [], node (.text (some "a")) ⟨8, 11⟩ [],
        node (.text (some "b")) ⟨14, 17⟩ []]]

theorem spansNest_openTemplate : openTemplate.SpansNest := by
  have hleaf : ∀ t : Tree, t.operands = [] → t.SpansNest := fun t ht =>
    .intro (by simp [ht]) (by simp [ht]) (by simp [ht]) (by simp [ht])
  refine .intro (by decide) (by decide) (by decide) fun o ho => ?_
  obtain rfl := mem_numbered_one.1 ho
  refine .intro (by decide) (by decide) (by decide) fun o ho => ?_
  obtain rfl | rfl | rfl := mem_numbered_three.1 ho <;> exact hleaf _ rfl

theorem exists_splitsAt_openTemplate :
    (evaluate ⟨"/m.js", "/", none, none, .default, .empty⟩ .empty openTemplate).value =
        some (.either ⟨4, 5⟩ (.text "xay") (.text "xby")) ∧
      openTemplate.SpansNest ∧
      ∃ path guard, SplitsAt ⟨"/m.js", "/", none, none, .default, .empty⟩ .empty openTemplate
        ⟨4, 5⟩ (.text "xay") (.text "xby") path guard :=
  ⟨rfl, spansNest_openTemplate, exists_splitsAt rfl⟩

end ModuleAssets
