import ModuleAssets.Proofs.Environment.Knowledge
import ModuleAssets.Proofs.Evaluate.Outcomes
/-!
# Evaluation — knowing more keeps what is known

An environment may know of more names than another. An expression that has a
value by the smaller one has the same value by the greater one. Of two values
the greater environment may tell which it is, if it decides the test.
-/

namespace ModuleAssets

open Syntax Syntax.Tree

/-! ## Outcomes -/

namespace Outcome

variable {x y z x' y' : Outcome}

/-- The second outcome is the first, or what is left of it with its test
decided. -/
def Narrows (x y : Outcome) : Prop :=
  y = x ∨ ∃ holds, y = x.decided holds

theorem Narrows.refl (x : Outcome) : x.Narrows x := .inl rfl

theorem Narrows.eq (h : x.Narrows y) (hx : x.test? = none) : y = x := by
  obtain rfl | ⟨holds, rfl⟩ := h
  · rfl
  · exact decided_of_test?_eq_none hx holds

theorem Narrows.map? {f : Value → Option Value} (hx : x.Narrows x') (h : x.map? f = some z) :
    ∃ z', x'.map? f = some z' ∧ z.Narrows z' := by
  obtain rfl | ⟨holds, rfl⟩ := hx
  · exact ⟨z, h, .refl z⟩
  · exact ⟨_, map?_decided h holds, .inr ⟨holds, rfl⟩⟩

/-- At most one of the parts has a test, so that deciding it decides the test
of the whole. -/
theorem Combines.narrows {f : Outcome → Outcome → Option Outcome} (hf : Combines f)
    (hx : x.Narrows x') (hy : y.Narrows y') (h : f x y = some z) :
    ∃ z', f x' y' = some z' ∧ z.Narrows z' := by
  obtain ⟨hnone, -⟩ | ⟨hnone, -⟩ := hf.test? h
  · obtain rfl := hx.eq hnone
    obtain rfl | ⟨holds, rfl⟩ := hy
    · exact ⟨z, h, .refl z⟩
    · refine ⟨_, ?_, .inr ⟨holds, rfl⟩⟩
      rw [← hf.decided h holds, decided_of_test?_eq_none hnone]
  · obtain rfl := hy.eq hnone
    obtain rfl | ⟨holds, rfl⟩ := hx
    · exact ⟨z, h, .refl z⟩
    · refine ⟨_, ?_, .inr ⟨holds, rfl⟩⟩
      rw [← hf.decided h holds, decided_of_test?_eq_none hnone]

theorem singles_of_narrows {vs : List Value} {ys : List Outcome}
    (h : List.Forall₂ Narrows (vs.map single) ys) : ys = vs.map single := by
  induction vs generalizing ys with
  | nil => cases h; rfl
  | cons v vs ih =>
    obtain ⟨y, rest, hy, hrest, rfl⟩ := List.forall₂_cons_left_iff.1 h
    rw [hy.eq rfl, ih hrest, List.map_cons]

end Outcome

/-- Where the arguments can be split, deciding the test leaves those of one of
the two calls. -/
theorem narrows_of_splitArguments? {xs ys : List Outcome} {firsts seconds : List Value}
    {test : Span} (h : splitArguments? xs = some (firsts, some (test, seconds)))
    (hys : List.Forall₂ Outcome.Narrows xs ys) :
    ys = xs ∨ ∃ holds : Bool, ys = (if holds then firsts else seconds).map .single := by
  induction xs generalizing ys firsts seconds with
  | nil => simp [splitArguments?] at h
  | cons x rest ih =>
    obtain ⟨y, rest', hy, hrest', rfl⟩ := List.forall₂_cons_left_iff.1 hys
    cases x with
    | single v =>
      rw [splitArguments?, Option.map_eq_some_iff] at h
      obtain ⟨⟨firsts', other⟩, hrest, h⟩ := h
      rw [Prod.mk.injEq, Option.map_eq_some_iff] at h
      obtain ⟨rfl, ⟨test', seconds'⟩, rfl, h⟩ := h
      rw [Prod.mk.injEq] at h
      obtain ⟨rfl, rfl⟩ := h
      rw [hy.eq rfl]
      obtain rfl | ⟨holds, rfl⟩ := ih hrest hrest'
      · exact .inl rfl
      · refine .inr ⟨holds, ?_⟩
        cases holds <;> rfl
    | either test' a b =>
      rw [splitArguments?, Option.bind_eq_some_iff] at h
      obtain ⟨⟨firsts', other⟩, hrest, h⟩ := h
      cases other with
      | some => cases h
      | none =>
        simp only [Option.some.injEq, Prod.mk.injEq] at h
        obtain ⟨rfl, rfl, rfl⟩ := h
        obtain rfl := splitArguments?_eq_none hrest
        obtain rfl := Outcome.singles_of_narrows hrest'
        obtain rfl | ⟨holds, rfl⟩ := hy
        · exact .inl rfl
        · refine .inr ⟨holds, ?_⟩
          cases holds <;> rfl

theorem narrows_callOutcome {ctx : ModuleContext} {b : Builtin} {xs ys : List Outcome}
    {z : Outcome} (hys : List.Forall₂ Outcome.Narrows xs ys)
    (h : (callOutcome ctx (.builtin b) xs).value = some z) :
    ∃ z', (callOutcome ctx (.builtin b) ys).value = some z' ∧ z.Narrows z' := by
  have hcall := h
  rw [callOutcome] at h
  split at h
  · cases h
  · rename_i firsts hsplit
    obtain rfl := splitArguments?_eq_none hsplit
    obtain rfl := Outcome.singles_of_narrows hys
    exact ⟨z, hcall, .refl z⟩
  · rename_i firsts test seconds hsplit
    obtain rfl | ⟨holds, rfl⟩ := narrows_of_splitArguments? hsplit hys
    · exact ⟨z, hcall, .refl z⟩
    · simp only [Evaluation.value_bind, Evaluation.value_pure, Option.bind_eq_some_iff,
        Option.some.injEq] at h
      obtain ⟨a, ha, c, hc, rfl⟩ := h
      refine ⟨.single (if holds then a else c), ?_, .inr ⟨holds, rfl⟩⟩
      rw [callOutcome, splitArguments?_singles]
      cases holds with
      | true => simp [ha]
      | false => simp [hc]

/-! ## Expressions -/

section

variable {ctx : ModuleContext} {ρ σ : Environment} {x : Outcome}

/-- What an expression gives by the first environment it gives by the second,
narrowed if that decides its test. -/
def Kept (ctx : ModuleContext) (ρ σ : Environment) (t : Tree) : Prop :=
  ∀ x, Gives ctx ρ t x → ∃ y, Gives ctx σ t y ∧ x.Narrows y

theorem Kept.single {t : Tree} (h : Kept ctx ρ σ t) {v : Value} (hv : Gives ctx ρ t (.single v)) :
    Gives ctx σ t (.single v) := by
  obtain ⟨y, hy, hnarrows⟩ := h _ hv
  rwa [hnarrows.eq rfl] at hy

theorem ofName_of_knownBy (h : ρ.KnownBy σ) {name : String} {v : Value}
    (hv : (Evaluation.ofName ρ name).value = some v) :
    (Evaluation.ofName σ name).value = some v := by
  have hlookup : ρ.lookup? name = some v := by
    rw [Evaluation.ofName] at hv
    split at hv
    · rename_i w hw
      rw [hw]
      exact hv
    · cases hv
  rw [Evaluation.ofName, h name v hlookup]

theorem forall₂_of_kept {parts : List Tree} (hparts : ∀ part ∈ parts, Kept ctx ρ σ part)
    {xs : List Outcome} (h : List.Forall₂ (Gives ctx ρ) parts xs) :
    ∃ ys, List.Forall₂ (Gives ctx σ) parts ys ∧ List.Forall₂ Outcome.Narrows xs ys := by
  induction h with
  | nil => exact ⟨[], .nil, .nil⟩
  | cons hx _ ih =>
    obtain ⟨ys, hys, hnarrows⟩ := ih fun part hpart => hparts part (List.mem_cons_of_mem _ hpart)
    obtain ⟨y, hy, hxy⟩ := hparts _ List.mem_cons_self _ hx
    exact ⟨y :: ys, .cons hy hys, .cons hxy hnarrows⟩

theorem forall₂_single_of_kept {parts : List Tree} (hparts : ∀ part ∈ parts, Kept ctx ρ σ part)
    {vs : List Value} (h : List.Forall₂ (fun t v => Gives ctx ρ t (.single v)) parts vs) :
    List.Forall₂ (fun t v => Gives ctx σ t (.single v)) parts vs := by
  induction h with
  | nil => exact .nil
  | cons hv _ ih =>
    exact .cons ((hparts _ List.mem_cons_self).single hv)
      (ih fun part hpart => hparts part (List.mem_cons_of_mem _ hpart))

theorem givesText_of_kept {parts : List Tree} (hparts : ∀ part ∈ parts, Kept ctx ρ σ part)
    {prior prior' : Outcome} (hprior : prior.Narrows prior') {pieces : List String}
    (h : GivesText ctx ρ prior pieces parts x) :
    ∃ y, GivesText ctx σ prior' pieces parts y ∧ x.Narrows y := by
  induction parts generalizing prior prior' pieces with
  | nil => exact ⟨prior', GivesText.nil.2 rfl, GivesText.nil.1 h ▸ hprior⟩
  | cons t rest ih =>
    cases pieces with
    | nil => exact ⟨prior', GivesText.noPieces.2 rfl, GivesText.noPieces.1 h ▸ hprior⟩
    | cons piece pieces =>
      obtain ⟨hpiece, y, z, hy, hz, hrest⟩ := GivesText.cons.1 h
      obtain ⟨y', hy', hnarrows⟩ := hparts t List.mem_cons_self y hy
      obtain ⟨z', hz', hjoined⟩ := (Outcome.combines_joinPiece? piece).narrows hprior hnarrows hz
      obtain ⟨x', hx', hxx'⟩ :=
        ih (fun part hpart => hparts part (List.mem_cons_of_mem _ hpart)) hjoined hrest
      exact ⟨x', GivesText.cons.2 ⟨hpiece, y', z', hy', hz', hx'⟩, hxx'⟩

/-- The members of an object are known from the values of its properties and
from names. -/
theorem evaluateMembers_of_kept (h : ρ.KnownBy σ) {members : List Tree}
    (hvalues : ∀ member ∈ members, ∀ value ∈ member.parts, Kept ctx ρ σ value)
    {prior fields : List (String × Value)}
    (hfields : (evaluateMembers ctx ρ prior members).value = some fields) :
    (evaluateMembers ctx σ prior members).value = some fields := by
  induction members generalizing prior with
  | nil => exact hfields
  | cons t rest ih =>
    have hrest : ∀ member ∈ rest, ∀ value ∈ member.parts, Kept ctx ρ σ value :=
      fun member hmember => hvalues member (List.mem_cons_of_mem _ hmember)
    unfold evaluateMembers at hfields
    split at hfields
    · cases ‹_ = []›
    · rename_i key span value rest' heq
      rw [List.cons.injEq] at heq
      obtain ⟨rfl, rfl⟩ := heq
      simp only [Evaluation.value_bind, Evaluation.value_single, Option.bind_eq_some_iff,
        Outcome.single?_eq_some] at hfields
      obtain ⟨k, hk, v, ⟨_, hv, rfl⟩, hfields⟩ := hfields
      have hvalue := (hvalues _ List.mem_cons_self value List.mem_cons_self).single hv
      simp only [evaluateMembers, Evaluation.value_bind, Evaluation.value_single,
        Option.bind_eq_some_iff, Outcome.single?_eq_some]
      exact ⟨k, hk, v, ⟨_, hvalue, rfl⟩, ih hrest hfields⟩
    · rename_i name span parts rest' heq
      rw [List.cons.injEq] at heq
      obtain ⟨rfl, rfl⟩ := heq
      rw [Evaluation.value_bind, Option.bind_eq_some_iff] at hfields
      obtain ⟨v, hv, hfields⟩ := hfields
      rw [evaluateMembers, Evaluation.value_bind, Option.bind_eq_some_iff]
      exact ⟨v, ofName_of_knownBy h hv, ih hrest hfields⟩
    · cases hfields

/-- One node: what its parts give is kept, and so is what it gives. -/
theorem kept_node (h : ρ.KnownBy σ) {kind : Kind} {span : Span} {parts : List Tree}
    (hparts : ∀ part ∈ parts, Kept ctx ρ σ part)
    (hvalues : ∀ part ∈ parts, ∀ value ∈ part.parts, Kept ctx ρ σ value) :
    Kept ctx ρ σ (node kind span parts) := by
  intro x hx
  cases kind with
  | text value => exact ⟨x, hx, .refl x⟩
  | number value => exact ⟨x, hx, .refl x⟩
  | boolean value => exact ⟨x, hx, .refl x⟩
  | null => exact ⟨x, hx, .refl x⟩
  | identifier name =>
    refine ⟨x, ?_, .refl x⟩
    simp only [Gives, evaluate, Evaluation.value_bind, Evaluation.value_pure,
      Option.bind_eq_some_iff] at hx ⊢
    obtain ⟨v, hv, hx⟩ := hx
    exact ⟨v, ofName_of_knownBy h hv, hx⟩
  | paren =>
    obtain ⟨inner, rfl, hinner⟩ := Gives.paren.1 hx
    obtain ⟨y, hy, hnarrows⟩ := hparts inner List.mem_cons_self x hinner
    exact ⟨y, Gives.paren.2 ⟨inner, rfl, hy⟩, hnarrows⟩
  | member name =>
    obtain ⟨object, y, rfl, hy, hmap⟩ := Gives.member.1 hx
    obtain ⟨y', hy', hnarrows⟩ := hparts object List.mem_cons_self y hy
    obtain ⟨x', hx', hxx'⟩ := hnarrows.map? hmap
    exact ⟨x', Gives.member.2 ⟨object, y', rfl, hy', hx'⟩, hxx'⟩
  | hiddenMember name => exact absurd hx Gives.not_hiddenMember
  | computedMember =>
    obtain ⟨object, key, y, z, rfl, hy, hz, hzip⟩ := Gives.computedMember.1 hx
    obtain ⟨y', hy', hyy'⟩ := hparts object List.mem_cons_self y hy
    obtain ⟨z', hz', hzz'⟩ := hparts key (List.mem_cons_of_mem _ List.mem_cons_self) z hz
    obtain ⟨x', hx', hxx'⟩ := ((Outcome.combines_zip? _).map?_bind _).narrows hyy' hzz' hzip
    exact ⟨x', Gives.computedMember.2 ⟨object, key, y', z', rfl, hy', hz', hx'⟩, hxx'⟩
  | unary op =>
    by_cases hop : op = .void
    · subst hop
      exact ⟨x, Gives.void.2 (Gives.void.1 hx), .refl x⟩
    · obtain ⟨operand, y, rfl, hy, hmap⟩ := (Gives.unary hop).1 hx
      obtain ⟨y', hy', hnarrows⟩ := hparts operand List.mem_cons_self y hy
      obtain ⟨x', hx', hxx'⟩ := hnarrows.map? hmap
      exact ⟨x', (Gives.unary hop).2 ⟨operand, y', rfl, hy', hx'⟩, hxx'⟩
  | binary op =>
    by_cases hop : op.isLogical
    · obtain ⟨left, right, v, rfl, hleft, hright⟩ := (Gives.logical hop).1 hx
      have hleft' := (hparts left List.mem_cons_self).single hleft
      by_cases hends : v.endsAtLeft op
      · rw [if_pos hends] at hright
        exact ⟨x, (Gives.logical hop).2 ⟨left, right, v, rfl, hleft', by rwa [if_pos hends]⟩,
          .refl x⟩
      · rw [if_neg hends] at hright
        obtain ⟨x', hx', hxx'⟩ :=
          hparts right (List.mem_cons_of_mem _ List.mem_cons_self) x hright
        exact ⟨x', (Gives.logical hop).2 ⟨left, right, v, rfl, hleft', by rwa [if_neg hends]⟩,
          hxx'⟩
    · obtain ⟨left, right, y, z, rfl, hy, hz, hzip⟩ := (Gives.binary hop).1 hx
      obtain ⟨y', hy', hyy'⟩ := hparts left List.mem_cons_self y hy
      obtain ⟨z', hz', hzz'⟩ := hparts right (List.mem_cons_of_mem _ List.mem_cons_self) z hz
      obtain ⟨x', hx', hxx'⟩ := (Outcome.combines_zip? _).narrows hyy' hzz' hzip
      exact ⟨x', (Gives.binary hop).2 ⟨left, right, y', z', rfl, hy', hz', hx'⟩, hxx'⟩
  | conditional =>
    obtain ⟨test, a, b, rfl, hcases⟩ := Gives.conditional.1 hx
    have htest : Kept ctx ρ σ test := hparts test List.mem_cons_self
    have ha : Kept ctx ρ σ a := hparts a (List.mem_cons_of_mem _ List.mem_cons_self)
    have hb : Kept ctx ρ σ b :=
      hparts b (List.mem_cons_of_mem _ (List.mem_cons_of_mem _ List.mem_cons_self))
    obtain ⟨v, hv, hchosen⟩ | ⟨-, va, vb, hva, hvb, rfl⟩ := hcases
    · have hkept : Kept ctx ρ σ (if v.truthy then a else b) := by
        split
        · exact ha
        · exact hb
      obtain ⟨x', hx', hxx'⟩ := hkept x hchosen
      exact ⟨x', Gives.conditional.2 ⟨test, a, b, rfl, .inl ⟨v, htest.single hv, hx'⟩⟩, hxx'⟩
    · -- the greater environment may decide the test
      by_cases hdecided : ∃ v, Gives ctx σ test (.single v)
      · obtain ⟨v, hv⟩ := hdecided
        refine ⟨.single (if v.truthy then va else vb),
          Gives.conditional.2 ⟨test, a, b, rfl, .inl ⟨v, hv, ?_⟩⟩, .inr ⟨v.truthy, rfl⟩⟩
        split
        · exact ha.single hva
        · exact hb.single hvb
      · refine ⟨_, Gives.conditional.2 ⟨test, a, b, rfl, .inr ⟨fun v hv => hdecided ⟨v, hv⟩, va, vb,
          ha.single hva, hb.single hvb, rfl⟩⟩, .refl _⟩
  | call =>
    obtain ⟨callee, arguments, b, xs, rfl, hcallee, hb, hxs, hcall⟩ := Gives.call.1 hx
    have hcallee' := (hparts callee List.mem_cons_self).single hcallee
    obtain ⟨ys, hys, hnarrows⟩ :=
      forall₂_of_kept (fun part hpart => hparts part (List.mem_cons_of_mem _ hpart)) hxs
    obtain ⟨x', hx', hxx'⟩ := narrows_callOutcome hnarrows hcall
    exact ⟨x', Gives.call.2 ⟨callee, arguments, b, ys, rfl, hcallee', hb, hys, hx'⟩, hxx'⟩
  | template pieces =>
    obtain ⟨first, rest, rfl, hfirst, htext⟩ := Gives.template.1 hx
    obtain ⟨x', hx', hxx'⟩ := givesText_of_kept hparts (.refl _) htext
    exact ⟨x', Gives.template.2 ⟨first, rest, rfl, hfirst, hx'⟩, hxx'⟩
  | array =>
    obtain ⟨vs, hvs, rfl⟩ := Gives.array.1 hx
    exact ⟨_, Gives.array.2 ⟨vs, forall₂_single_of_kept hparts hvs, rfl⟩, .refl _⟩
  | object =>
    obtain ⟨fields, hfields, rfl⟩ := Gives.object.1 hx
    exact ⟨_, Gives.object.2 ⟨fields, evaluateMembers_of_kept h hvalues hfields, rfl⟩, .refl _⟩
  | _ => simp [Gives, evaluate] at hx

theorem kept_of_knownBy (h : ρ.KnownBy σ) (t : Tree) :
    Kept ctx ρ σ t ∧ ∀ part ∈ t.parts, Kept ctx ρ σ part := by
  obtain ⟨kind, span, parts⟩ := t
  have hparts : ∀ part ∈ parts, Kept ctx ρ σ part ∧ ∀ value ∈ part.parts, Kept ctx ρ σ value :=
    fun part _ => kept_of_knownBy h part
  have hkept : ∀ part ∈ parts, Kept ctx ρ σ part := fun part hpart => (hparts part hpart).1
  exact ⟨kept_node h hkept fun part hpart => (hparts part hpart).2, hkept⟩
termination_by sizeOf t
decreasing_by
  have hlt := List.sizeOf_lt_of_mem ‹part ∈ parts›
  rw [node.sizeOf_spec]
  omega

/-- **Knowing more keeps what is known.** -/
theorem gives_of_agrees (h : ρ.Agrees σ) {t : Tree} {v : Value}
    (hv : Gives ctx ρ t (.single v)) : Gives ctx σ t (.single v) :=
  (kept_of_knownBy h.knownBy t).1.single hv

end

end ModuleAssets
