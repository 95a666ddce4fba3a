import ModuleAssets.Proofs.Evaluate.Monotone
/-!
# Evaluation — forgetting names never makes up a value

An environment forgets a name when something unknown is assigned to it, and it
covers the names of a scope that is entered. `Conceals` is any number of these
one after another. What an expression gives afterwards it gave before, except
that two values may be left where there was one: so a value turns into a branch
or into something unknown, and not into another value.
-/

namespace ModuleAssets

open Syntax Syntax.Tree

namespace Environment

/-- The second environment comes from the first one by names that are
invalidated, and by scopes that are entered. -/
inductive Conceals : Environment → Environment → Prop
  | refl (σ : Environment) : Conceals σ σ
  | invalidate {σ ρ : Environment} (name : String) (h : Conceals σ ρ) :
      Conceals σ (ρ.invalidate name)
  | shadow {σ ρ : Environment} (scope : Scope) (h : Conceals σ ρ) : Conceals σ (ρ.enter scope)

namespace KnownBy

variable {ρ σ τ : Environment}

theorem refl (ρ : Environment) : ρ.KnownBy ρ :=
  fun _ _ h => h

theorem trans (h : ρ.KnownBy σ) (h' : σ.KnownBy τ) : ρ.KnownBy τ :=
  fun name v hv => h' name v (h name v hv)

theorem invalidate (ρ : Environment) (name : String) : (ρ.invalidate name).KnownBy ρ := by
  intro n v hv
  have hchanges := Changes.learn name none ρ
  by_cases hn : n ∈ [name] → n = loaderName
  · -- another name, or the loader, which is never written to
    rwa [← lookup?_congr (hchanges.kept n hn)]
  · rw [Classical.not_imp, List.mem_singleton] at hn
    obtain ⟨rfl, hloader⟩ := hn
    have hforgotten : (ρ.invalidate n).lookup? n = none := lookup?_learn_self hloader none
    rw [hforgotten] at hv
    cases hv

theorem enter (ρ : Environment) (scope : Scope) : (ρ.enter scope).KnownBy ρ := by
  intro n v hv
  by_cases hn : n ∈ scope.names
  · rw [lookup?_enter hn] at hv
    cases hv
  · rwa [← lookup?_congr (layers_enter_of_not_mem hn ρ)]

end KnownBy

theorem Conceals.knownBy {σ ρ : Environment} (h : Conceals σ ρ) : ρ.KnownBy σ := by
  induction h with
  | refl => exact .refl _
  | invalidate name _ ih => exact (KnownBy.invalidate _ name).trans ih
  | shadow scope _ ih => exact (KnownBy.enter _ scope).trans ih

end Environment

/-- One of two outcomes that are left when the test of the first is decided. -/
theorem Outcome.Narrows.either_cases {test : Span} {a b : Value} {y : Outcome}
    (h : (Outcome.either test a b).Narrows y) :
    y = .either test a b ∨ y = .single a ∨ y = .single b := by
  obtain rfl | ⟨holds, rfl⟩ := h
  · exact .inl rfl
  · cases holds with
    | true => exact .inr (.inl rfl)
    | false => exact .inr (.inr rfl)

namespace Gives

variable {ctx : ModuleContext} {ρ σ : Environment} {t : Tree}

theorem either_of_knownBy (h : ρ.KnownBy σ) {test : Span} {a b : Value}
    (ht : Gives ctx ρ t (.either test a b)) :
    Gives ctx σ t (.either test a b) ∨ Gives ctx σ t (.single a) ∨ Gives ctx σ t (.single b) := by
  obtain ⟨y, hy, hnarrows⟩ := (kept_of_knownBy h t).1 _ ht
  obtain rfl | rfl | rfl := hnarrows.either_cases
  · exact .inl hy
  · exact .inr (.inl hy)
  · exact .inr (.inr hy)

/-- What is given once names are forgotten, where the first environment gives
an outcome: nothing, the same, or a branch that leads to it. -/
theorem of_conceals (h : σ.Conceals ρ) {x : Outcome} (hx : Gives ctx σ t x) :
    (evaluate ctx ρ t).value = none ∨ Gives ctx ρ t x ∨
      ∃ test a b, Gives ctx ρ t (.either test a b) ∧ (x = .single a ∨ x = .single b) := by
  have hkept := h.knownBy
  cases hy : (evaluate ctx ρ t).value with
  | none => exact .inl rfl
  | some y =>
    refine .inr ?_
    cases y with
    | single v =>
      have hsame : x = .single v := hx.unique ((kept_of_knownBy hkept t).1.single hy)
      exact .inl (hsame ▸ hy)
    | either test a b =>
      rcases either_of_knownBy hkept hy with hsame | hfirst | hsecond
      · exact .inl (hx.unique hsame ▸ hy)
      · exact .inr ⟨test, a, b, hy, .inl (hx.unique hfirst)⟩
      · exact .inr ⟨test, a, b, hy, .inr (hx.unique hsecond)⟩

/-- **Knowing more never changes a value that is claimed.** A value stays, and
of a branch there stays all or one of its two values. So forgetting names turns
a value into a branch or into something unknown, and never into another value. -/
theorem narrowed_of_knownBy (ctx : ModuleContext) (t : Tree) :
    (∀ ρ σ : Environment, ρ.KnownBy σ →
      (∀ v, Gives ctx ρ t (.single v) → Gives ctx σ t (.single v)) ∧
      ∀ test a b, Gives ctx ρ t (.either test a b) →
        Gives ctx σ t (.either test a b) ∨ Gives ctx σ t (.single a) ∨ Gives ctx σ t (.single b)) ∧
    ∀ σ ρ : Environment, σ.Conceals ρ → ∀ x, Gives ctx σ t x →
      (evaluate ctx ρ t).value = none ∨ Gives ctx ρ t x ∨
        ∃ test a b, Gives ctx ρ t (.either test a b) ∧ (x = .single a ∨ x = .single b) := by
  refine ⟨fun ρ σ h => ⟨fun v hv => ?_, fun test a b hbranch => ?_⟩, fun σ ρ h x hx => ?_⟩
  · exact (kept_of_knownBy h t).1.single hv
  · exact either_of_knownBy h hbranch
  · exact of_conceals h hx

/-- A choice by a name that holds true: the first of the two texts. Once the name is
forgotten the choice is a branch, which leads to that text. -/
theorem narrowed_of_knownBy_forgotten :
    let ctx : ModuleContext := ⟨"/m.js", "/", none, none, Options.default, FileTree.empty⟩
    let t : Tree := .node .conditional ⟨0, 13⟩ [.node (.identifier "x") ⟨0, 1⟩ [],
      .node (.text (some "a")) ⟨4, 7⟩ [], .node (.text (some "b")) ⟨10, 13⟩ []]
    let σ := Environment.empty.define "x" (.bool true)
    let ρ := σ.invalidate "x"
    σ.Conceals ρ ∧ ρ.KnownBy σ ∧ Gives ctx ρ t (.either ⟨0, 1⟩ (.text "a") (.text "b")) ∧
      (Gives ctx σ t (.either ⟨0, 1⟩ (.text "a") (.text "b")) ∨
        Gives ctx σ t (.single (.text "a")) ∨ Gives ctx σ t (.single (.text "b"))) ∧
      Gives ctx σ t (.single (.text "a")) ∧
      ((evaluate ctx ρ t).value = none ∨ Gives ctx ρ t (.single (.text "a")) ∨
        ∃ test a b, Gives ctx ρ t (.either test a b) ∧
          (.single (.text "a") = Outcome.single a ∨ .single (.text "a") = Outcome.single b)) := by
  intro ctx t σ ρ
  have hconceals : σ.Conceals ρ := .invalidate "x" (.refl σ)
  have hbranch : Gives ctx ρ t (.either ⟨0, 1⟩ (.text "a") (.text "b")) := by
    rfl
  have hfirst : Gives ctx σ t (.single (.text "a")) := by
    rfl
  exact ⟨hconceals, hconceals.knownBy, hbranch,
    ((narrowed_of_knownBy ctx t).1 ρ σ hconceals.knownBy).2 _ _ _ hbranch, hfirst,
    (narrowed_of_knownBy ctx t).2 σ ρ hconceals _ hfirst⟩

end Gives

end ModuleAssets
