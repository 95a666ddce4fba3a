import ModuleAssets.Evaluate
import Mathlib.Data.List.Forall2
import Mathlib.Tactic.Common
/-!
# Evaluation — what an expression gives, kind by kind

`Gives` says that an expression has an outcome. For each kind of expression
that is understood one lemma says when that is so, in terms of what the
operands give. Everything else about values is read off these lemmas, and the
definition of `evaluate` is not opened again.
-/

namespace ModuleAssets

open Syntax Syntax.Tree

namespace Evaluation

variable {α β : Type}

@[simp] theorem value_bind (x : Evaluation α) (f : α → Evaluation β) :
    (x >>= f).value = x.value.bind fun a => (f a).value := by
  show (Evaluation.bind x f).value = _
  rw [Evaluation.bind]
  cases x.value <;> rfl

@[simp] theorem value_pure (a : α) : (pure a : Evaluation α).value = some a := rfl

@[simp] theorem value_ofOption (a : Option α) : (ofOption a).value = a := rfl

@[simp] theorem value_unknown : (unknown : Evaluation α).value = none := rfl

@[simp] theorem value_single (x : Evaluation Outcome) :
    x.single.value = x.value.bind Outcome.single? := rfl

end Evaluation

@[simp] theorem Outcome.single?_eq_some {x : Outcome} {v : Value} :
    x.single? = some v ↔ x = .single v := by
  cases x <;> simp [single?]

/-- The operators that may end after their left operand. -/
def Syntax.BinaryOp.isLogical : BinaryOp → Bool
  | .and | .or | .nullish => true
  | _ => false

attribute [local simp] evaluate evaluateAll evaluateItems evaluateText

/-- The expression has the outcome. -/
def Gives (ctx : ModuleContext) (env : Environment) (t : Tree) (x : Outcome) : Prop :=
  (evaluate ctx env t).value = some x

namespace Gives

variable {ctx : ModuleContext} {env : Environment} {span : Span} {parts : List Tree} {x y : Outcome}

/-- An expression has at most one outcome. -/
theorem unique {t : Tree} (hx : Gives ctx env t x) (hy : Gives ctx env t y) : x = y :=
  Option.some.inj (hx.symm.trans hy)

/-! ## Expressions with one operand -/

theorem paren : Gives ctx env (node .paren span parts) x ↔
    ∃ inner, parts = [inner] ∧ Gives ctx env inner x := by
  match parts with
  | [inner] => simp [Gives, evaluate]
  | [] | _ :: _ :: _ => simp [Gives, evaluate]

theorem member {name : String} : Gives ctx env (node (.member name) span parts) x ↔
    ∃ object y, parts = [object] ∧ Gives ctx env object y ∧ y.map? (·.member? name) = some x := by
  match parts with
  | [object] => simp [Gives, evaluate, Option.bind_eq_some_iff]
  | [] | _ :: _ :: _ => simp [Gives, evaluate]

theorem not_hiddenMember {name : String} :
    ¬ Gives ctx env (node (.hiddenMember name) span parts) x := by
  match parts with
  | [object] => simp [Gives, evaluate]
  | [] | _ :: _ :: _ => simp [Gives, evaluate]

theorem void : Gives ctx env (node (.unary .void) span parts) x ↔
    ∃ operand, parts = [operand] ∧ x = .single .undefined := by
  match parts with
  | [operand] => simp [Gives, evaluate, eq_comm]
  | [] | _ :: _ :: _ => simp [Gives, evaluate]

theorem unary {op : UnaryOp} (hop : op ≠ .void) : Gives ctx env (node (.unary op) span parts) x ↔
    ∃ operand y, parts = [operand] ∧ Gives ctx env operand y ∧
      y.map? (Value.unary? op) = some x := by
  match parts with
  | [operand] => cases op <;> simp_all [Gives, evaluate, Option.bind_eq_some_iff]
  | [] | _ :: _ :: _ => simp [Gives, evaluate]

/-! ## Expressions with two operands -/

theorem computedMember : Gives ctx env (node .computedMember span parts) x ↔
    ∃ object key y z, parts = [object, key] ∧ Gives ctx env object y ∧ Gives ctx env key z ∧
      ((z.map? fun k => k.toText?.map .text).bind
        (y.zip? (fun o k => k.text?.bind o.member?))) = some x := by
  match parts with
  | [object, key] =>
    simp only [Gives, evaluate, Evaluation.value_bind, Evaluation.value_ofOption,
      Option.bind_eq_some_iff]
    constructor
    · rintro ⟨y, hy, z, hz, k, hk, hx⟩
      exact ⟨object, key, y, z, rfl, hy, hz, k, hk, hx⟩
    · rintro ⟨_, _, y, z, hparts, hy, hz, k, hk, hx⟩
      rw [List.cons.injEq, List.cons.injEq] at hparts
      obtain ⟨rfl, rfl, -⟩ := hparts
      exact ⟨y, hy, z, hz, k, hk, hx⟩
  | [] | [_] | _ :: _ :: _ :: _ => simp [Gives, evaluate]

theorem logical {op : BinaryOp} (hop : op.isLogical) :
    Gives ctx env (node (.binary op) span parts) x ↔
      ∃ left right v, parts = [left, right] ∧ Gives ctx env left (.single v) ∧
        if v.endsAtLeft op then x = .single v else Gives ctx env right x := by
  match parts with
  | [left, right] =>
    have hvalue : (evaluate ctx env (node (.binary op) span [left, right])).value =
        ((evaluate ctx env left).value.bind Outcome.single?).bind fun v =>
          if v.endsAtLeft op then some (.single v) else (evaluate ctx env right).value := by
      cases op <;> cases hop <;>
      · simp only [evaluate, Evaluation.value_bind, Evaluation.value_single]
        congr 1
        funext v
        split <;> rfl
    simp only [Gives, hvalue, Option.bind_eq_some_iff, Outcome.single?_eq_some]
    constructor
    · rintro ⟨v, ⟨_, hleft, rfl⟩, hx⟩
      refine ⟨left, right, v, rfl, hleft, ?_⟩
      by_cases hends : v.endsAtLeft op
      · rw [if_pos hends, Option.some.injEq] at hx
        rw [if_pos hends, hx]
      · rw [if_neg hends] at hx
        rwa [if_neg hends]
    · rintro ⟨_, _, v, hparts, hleft, hx⟩
      rw [List.cons.injEq, List.cons.injEq] at hparts
      obtain ⟨rfl, rfl, -⟩ := hparts
      refine ⟨v, ⟨_, hleft, rfl⟩, ?_⟩
      by_cases hends : v.endsAtLeft op
      · rw [if_pos hends] at hx
        rw [if_pos hends, hx]
      · rw [if_neg hends] at hx
        rwa [if_neg hends]
  | [] | [_] | _ :: _ :: _ :: _ => simp [Gives, evaluate]

theorem binary {op : BinaryOp} (hop : ¬ op.isLogical) :
    Gives ctx env (node (.binary op) span parts) x ↔
      ∃ left right y z, parts = [left, right] ∧ Gives ctx env left y ∧ Gives ctx env right z ∧
        y.zip? (Value.binary? op) z = some x := by
  match parts with
  | [left, right] =>
    have hvalue : (evaluate ctx env (node (.binary op) span [left, right])).value =
        (evaluate ctx env left).value.bind fun y =>
          (evaluate ctx env right).value.bind fun z => y.zip? (Value.binary? op) z := by
      cases op <;> first | exact absurd rfl hop | simp [evaluate]
    simp only [Gives, hvalue, Option.bind_eq_some_iff]
    constructor
    · rintro ⟨y, hy, z, hz, hx⟩
      exact ⟨left, right, y, z, rfl, hy, hz, hx⟩
    · rintro ⟨_, _, y, z, hparts, hy, hz, hx⟩
      rw [List.cons.injEq, List.cons.injEq] at hparts
      obtain ⟨rfl, rfl, -⟩ := hparts
      exact ⟨y, hy, z, hz, hx⟩
  | [] | [_] | _ :: _ :: _ :: _ => simp [Gives, evaluate]

/-! ## Conditionals -/

theorem conditional : Gives ctx env (node .conditional span parts) x ↔
    ∃ test first second, parts = [test, first, second] ∧
      ((∃ v, Gives ctx env test (.single v) ∧
          Gives ctx env (if v.truthy then first else second) x) ∨
        ((∀ v, ¬ Gives ctx env test (.single v)) ∧
          ∃ a b, Gives ctx env first (.single a) ∧ Gives ctx env second (.single b) ∧
            x = .either test.span a b)) := by
  match parts with
  | [test, first, second] =>
    constructor
    · intro h
      refine ⟨test, first, second, rfl, ?_⟩
      simp only [Gives, evaluate] at h ⊢
      split at h
      · rename_i v hv
        refine .inl ⟨v, hv, ?_⟩
        by_cases htruthy : v.truthy
        · rwa [if_pos htruthy] at h ⊢
        · rwa [if_neg htruthy] at h ⊢
      · rename_i hundecided
        simp only [Evaluation.value_bind, Evaluation.value_single, Evaluation.value_pure,
          Option.bind_eq_some_iff, Outcome.single?_eq_some, Option.some.injEq] at h
        obtain ⟨a, ⟨_, ha, rfl⟩, b, ⟨_, hb, rfl⟩, rfl⟩ := h
        exact .inr ⟨hundecided, a, b, ha, hb, rfl⟩
    · rintro ⟨_, _, _, hparts, h⟩
      simp only [List.cons.injEq] at hparts
      obtain ⟨rfl, rfl, rfl, -⟩ := hparts
      simp only [Gives, evaluate]
      obtain ⟨v, hv, hx⟩ | ⟨hundecided, a, b, ha, hb, rfl⟩ := h
      · rw [Gives] at hv
        simp only [hv]
        by_cases htruthy : v.truthy
        · rwa [if_pos htruthy] at hx ⊢
        · rwa [if_neg htruthy] at hx ⊢
      · split
        · rename_i v hv
          exact absurd hv (hundecided v)
        · rw [Gives] at ha hb
          simp [ha, hb, Outcome.single?]
  | [] | [_] | [_, _] | _ :: _ :: _ :: _ :: _ => simp [Gives, evaluate]

/-! ## Calls -/

theorem all {arguments : List Tree} {xs : List Outcome} :
    (evaluateAll ctx env arguments).value = some xs ↔
      List.Forall₂ (Gives ctx env) arguments xs := by
  induction arguments generalizing xs with
  | nil => simp [evaluateAll, eq_comm]
  | cons t rest ih =>
    simp only [evaluateAll, Evaluation.value_bind, Evaluation.value_pure, Option.bind_eq_some_iff,
      Option.some.injEq, List.forall₂_cons_left_iff]
    constructor
    · rintro ⟨x, hx, ys, hys, rfl⟩
      exact ⟨x, ys, hx, ih.1 hys, rfl⟩
    · rintro ⟨x, ys, hx, hys, rfl⟩
      exact ⟨x, hx, ys, ih.2 hys, rfl⟩

theorem call : Gives ctx env (node .call span parts) x ↔
    ∃ callee arguments b xs, parts = callee :: arguments ∧
      Gives ctx env callee (.single (.builtin b)) ∧ b ≠ .require ∧
      List.Forall₂ (Gives ctx env) arguments xs ∧
      (callOutcome ctx (.builtin b) xs).value = some x := by
  match parts with
  | callee :: arguments =>
    simp only [Gives, evaluate, Evaluation.value_bind, Evaluation.value_single,
      Option.bind_eq_some_iff, Outcome.single?_eq_some]
    constructor
    · rintro ⟨v, ⟨_, hcallee, rfl⟩, hx⟩
      split at hx
      · cases hx
      · rename_i b hb
        rw [Evaluation.value_bind, Option.bind_eq_some_iff] at hx
        obtain ⟨xs, hxs, hx⟩ := hx
        exact ⟨callee, arguments, b, xs, rfl, hcallee, fun h => hb (by rw [h]), all.1 hxs, hx⟩
      · cases hx
    · rintro ⟨_, _, b, xs, hparts, hcallee, hb, hxs, hx⟩
      rw [List.cons.injEq] at hparts
      obtain ⟨rfl, rfl⟩ := hparts
      refine ⟨.builtin b, ⟨_, hcallee, rfl⟩, ?_⟩
      split
      · rename_i heq
        exact absurd (Value.builtin.inj heq) hb
      · rename_i heq
        cases heq
        rw [Evaluation.value_bind, all.2 hxs]
        exact hx
      · rename_i heq
        exact absurd rfl (heq b)
  | [] => simp [Gives, evaluate]

/-! ## Templates -/

end Gives

/-- The outcome of a template up to some text, which is an expression and the
piece after it. -/
def Outcome.joinPiece? (piece : String) (prior part : Outcome) : Option Outcome :=
  (prior.zip? Value.concat? part).bind fun joined =>
    joined.map? fun v => v.text?.map fun t => .text (t ++ piece)

/-- From the text so far, the expressions of a template and the pieces between
and after them give the outcome. -/
def GivesText (ctx : ModuleContext) (env : Environment) (prior : Outcome) (pieces : List String)
    (parts : List Tree) (x : Outcome) : Prop :=
  (evaluateText ctx env prior pieces parts).value = some x

namespace GivesText

variable {ctx : ModuleContext} {env : Environment} {prior x : Outcome} {pieces : List String}

theorem nil : GivesText ctx env prior pieces [] x ↔ prior = x := by
  simp [GivesText, evaluateText]

theorem noPieces {parts : List Tree} : GivesText ctx env prior [] parts x ↔ prior = x := by
  cases parts <;> simp [GivesText, evaluateText]

theorem cons {piece : String} {t : Tree} {rest : List Tree} :
    GivesText ctx env prior (piece :: pieces) (t :: rest) x ↔
      '\\' ∉ piece.toList ∧ ∃ y z, Gives ctx env t y ∧ prior.joinPiece? piece y = some z ∧
        GivesText ctx env z pieces rest x := by
  simp only [GivesText, Gives, evaluateText, Evaluation.value_bind, Evaluation.value_ofOption,
    Option.bind_eq_some_iff, Outcome.joinPiece?]
  constructor
  · rintro ⟨y, hy, joined, hjoined, hx⟩
    split at hx
    · cases hx
    · rename_i hpiece
      rw [Evaluation.value_bind, Option.bind_eq_some_iff] at hx
      obtain ⟨z, hz, hx⟩ := hx
      rw [List.contains_iff_mem] at hpiece
      exact ⟨hpiece, y, z, hy, ⟨joined, hjoined, hz⟩, hx⟩
  · rintro ⟨hpiece, y, z, hy, ⟨joined, hjoined, hz⟩, hx⟩
    rw [← List.contains_iff_mem] at hpiece
    refine ⟨y, hy, joined, hjoined, ?_⟩
    rw [if_neg hpiece, Evaluation.value_bind, Evaluation.value_ofOption, hz]
    exact hx

end GivesText

namespace Gives

variable {ctx : ModuleContext} {env : Environment} {span : Span} {parts : List Tree} {x y : Outcome}

theorem template {pieces : List String} : Gives ctx env (node (.template pieces) span parts) x ↔
    ∃ first rest, pieces = first :: rest ∧ '\\' ∉ first.toList ∧
      GivesText ctx env (.single (.text first)) rest parts x := by
  match pieces with
  | [] => simp [Gives, evaluate]
  | first :: rest =>
    simp only [Gives, GivesText, evaluate]
    constructor
    · intro h
      split at h
      · cases h
      · rename_i hfirst
        rw [List.contains_iff_mem] at hfirst
        exact ⟨first, rest, rfl, hfirst, h⟩
    · rintro ⟨_, _, hpieces, hfirst, h⟩
      rw [List.cons.injEq] at hpieces
      obtain ⟨rfl, rfl⟩ := hpieces
      rw [← List.contains_iff_mem] at hfirst
      rwa [if_neg hfirst]

/-! ## Arrays and objects -/

theorem items {items : List Tree} {vs : List Value} :
    (evaluateItems ctx env items).value = some vs ↔
      List.Forall₂ (fun t v => Gives ctx env t (.single v)) items vs := by
  induction items generalizing vs with
  | nil => simp [evaluateItems, eq_comm]
  | cons t rest ih =>
    simp only [evaluateItems, Evaluation.value_bind, Evaluation.value_single,
      Evaluation.value_pure, Option.bind_eq_some_iff, Outcome.single?_eq_some, Option.some.injEq,
      List.forall₂_cons_left_iff]
    constructor
    · rintro ⟨v, ⟨_, hv, rfl⟩, ws, hws, rfl⟩
      exact ⟨v, ws, hv, ih.1 hws, rfl⟩
    · rintro ⟨v, ws, hv, hws, rfl⟩
      exact ⟨v, ⟨_, hv, rfl⟩, ws, ih.2 hws, rfl⟩

theorem array : Gives ctx env (node .array span parts) x ↔
    ∃ vs, List.Forall₂ (fun t v => Gives ctx env t (.single v)) parts vs ∧
      x = .single (.array vs) := by
  simp only [Gives, evaluate, Evaluation.value_bind, Evaluation.value_pure,
    Option.bind_eq_some_iff, Option.some.injEq, items, eq_comm (a := x)]

theorem object : Gives ctx env (node .object span parts) x ↔
    ∃ fields, (evaluateMembers ctx env [] parts).value = some fields ∧
      x = .single (.object fields) := by
  simp only [Gives, evaluate, Evaluation.value_bind, Evaluation.value_pure,
    Option.bind_eq_some_iff, Option.some.injEq, eq_comm (a := x)]

end Gives

/-- The expression has one value that is known. -/
def IsKnown (ctx : ModuleContext) (env : Environment) (t : Tree) : Prop :=
  ∃ v, Gives ctx env t (.single v)

/-- The values of the properties of an object are known, if the object is. -/
theorem isKnown_of_members {ctx : ModuleContext} {env : Environment} {members : List Tree}
    {prior fields : List (String × Value)}
    (h : (evaluateMembers ctx env prior members).value = some fields) {key : Key} {span : Span}
    {value : Tree} (hmem : node (.property key) span [value] ∈ members) : IsKnown ctx env value := by
  induction members generalizing prior with
  | nil => cases hmem
  | cons t rest ih =>
    unfold evaluateMembers at h
    split at h
    · cases ‹_ = []›
    · rename_i key' span' value' rest' heq
      rw [List.cons.injEq] at heq
      obtain ⟨rfl, rfl⟩ := heq
      simp only [Evaluation.value_bind, Evaluation.value_single, Option.bind_eq_some_iff,
        Outcome.single?_eq_some] at h
      obtain ⟨k, -, v, ⟨_, hv, rfl⟩, hrest⟩ := h
      obtain heq | hmem := List.mem_cons.1 hmem
      · cases heq
        exact ⟨v, hv⟩
      · exact ih hrest hmem
    · rename_i name span' parts' rest' heq
      rw [List.cons.injEq] at heq
      obtain ⟨rfl, rfl⟩ := heq
      rw [Evaluation.value_bind, Option.bind_eq_some_iff] at h
      obtain ⟨v, -, hrest⟩ := h
      obtain heq | hmem := List.mem_cons.1 hmem
      · cases heq
      · exact ih hrest hmem
    · cases h

end ModuleAssets
