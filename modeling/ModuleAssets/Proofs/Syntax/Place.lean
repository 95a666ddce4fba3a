import ModuleAssets.Syntax.Tree
import Mathlib.Tactic.Common
/-!
# Syntax trees — places, operands and spans

A place in a tree tells by numbers which part to go to from node to node. The
operands of an expression are the expressions its value may be computed from.
In a tree that is read from a text they lie within the expression, one beside
the other, so that the span of a test tells which conditional it belongs to.
-/

namespace ModuleAssets.Syntax.Tree

/-! ## Places -/

/-- The node at a place. -/
def partAt? : Tree → List Nat → Option Tree
  | t, [] => some t
  | node _ _ parts, i :: place => parts[i]?.bind fun t => t.partAt? place

/-- The tree with another node at a place. -/
def replaceAt : Tree → List Nat → Tree → Tree
  | _, [], new => new
  | node kind span parts, i :: place, new =>
    node kind span (parts.modify i fun t => t.replaceAt place new)

theorem partAt?_append (t : Tree) (p q : List Nat) :
    t.partAt? (p ++ q) = (t.partAt? p).bind fun c => c.partAt? q := by
  induction p generalizing t with
  | nil => rw [List.nil_append, partAt?, Option.bind_some]
  | cons i p ih =>
    obtain ⟨kind, span, parts⟩ := t
    rw [List.cons_append, partAt?, partAt?]
    cases parts[i]? with
    | none => rfl
    | some c => exact ih c

/-- The second tree stands somewhere in the first. -/
def Contains (root t : Tree) : Prop :=
  ∃ place, root.partAt? place = some t

theorem Contains.refl (t : Tree) : t.Contains t :=
  ⟨[], rfl⟩

theorem Contains.part {root t part : Tree} (h : root.Contains t) (hpart : part ∈ t.parts) :
    root.Contains part := by
  obtain ⟨place, hplace⟩ := h
  obtain ⟨i, hi⟩ := List.getElem?_of_mem hpart
  obtain ⟨kind, span, parts⟩ := t
  refine ⟨place ++ [i], ?_⟩
  rw [partAt?_append, hplace, Option.bind_some, partAt?, show parts[i]? = some part from hi]
  rfl

theorem Contains.trans {t n m : Tree} (h : t.Contains n) (h' : n.Contains m) : t.Contains m := by
  obtain ⟨place, hplace⟩ := h
  obtain ⟨place', hplace'⟩ := h'
  exact ⟨place ++ place', by rw [partAt?_append, hplace, Option.bind_some, hplace']⟩

/-- What stands in a tree is the tree itself, or it stands in a part of it. -/
theorem contains_iff {t n : Tree} : t.Contains n ↔ n = t ∨ ∃ part ∈ t.parts, part.Contains n := by
  obtain ⟨kind, span, parts⟩ := t
  constructor
  · rintro ⟨place, hplace⟩
    cases place with
    | nil => exact .inl (Option.some.inj hplace).symm
    | cons i place =>
      rw [partAt?, Option.bind_eq_some_iff] at hplace
      obtain ⟨part, hpart, hplace⟩ := hplace
      exact .inr ⟨part, List.mem_of_getElem? hpart, place, hplace⟩
  · rintro (rfl | ⟨part, hpart, place, hplace⟩)
    · exact .refl _
    · obtain ⟨i, hi⟩ := List.getElem?_of_mem hpart
      refine ⟨i :: place, ?_⟩
      rw [partAt?, show parts[i]? = some part from hi, Option.bind_some, hplace]

theorem replaceAt_singleton (kind : Kind) (span : Span) (parts : List Tree) (i : Nat)
    (new : Tree) : (node kind span parts).replaceAt [i] new = node kind span (parts.set i new) := by
  simp only [replaceAt, List.modify_eq_set]

/-- A replacement further below is one of a node on the way. -/
theorem replaceAt_append {t c : Tree} {p : List Nat} (h : t.partAt? p = some c) (q : List Nat)
    (new : Tree) : t.replaceAt (p ++ q) new = t.replaceAt p (c.replaceAt q new) := by
  induction p generalizing t with
  | nil =>
    rw [partAt?, Option.some.injEq] at h
    rw [List.nil_append, replaceAt, h]
  | cons i p ih =>
    obtain ⟨kind, span, parts⟩ := t
    rw [partAt?, Option.bind_eq_some_iff] at h
    obtain ⟨d, hd, hc⟩ := h
    rw [List.cons_append, replaceAt, replaceAt, List.modify_eq_set, List.modify_eq_set, hd,
      Option.getD_some, ih hc]

/-- Putting a node where it stands changes nothing. -/
theorem replaceAt_self {t c : Tree} {p : List Nat} (h : t.partAt? p = some c) :
    t.replaceAt p c = t := by
  induction p generalizing t with
  | nil => exact (Option.some.inj h).symm
  | cons i p ih =>
    obtain ⟨kind, span, parts⟩ := t
    rw [partAt?, Option.bind_eq_some_iff] at h
    obtain ⟨d, hd, hc⟩ := h
    have hsame : (parts.modify i fun t => t.replaceAt p c) = parts := by
      refine List.ext_getElem? fun j => ?_
      rw [List.getElem?_modify]
      split
      · rename_i hij
        rw [← hij, hd, Option.map_eq_map, Option.map_some, ih hc]
      · exact Option.map_id'
    rw [replaceAt, hsame]

theorem sizeOf_of_partAt?_cons {t c : Tree} {i : Nat} {p : List Nat}
    (h : t.partAt? (i :: p) = some c) : sizeOf c < sizeOf t := by
  induction p generalizing t i with
  | nil =>
    obtain ⟨kind, span, parts⟩ := t
    rw [partAt?, Option.bind_eq_some_iff] at h
    obtain ⟨d, hd, hc⟩ := h
    rw [partAt?, Option.some.injEq] at hc
    have hlt := List.sizeOf_lt_of_mem (List.mem_of_getElem? hd)
    rw [← hc, node.sizeOf_spec]
    omega
  | cons j p ih =>
    obtain ⟨kind, span, parts⟩ := t
    rw [partAt?, Option.bind_eq_some_iff] at h
    obtain ⟨d, hd, hc⟩ := h
    have hlt := List.sizeOf_lt_of_mem (List.mem_of_getElem? hd)
    have hbelow := ih hc
    rw [node.sizeOf_spec]
    omega

/-! ## Operands -/

/-- Some nodes that stand one after another, each with its place. -/
def numbered (parts : List Tree) : List (List Nat × Tree) :=
  parts.zipIdx.map fun (t, i) => ([i], t)

/-- The values of the properties among some members, each with its place. -/
def numberedValues (members : List Tree) : List (List Nat × Tree) :=
  members.zipIdx.filterMap fun (t, i) =>
    match t with
    | node (.property _) _ [value] => some ([i, 0], value)
    | _ => none

/-- The expressions from which the value of an expression may be computed,
each with its place. -/
def operands : Tree → List (List Nat × Tree)
  | node kind _ parts =>
    match kind with
    | .paren | .member _ | .hiddenMember _ | .computedMember | .call | .conditional | .binary _
    | .array => numbered parts
    | .template pieces => numbered (parts.take (pieces.length - 1))
    | .unary op => if op = .void then [] else numbered parts
    | .object => numberedValues parts
    | _ => []

theorem mem_numbered {parts : List Tree} {o : List Nat × Tree} :
    o ∈ numbered parts ↔ ∃ i, parts[i]? = some o.2 ∧ o.1 = [i] := by
  obtain ⟨p, t⟩ := o
  simp only [numbered, List.mem_map, Prod.exists, Prod.mk.injEq, List.mem_zipIdx_iff_getElem?]
  constructor
  · rintro ⟨c, i, hc, rfl, rfl⟩
    exact ⟨i, hc, rfl⟩
  · rintro ⟨i, hc, rfl⟩
    exact ⟨t, i, hc, rfl, rfl⟩

theorem mem_numbered_one {a : Tree} {o : List Nat × Tree} : o ∈ numbered [a] ↔ o = ([0], a) :=
  List.mem_singleton

theorem mem_numbered_two {a b : Tree} {o : List Nat × Tree} :
    o ∈ numbered [a, b] ↔ o = ([0], a) ∨ o = ([1], b) := by
  simp [numbered]

theorem mem_numbered_three {a b c : Tree} {o : List Nat × Tree} :
    o ∈ numbered [a, b, c] ↔ o = ([0], a) ∨ o = ([1], b) ∨ o = ([2], c) := by
  simp [numbered]

theorem mem_numbered_take {parts : List Tree} {n : Nat} {o : List Nat × Tree} :
    o ∈ numbered (parts.take n) ↔ ∃ i < n, parts[i]? = some o.2 ∧ o.1 = [i] := by
  rw [mem_numbered]
  constructor
  · rintro ⟨i, hi, ho⟩
    rw [List.getElem?_take, Option.ite_none_right_eq_some] at hi
    exact ⟨i, hi.1, hi.2, ho⟩
  · rintro ⟨i, hlt, hi, ho⟩
    exact ⟨i, (List.getElem?_take_of_lt hlt).trans hi, ho⟩

theorem mem_numberedValues {members : List Tree} {o : List Nat × Tree} :
    o ∈ numberedValues members ↔
      ∃ i key span, members[i]? = some (node (.property key) span [o.2]) ∧ o.1 = [i, 0] := by
  obtain ⟨p, t⟩ := o
  simp only [numberedValues, List.mem_filterMap, Prod.exists, List.mem_zipIdx_iff_getElem?]
  constructor
  · rintro ⟨c, i, hc, h⟩
    split at h
    · rename_i key span value
      rw [Option.some.injEq, Prod.mk.injEq] at h
      obtain ⟨rfl, rfl⟩ := h
      exact ⟨i, key, span, hc, rfl⟩
    · cases h
  · rintro ⟨i, key, span, hc, rfl⟩
    exact ⟨_, i, hc, rfl⟩

/-- An operand stands at its place, which is below the expression. -/
theorem partAt?_of_mem_operands {t : Tree} {o : List Nat × Tree} (h : o ∈ t.operands) :
    t.partAt? o.1 = some o.2 ∧ o.1 ≠ [] := by
  obtain ⟨kind, span, parts⟩ := t
  have hnumbered : o ∈ numbered parts → (node kind span parts).partAt? o.1 = some o.2 ∧ o.1 ≠ [] := by
    intro h
    obtain ⟨i, hi, ho⟩ := mem_numbered.1 h
    rw [ho, partAt?, hi, Option.bind_some, partAt?]
    exact ⟨rfl, List.cons_ne_nil _ _⟩
  cases kind with
  | paren | member _ | hiddenMember _ | computedMember | call | conditional | binary _ | array =>
    exact hnumbered h
  | template pieces =>
    obtain ⟨i, -, hi, ho⟩ := mem_numbered_take.1 h
    exact hnumbered (mem_numbered.2 ⟨i, hi, ho⟩)
  | unary op =>
    rw [operands] at h
    split at h
    · cases h
    · exact hnumbered h
  | object =>
    obtain ⟨i, key, inner, hi, ho⟩ := mem_numberedValues.1 h
    rw [ho, partAt?, hi, Option.bind_some, partAt?, List.getElem?_cons_zero, Option.bind_some,
      partAt?]
    exact ⟨rfl, List.cons_ne_nil _ _⟩
  | _ => cases h

theorem sizeOf_of_mem_operands {t : Tree} {o : List Nat × Tree} (h : o ∈ t.operands) :
    sizeOf o.2 < sizeOf t := by
  obtain ⟨hplace, hne⟩ := partAt?_of_mem_operands h
  obtain ⟨i, p, hp⟩ := List.exists_cons_of_ne_nil hne
  exact sizeOf_of_partAt?_cons (hp ▸ hplace)

/-- A node is reached from an expression by going on and on to the `next`
expressions. -/
inductive Reaches (next : Tree → List (List Nat × Tree)) : Tree → List Nat → Tree → Prop
  | self (t : Tree) : Reaches next t [] t
  | further {t sub : Tree} {o : List Nat × Tree} {p : List Nat} (ho : o ∈ next t)
      (h : Reaches next o.2 p sub) : Reaches next t (o.1 ++ p) sub

section

variable {next : Tree → List (List Nat × Tree)} {e t sub : Tree} {p q : List Nat}

theorem Reaches.mono {more : Tree → List (List Nat × Tree)} (hnext : ∀ t, next t ⊆ more t)
    (h : Reaches next e p sub) : Reaches more e p sub := by
  induction h with
  | self t => exact .self t
  | further ho _ ih => exact .further (hnext _ ho) ih

/-- What holds of a node and of all that is reached from the `next` ones holds
of all that is reached. -/
theorem forall_reaches {P : Tree → Prop} (he : P e)
    (hnext : ∀ o ∈ next e, ∀ p sub, Reaches next o.2 p sub → P sub) :
    ∀ p sub, Reaches next e p sub → P sub := by
  intro p sub h
  cases h with
  | self => exact he
  | further ho h => exact hnext _ ho _ sub h

/-- What is reached by operands stands at its place. -/
theorem Reaches.partAt?_eq (h : Reaches operands e p sub) : e.partAt? p = some sub := by
  induction h with
  | self t => rfl
  | further ho _ ih => rw [partAt?_append, (partAt?_of_mem_operands ho).1, Option.bind_some, ih]

theorem eq_of_mem_operands {o o' : List Nat × Tree} (ho : o ∈ e.operands) (ho' : o' ∈ e.operands)
    (h : o.1 = o'.1) : o = o' := by
  have h₁ := (partAt?_of_mem_operands ho).1
  have h₂ := (partAt?_of_mem_operands ho').1
  rw [h, h₂, Option.some.injEq] at h₁
  exact Prod.ext h h₁.symm

/-! ## Spans -/

/-- The operands lie within their expression and share no byte, those of a
conditional have bytes, and so it goes on with the operands of the operands.
The trees that are read from a text are like this. -/
inductive SpansNest : Tree → Prop
  | intro {t : Tree} (within : ∀ o ∈ t.operands, t.span.containsSpan o.2.span)
      (apart : ∀ o ∈ t.operands, ∀ o' ∈ t.operands, o.1 ≠ o'.1 → ¬ o.2.span.overlaps o'.2.span)
      (nonempty : t.kind = .conditional → ∀ o ∈ t.operands, o.2.span.start < o.2.span.stop)
      (deeper : ∀ o ∈ t.operands, SpansNest o.2) : SpansNest t

/-- What is reached by operands lies within the expression. -/
theorem SpansNest.of_reaches (hnest : SpansNest e) (h : Reaches operands e p sub) :
    SpansNest sub ∧ e.span.start ≤ sub.span.start ∧ sub.span.stop ≤ e.span.stop := by
  induction h with
  | self t => exact ⟨hnest, Nat.le_refl _, Nat.le_refl _⟩
  | further ho _ ih =>
    obtain ⟨hwithin, -, -, hdeeper⟩ := hnest
    have hspan := hwithin _ ho
    simp only [Span.containsSpan, Bool.and_eq_true, decide_eq_true_iff] at hspan
    obtain ⟨hsub, hstart, hstop⟩ := ih (hdeeper _ ho)
    exact ⟨hsub, by omega, by omega⟩

theorem SpansNest.not_overlaps (hnest : SpansNest e) {o o' : List Nat × Tree}
    (ho : o ∈ e.operands) (ho' : o' ∈ e.operands) (h : o.1 ≠ o'.1) :
    o.2.span.stop ≤ o'.2.span.start ∨ o'.2.span.stop ≤ o.2.span.start := by
  obtain ⟨-, hapart, -, -⟩ := hnest
  have := hapart o ho o' ho' h
  simp only [Span.overlaps, Bool.and_eq_true, decide_eq_true_iff] at this
  omega

variable {s s' : Span} {a b c a' b' c' : Tree}

/-- **A test leaves some of its conditional uncovered.** -/
theorem SpansNest.test_span (hnest : SpansNest (node .conditional s [a, b, c])) :
    a.span.start < a.span.stop ∧ s.start ≤ a.span.start ∧ a.span.stop ≤ s.stop ∧
      (s.start < a.span.start ∨ a.span.stop < s.stop) := by
  have ha : ([0], a) ∈ (node .conditional s [a, b, c]).operands :=
    mem_numbered.2 ⟨0, rfl, rfl⟩
  have hb : ([1], b) ∈ (node .conditional s [a, b, c]).operands :=
    mem_numbered.2 ⟨1, rfl, rfl⟩
  have hapart := hnest.not_overlaps ha hb (by simp)
  obtain ⟨-, ha'⟩ := hnest.of_reaches (.further ha (.self a))
  obtain ⟨-, hb'⟩ := hnest.of_reaches (.further hb (.self b))
  obtain ⟨-, -, hnonempty, -⟩ := hnest
  have hastop := hnonempty rfl _ ha
  have hbstop := hnonempty rfl _ hb
  rw [span] at ha' hb'
  dsimp only at hastop hbstop hapart
  omega

/-- The test of a conditional below another has another span. -/
theorem SpansNest.test_span_ne (hnest : SpansNest (node .conditional s [a, b, c]))
    {o : List Nat × Tree} (ho : o ∈ (node .conditional s [a, b, c]).operands)
    (h : Reaches operands o.2 p (node .conditional s' [a', b', c'])) : a'.span ≠ a.span := by
  have hdeeper : SpansNest o.2 := (hnest.of_reaches (.further ho (.self o.2))).1
  obtain ⟨hinner, hstart, hstop⟩ := hdeeper.of_reaches h
  have htest := hinner.test_span
  rw [span] at hstart hstop
  intro heq
  by_cases ho0 : o.1 = [0]
  · have ha : ([0], a) ∈ (node .conditional s [a, b, c]).operands :=
      mem_numbered.2 ⟨0, rfl, rfl⟩
    have hoa : o.2 = a := congrArg Prod.snd (eq_of_mem_operands ho ha ho0)
    rw [hoa, ← heq] at hstart hstop
    omega
  · have ha : ([0], a) ∈ (node .conditional s [a, b, c]).operands :=
      mem_numbered.2 ⟨0, rfl, rfl⟩
    have hapart := hnest.not_overlaps ho ha ho0
    rw [← heq] at hapart
    omega

/-- **The span of its test tells which conditional it is**, among those that
are reached by operands. -/
theorem SpansNest.place_eq (hnest : SpansNest e)
    (hp : Reaches operands e p (node .conditional s [a, b, c]))
    (hq : Reaches operands e q (node .conditional s' [a', b', c']))
    (hspan : a.span = a'.span) : p = q := by
  generalize hsub : node .conditional s [a, b, c] = sub at hp
  generalize hsub' : node .conditional s' [a', b', c'] = sub' at hq
  induction hp generalizing q sub' with
  | self t =>
    subst hsub
    cases hq with
    | self => rfl
    | further ho' hq' =>
      subst hsub'
      exact absurd hspan.symm (hnest.test_span_ne ho' hq')
  | @further t sub o p ho hp' ih =>
    subst hsub
    cases hq with
    | self =>
      subst hsub'
      exact absurd hspan (hnest.test_span_ne ho hp')
    | @further _ _ o' q' ho' hq' =>
      subst hsub'
      have hdeeper : SpansNest o.2 := (hnest.of_reaches (.further ho (.self o.2))).1
      by_cases hplace : o.1 = o'.1
      · have heq := eq_of_mem_operands ho ho' hplace
        subst heq
        rw [ih hdeeper rfl _ rfl hq']
      · have hdeeper' : SpansNest o'.2 := (hnest.of_reaches (.further ho' (.self o'.2))).1
        have hapart := hnest.not_overlaps ho ho' hplace
        obtain ⟨hinner, hstart, hstop⟩ := hdeeper.of_reaches hp'
        obtain ⟨hinner', hstart', hstop'⟩ := hdeeper'.of_reaches hq'
        have htest := hinner.test_span
        have htest' := hinner'.test_span
        rw [hspan] at htest
        rw [span] at hstart hstop hstart' hstop'
        omega

end

end ModuleAssets.Syntax.Tree
