import ModuleAssets.Proofs.Syntax.Place
import ModuleAssets.Relocation.SpecialCase
/-!
# Layout — how a tree lies over its text

In a tree that is read from a text each node covers some of it, the parts of a
node lie within the node, and no two of them share any text. There are three
things to know besides. An item left out of an array covers nothing. The function
of a method covers the whole method, so that it covers a key, too. And nodes that
a rule puts in stand nowhere: these, like what is left out, are bare.

A node that lies so has room for an overwrite wherever another one of the tree is
overwritten: it covers that, or it stands apart from it.
-/

namespace ModuleAssets

namespace Span

/-- One of the spans ends before the other begins. -/
def Apart (s other : Span) : Prop :=
  s.stop ≤ other.start ∨ other.stop ≤ s.start

/-- The span lies in another. -/
def Within (s other : Span) : Prop :=
  other.start ≤ s.start ∧ s.stop ≤ other.stop

/-- An overwrite of the span goes with an earlier one of the other: it covers that,
or it stands apart. -/
def Admits (s other : Span) : Prop :=
  other.Within s ∨ s.Apart other

instance (s other : Span) : Decidable (s.Apart other) :=
  inferInstanceAs (Decidable (_ ∨ _))

instance (s other : Span) : Decidable (s.Within other) :=
  inferInstanceAs (Decidable (_ ∧ _))

theorem Within.refl (s : Span) : s.Within s :=
  ⟨Nat.le_refl _, Nat.le_refl _⟩

theorem Within.trans {a b c : Span} (h : a.Within b) (h' : b.Within c) : a.Within c :=
  ⟨Nat.le_trans h'.1 h.1, Nat.le_trans h.2 h'.2⟩

theorem Apart.symm {a b : Span} (h : a.Apart b) : b.Apart a :=
  Or.symm h

theorem Apart.mono {a b c : Span} (h : a.Apart b) (hwithin : c.Within a) : c.Apart b := by
  simp only [Apart, Within] at *
  omega

theorem Admits.refl (s : Span) : s.Admits s :=
  .inl (.refl s)

theorem Admits.mono {a b c : Span} (h : a.Admits b) (hwithin : c.Within b) : a.Admits c := by
  obtain hcovers | hapart := h
  · exact .inl (hwithin.trans hcovers)
  · exact .inr (hapart.symm.mono hwithin).symm

end Span

namespace Syntax

/-- A node of the kind may have bare parts. -/
def Kind.mayHoldBare : Kind → Bool
  | .array | .arrayPattern | .binary _ => true
  | _ => false

/-- A node of the kind is a method. -/
def Kind.isMethod : Kind → Bool
  | .method _ => true
  | _ => false

/-- A node of the kind binds a name. -/
def Kind.isBinding : Kind → Bool
  | .binding _ => true
  | _ => false

namespace Tree

/-- The node covers no text: it is left out, or put in by a rule. -/
def isBare : Tree → Bool
  | node .hole _ [] => true
  | node (.identifier name) span [] => name == "__dirname" && span == SpecialCase.nowhere
  | node (.text _) span [] => span == SpecialCase.nowhere
  | _ => false

/-- The node is a function that is no declaration. -/
def isFunction (t : Tree) : Bool :=
  t.kind matches .function _

/-- Two parts of a node share no text. Only the function of a method covers the
key before it, but the function's own parts do not. -/
def Beside (kind : Kind) (a b : Tree) : Prop :=
  a.isBare = true ∨ b.isBare = true ∨ a.span.Apart b.span ∨
    (kind.isMethod = true ∧ b.isFunction = true ∧ a.span.Within b.span ∧
      ∀ part ∈ b.parts, a.span.Apart part.span)

instance (kind : Kind) (a b : Tree) : Decidable (Beside kind a b) :=
  inferInstanceAs (Decidable (_ ∨ _ ∨ _ ∨ (_ ∧ _ ∧ _ ∧ _)))

/-- The part covers some text of its node, or it is bare where it may be. -/
def Placed (kind : Kind) (span : Span) (part : Tree) : Prop :=
  kind.mayHoldBare = true ∧ part.isBare = true ∨
    part.isBare = false ∧ part.span.start < part.span.stop ∧ part.span.Within span

instance (kind : Kind) (span : Span) (part : Tree) : Decidable (Placed kind span part) :=
  inferInstanceAs (Decidable (_ ∧ _ ∨ _ ∧ _ ∧ _))

/-- The parts of a node are laid out one beside the other. A call starts with what
it calls, and a name that is bound has no parts. -/
def Arranged (kind : Kind) (span : Span) (parts : List Tree) : Prop :=
  (∀ part ∈ parts, Placed kind span part) ∧ parts.Pairwise (Beside kind) ∧
    (kind = .call → ∀ argument ∈ parts.tail, span.start < argument.span.start) ∧
    (kind.isBinding = true → parts = [])

instance (kind : Kind) (span : Span) (parts : List Tree) : Decidable (Arranged kind span parts) :=
  inferInstanceAs (Decidable (_ ∧ _ ∧ (_ → _) ∧ (_ → _)))

mutual

/-- All nodes of the tree have their parts laid out. -/
def Laid : Tree → Prop
  | node kind span parts => Arranged kind span parts ∧ LaidIn parts

/-- `Laid` for trees one after another. -/
def LaidIn : List Tree → Prop
  | [] => True
  | t :: rest => Laid t ∧ LaidIn rest

end

mutual

/-- Decides whether a tree is laid out. -/
def decideLaid : (t : Tree) → Decidable t.Laid
  | node kind span parts =>
    have := decideLaidIn parts
    inferInstanceAs (Decidable (Arranged kind span parts ∧ LaidIn parts))

/-- `decideLaid` for trees one after another. -/
def decideLaidIn : (ts : List Tree) → Decidable (LaidIn ts)
  | [] => inferInstanceAs (Decidable True)
  | t :: rest =>
    have := decideLaid t
    have := decideLaidIn rest
    inferInstanceAs (Decidable (Laid t ∧ LaidIn rest))

end

instance (t : Tree) : Decidable t.Laid :=
  decideLaid t

theorem laidIn_iff {ts : List Tree} : LaidIn ts ↔ ∀ t ∈ ts, t.Laid := by
  induction ts with
  | nil => simp [LaidIn]
  | cons t rest ih => rw [LaidIn, ih, List.forall_mem_cons]

theorem laid_node {kind : Kind} {span : Span} {parts : List Tree} :
    (node kind span parts).Laid ↔ Arranged kind span parts ∧ ∀ part ∈ parts, part.Laid := by
  rw [Laid, laidIn_iff]

/-- All nodes of the tree may be overwritten beside an overwrite of the span. -/
def Admits (t : Tree) (span : Span) : Prop :=
  ∀ n, t.Contains n → n.isBare = false → n.span.Admits span

variable {t n a b : Tree} {kind : Kind} {span span' : Span} {parts : List Tree}

/-! ## Trees that are laid out -/

theorem Laid.part {part : Tree} (h : t.Laid) (hpart : part ∈ t.parts) : part.Laid := by
  obtain ⟨kind, span, parts⟩ := t
  exact (laid_node.1 h).2 part hpart

theorem Laid.arranged (h : t.Laid) : Arranged t.kind t.span t.parts := by
  obtain ⟨kind, span, parts⟩ := t
  exact (laid_node.1 h).1

theorem parts_of_isBare (h : t.isBare = true) : t.parts = [] := by
  unfold isBare at h
  split at h
  · rfl
  · rfl
  · rfl
  · cases h

/-- The one name that a bare node may read. -/
theorem name_of_isBare {name : String} (h : (node (.identifier name) span parts).isBare = true) :
    name = "__dirname" := by
  unfold isBare at h
  split at h
  · rename_i heq
    cases heq
  · rename_i heq
    cases heq
    simp only [Bool.and_eq_true, beq_iff_eq] at h
    exact h.1
  · rename_i heq
    cases heq
  · cases h

/-- A name that is read covers text, unless it is that of the directory. -/
theorem not_bare_of_isIdentifier {name : String} (h : t.isIdentifier name = true)
    (hname : name ≠ "__dirname") : t.isBare = false := by
  obtain ⟨kind, span, parts⟩ := t
  obtain rfl : kind = .identifier name := beq_iff_eq.1 h
  rw [Bool.eq_false_iff]
  exact fun hbare => hname (name_of_isBare hbare)

/-- What has a part covers text. -/
theorem not_bare_of_mem {part : Tree} (hpart : part ∈ t.parts) : t.isBare = false := by
  rw [Bool.eq_false_iff]
  intro hbare
  rw [parts_of_isBare hbare] at hpart
  cases hpart

/-- A part that stands somewhere in a node that is laid out lies in the node. -/
theorem Placed.within {part : Tree} (h : Placed kind span part)
    (hbare : part.isBare = false) :
    part.span.start < part.span.stop ∧ part.span.Within span := by
  obtain ⟨-, hpart⟩ | ⟨-, hpart⟩ := h
  · exact absurd (hbare.symm.trans hpart) Bool.false_ne_true
  · exact hpart

theorem Placed.of_not_mayHoldBare {part : Tree} (h : Placed kind span part)
    (hkind : kind.mayHoldBare = false) :
    part.isBare = false ∧ part.span.start < part.span.stop ∧ part.span.Within span := by
  obtain ⟨hholds, -⟩ | hpart := h
  · exact absurd (hkind.symm.trans hholds) Bool.false_ne_true
  · exact hpart

/-- Within a tree that is laid out, all that covers text lies in a part of it. -/
theorem Laid.within {t n : Tree} (h : t.Laid) (hn : t.Contains n) (hbare : n.isBare = false) :
    n = t ∨ ∃ part ∈ t.parts, part.isBare = false ∧ part.Contains n ∧ n.span.Within part.span := by
  obtain rfl | ⟨part, hpart, hcontains⟩ := contains_iff.1 hn
  · exact .inl rfl
  have hpartBare : part.isBare = false := by
    obtain rfl | ⟨inner, hinner, -⟩ := contains_iff.1 hcontains
    · exact hbare
    · exact not_bare_of_mem hinner
  refine .inr ⟨part, hpart, hpartBare, hcontains, ?_⟩
  obtain rfl | ⟨inner, hinner, hinnerBare, -, hwithin⟩ := Laid.within (h.part hpart) hcontains hbare
  · exact .refl _
  · exact hwithin.trans (((h.part hpart).arranged.1 inner hinner).within hinnerBare).2
termination_by sizeOf t
decreasing_by
  obtain ⟨kind, span, parts⟩ := t
  have hlt := List.sizeOf_lt_of_mem hpart
  rw [node.sizeOf_spec]
  exact Nat.lt_of_lt_of_le hlt (Nat.le_add_left _ _)

theorem Laid.span_within (h : t.Laid) (hn : t.Contains n) (hbare : n.isBare = false) :
    n.span.Within t.span := by
  obtain rfl | ⟨part, hpart, hpartBare, -, hwithin⟩ := h.within hn hbare
  · exact .refl _
  · exact hwithin.trans ((h.arranged.1 part hpart).within hpartBare).2

/-! ## Room for overwrites -/

theorem admits_node : (node kind span parts).Admits span' ↔
    ((node kind span parts).isBare = false → span.Admits span') ∧
      ∀ part ∈ parts, part.Admits span' := by
  constructor
  · intro h
    exact ⟨h _ (.refl _), fun part hpart n hn => h n (contains_iff.2 (.inr ⟨part, hpart, hn⟩))⟩
  · rintro ⟨hspan, hparts⟩ n hn hbare
    obtain rfl | ⟨part, hpart, hcontains⟩ := contains_iff.1 hn
    · exact hspan hbare
    · exact hparts part hpart n hcontains hbare

theorem Admits.part {part : Tree} (h : t.Admits span) (hpart : part ∈ t.parts) : part.Admits span :=
  fun n hn => h n (contains_iff.2 (.inr ⟨part, hpart, hn⟩))

theorem Admits.mono (h : t.Admits span) (hwithin : span'.Within span) : t.Admits span' :=
  fun n hn hbare => (h n hn hbare).mono hwithin

/-- What stands apart from a tree leaves room in it. -/
theorem Laid.admits_of_apart (h : t.Laid) (hapart : t.isBare = false → t.span.Apart span) :
    t.Admits span := by
  intro n hn hbare
  have htree : t.isBare = false := by
    obtain rfl | ⟨part, hpart, -⟩ := contains_iff.1 hn
    · exact hbare
    · exact not_bare_of_mem hpart
  exact .inr ((hapart htree).mono (h.span_within hn hbare))

/-- **An overwrite of a part leaves room in the parts after it.** -/
theorem Beside.admits (h : Beside kind a b) (hb : b.Laid) (hbare : a.isBare = false) :
    b.Admits a.span := by
  obtain habare | hbbare | hapart | ⟨-, hfunction, hwithin, hparts⟩ := h
  · exact absurd (hbare.symm.trans habare) Bool.false_ne_true
  · exact hb.admits_of_apart fun hbare => absurd (hbare.symm.trans hbbare) Bool.false_ne_true
  · exact hb.admits_of_apart fun _ => hapart.symm
  · intro n hn hnbare
    obtain rfl | ⟨part, hpart, -, -, hinner⟩ := hb.within hn hnbare
    · exact .inl hwithin
    · exact .inr ((hparts part hpart).symm.mono hinner)

/-- Two parts that cover text are apart, but for those of methods. -/
theorem Beside.apart (h : Beside kind a b) (ha : a.isBare = false) (hb : b.isBare = false)
    (hkind : kind.isMethod = false) : a.span.Apart b.span := by
  obtain habare | hbbare | hapart | ⟨hmethod, -⟩ := h
  · exact absurd (ha.symm.trans habare) Bool.false_ne_true
  · exact absurd (hb.symm.trans hbbare) Bool.false_ne_true
  · exact hapart
  · exact absurd (hkind.symm.trans hmethod) Bool.false_ne_true

/-- An overwrite of a part leaves room in the parts before it, too, but for those of
methods. -/
theorem Beside.admits_before (h : Beside kind a b) (ha : a.Laid) (hbare : b.isBare = false)
    (hkind : kind.isMethod = false) : a.Admits b.span :=
  ha.admits_of_apart fun habare => h.apart habare hbare hkind

end Tree

end Syntax

end ModuleAssets
