import ModuleAssets.Proofs.Syntax.Binding
import Mathlib.Tactic.Common
/-!
# Scopes — how they are collected

`ScopeTree.collect` goes through a tree once. At each node it may declare names
in the scope around and open a scope of its own, and then it goes on with the
parts. Scopes that are there keep their kind and parent; of the names that are
not `strays`, each is declared in the scope where the language has it.
-/

namespace ModuleAssets.Syntax

open ModuleAssets.Syntax.Tree

theorem Scope.declares_declare {s : Scope} {name n : String} :
    (s.declare name).declares n = true ↔ s.declares n = true ∨ n = name := by
  rw [Scope.declare]
  split
  · rename_i h
    refine ⟨.inl, fun hn => hn.elim (fun h => h) fun heq => heq ▸ h⟩
  · simp [Scope.declares]

/-- What opened a scope, and where, does not change with its names. -/
theorem Scope.opener_declare (s : Scope) (name : String) :
    (s.declare name).kind = s.kind ∧ (s.declare name).parent = s.parent := by
  rw [Scope.declare]
  split
  · exact ⟨rfl, rfl⟩
  · exact ⟨rfl, rfl⟩

namespace ScopeTree

/-! ## Single nodes -/

/-- What a node declares and opens, and the scope in which its parts are then
collected. -/
def opened (current : Nat) (t : ScopeTree) (kind : Kind) (span : Span) (parts : List Tree) :
    ScopeTree × Nat :=
  let id := t.scopes.length
  match kind with
  | .functionDeclaration name =>
    (((t.declare current name).openScope .function span (some current)).declareAll id
      (boundNamesIn parts.dropLast), id)
  | .function name =>
    (((t.openScope .function span (some current)).declareAll id name.toList).declareAll id
      (boundNamesIn parts.dropLast), id)
  | .arrow =>
    ((t.openScope .function span (some current)).declareAll id (boundNamesIn parts.dropLast), id)
  | .classDeclaration name => (t.declare current name, current)
  | .declarations how =>
    (t.declareAll (t.target current how) (boundNamesIn (declaredPatterns parts)), current)
  | .import_ _ imports => (t.declareAll current (importedNames imports), current)
  | .block => (t.openScope .block span (some current), id)
  | .catch_ =>
    ((t.openScope .catch_ span (some current)).declareAll id (boundNamesIn parts.dropLast), id)
  | _ => (t, current)

theorem collect_node (current : Nat) (t : ScopeTree) (kind : Kind) (span : Span)
    (parts : List Tree) :
    collect current t (node kind span parts) =
      collectAll (opened current t kind span parts).2 (opened current t kind span parts).1
        (visited kind parts) := by
  cases kind <;> simp only [collect, opened, visited, collectAll]

/-! ## Names in scopes -/

section

variable {t : ScopeTree} {id i : Nat} {name n : String} {names : List String}

/-- One more name is declared in a scope that is there. -/
theorem declares_declare (hid : id < t.scopes.length) :
    (t.declare id name).declares i n = true ↔ t.declares i n = true ∨ i = id ∧ n = name := by
  rw [declares, declares, declare, get?, get?, List.getElem?_modify]
  by_cases h : id = i
  · subst h
    rw [List.getElem?_eq_getElem hid]
    simp [Scope.declares_declare]
  · simp [h, Ne.symm h]

theorem length_declare : (t.declare id name).scopes.length = t.scopes.length := by
  rw [declare, List.length_modify]

theorem length_declareAll : (t.declareAll id names).scopes.length = t.scopes.length := by
  induction names generalizing t with
  | nil => rfl
  | cons name names ih =>
    rw [declareAll, List.foldl_cons]
    exact ih.trans length_declare

theorem declares_declareAll (hid : id < t.scopes.length) :
    (t.declareAll id names).declares i n = true ↔
      t.declares i n = true ∨ i = id ∧ n ∈ names := by
  induction names generalizing t with
  | nil => simp [declareAll]
  | cons name names ih =>
    have hlater := ih (t := t.declare id name) (length_declare.symm ▸ hid)
    rw [declareAll] at hlater ⊢
    rw [List.foldl_cons, hlater, declares_declare hid, List.mem_cons]
    tauto

theorem length_openScope {kind : ScopeKind} {span : Span} {parent : Option Nat} :
    (t.openScope kind span parent).scopes.length = t.scopes.length + 1 := by
  rw [openScope, List.length_append, List.length_singleton]

/-- A new scope declares nothing. -/
theorem declares_openScope {kind : ScopeKind} {span : Span} {parent : Option Nat} :
    (t.openScope kind span parent).declares i n = true ↔ t.declares i n = true := by
  rw [declares, declares, openScope, get?, get?]
  obtain h | h | h := Nat.lt_trichotomy i t.scopes.length
  · rw [List.getElem?_append_left h]
  · subst h
    simp [Scope.declares]
  · rw [List.getElem?_eq_none (by simp; omega), List.getElem?_eq_none (by omega)]

end

/-! ## Scopes that are there stay -/

/-- Scopes may have been opened and names declared since. -/
structure Grows (t t' : ScopeTree) : Prop where
  length_le : t.scopes.length ≤ t'.scopes.length
  kept : ∀ id s, t.get? id = some s →
    ∃ s', t'.get? id = some s' ∧ s'.kind = s.kind ∧ s'.parent = s.parent

namespace Grows

variable {t t' t'' : ScopeTree}

theorem refl (t : ScopeTree) : Grows t t :=
  ⟨Nat.le_refl _, fun _ s h => ⟨s, h, rfl, rfl⟩⟩

theorem trans (h : Grows t t') (h' : Grows t' t'') : Grows t t'' := by
  refine ⟨Nat.le_trans h.length_le h'.length_le, fun id s hs => ?_⟩
  obtain ⟨s', hs', hkind, hparent⟩ := h.kept id s hs
  obtain ⟨s'', hs'', hkind', hparent'⟩ := h'.kept id s' hs'
  exact ⟨s'', hs'', hkind'.trans hkind, hparent'.trans hparent⟩

theorem declare (t : ScopeTree) (id : Nat) (name : String) : Grows t (t.declare id name) := by
  refine ⟨Nat.le_of_eq length_declare.symm, fun i s hs => ?_⟩
  rw [get?] at hs
  rw [get?, ScopeTree.declare, List.getElem?_modify, hs]
  refine ⟨_, rfl, ?_⟩
  split
  · exact Scope.opener_declare s name
  · exact ⟨rfl, rfl⟩

theorem declareAll (t : ScopeTree) (id : Nat) (names : List String) :
    Grows t (t.declareAll id names) := by
  induction names generalizing t with
  | nil => exact refl t
  | cons name names ih => exact (declare t id name).trans (ih _)

theorem openScope (t : ScopeTree) (kind : ScopeKind) (span : Span) (parent : Option Nat) :
    Grows t (t.openScope kind span parent) := by
  refine ⟨length_openScope ▸ Nat.le_succ _, fun i s hs => ?_⟩
  have hlt : i < t.scopes.length := (List.getElem?_eq_some_iff.1 hs).1
  rw [get?] at hs
  rw [get?, ScopeTree.openScope, List.getElem?_append_left hlt, hs]
  exact ⟨s, rfl, rfl, rfl⟩

theorem opened (current : Nat) (t : ScopeTree) (kind : Kind) (span : Span) (parts : List Tree) :
    Grows t (opened current t kind span parts).1 := by
  unfold ScopeTree.opened
  split
  · exact ((declare _ _ _).trans (openScope _ _ _ _)).trans (declareAll _ _ _)
  · exact ((openScope _ _ _ _).trans (declareAll _ _ _)).trans (declareAll _ _ _)
  · exact (openScope _ _ _ _).trans (declareAll _ _ _)
  · exact declare _ _ _
  · exact declareAll _ _ _
  · exact declareAll _ _ _
  · exact openScope _ _ _ _
  · exact (openScope _ _ _ _).trans (declareAll _ _ _)
  · exact refl t

mutual

theorem collect (current : Nat) (t : ScopeTree) : ∀ tree : Tree,
    Grows t (ScopeTree.collect current t tree)
  | node kind span parts => by
    rw [collect_node]
    refine (opened current t kind span parts).trans ?_
    cases kind
    case import_ => exact refl _
    all_goals exact collectAll _ _ parts

theorem collectAll (current : Nat) (t : ScopeTree) : ∀ parts : List Tree,
    Grows t (ScopeTree.collectAll current t parts)
  | [] => refl t
  | tree :: rest => (collect current t tree).trans (collectAll current _ rest)

end

end Grows

/-! ## Where `var` declares -/

/-- What `var` declares in the first scope belongs to the second. -/
inductive HoistsTo (t : ScopeTree) : Nat → Nat → Prop
  | here {id : Nat} {s : Scope} (h : t.get? id = some s) (htakes : s.isFunctionLike = true) :
      HoistsTo t id id
  | up {id parent top : Nat} {s : Scope} (h : t.get? id = some s)
      (htakes : s.isFunctionLike = false) (hparent : s.parent = some parent) (hlt : parent < id)
      (htop : HoistsTo t parent top) : HoistsTo t id top

namespace HoistsTo

variable {t t' : ScopeTree} {current top : Nat}

theorem functionScope_eq (h : HoistsTo t current top) {fuel : Nat} (hfuel : current < fuel) :
    t.functionScope fuel current = top := by
  induction h generalizing fuel with
  | here h htakes =>
    obtain ⟨fuel, rfl⟩ := Nat.exists_eq_add_one.2 (Nat.zero_lt_of_lt hfuel)
    rw [functionScope, h]
    exact if_pos htakes
  | up h htakes hparent hlt _ ih =>
    obtain ⟨fuel, rfl⟩ := Nat.exists_eq_add_one.2 (Nat.zero_lt_of_lt hfuel)
    have hup := @ih fuel (by omega)
    rw [functionScope, h]
    simp [htakes, hparent, hup]

theorem lt_length (h : HoistsTo t current top) : current < t.scopes.length := by
  cases h with
  | here h _ => exact (List.getElem?_eq_some_iff.1 h).1
  | up h _ _ _ _ => exact (List.getElem?_eq_some_iff.1 h).1

theorem le (h : HoistsTo t current top) : top ≤ current := by
  induction h with
  | here _ _ => exact Nat.le_refl _
  | up _ _ _ hlt _ ih => omega

theorem target_var (h : HoistsTo t current top) : t.target current .var = top :=
  h.functionScope_eq h.lt_length

theorem grows (h : HoistsTo t current top) (hgrows : Grows t t') : HoistsTo t' current top := by
  induction h with
  | here h htakes =>
    obtain ⟨s', hs', hkind, -⟩ := hgrows.kept _ _ h
    exact .here hs' (by rw [Scope.isFunctionLike, hkind]; exact htakes)
  | up h htakes hparent hlt _ ih =>
    obtain ⟨s', hs', hkind, hparent'⟩ := hgrows.kept _ _ h
    exact .up hs' (by rw [Scope.isFunctionLike, hkind]; exact htakes) (hparent'.trans hparent)
      hlt ih

/-- A new function or program takes what `var` declares. -/
theorem openFunction (t : ScopeTree) (span : Span) (parent : Option Nat) :
    HoistsTo (t.openScope .function span parent) t.scopes.length t.scopes.length :=
  .here (by rw [get?, openScope, List.getElem?_concat_length]) rfl

/-- Other new scopes leave it to the scope around. -/
theorem openInner (h : HoistsTo t current top) {kind : ScopeKind} (span : Span)
    (hkind : kind = .block ∨ kind = .catch_) :
    HoistsTo (t.openScope kind span (some current)) t.scopes.length top := by
  refine .up (s := ⟨some current, kind, span, []⟩) ?_ ?_ rfl h.lt_length
    (h.grows (.openScope t kind span _))
  · rw [get?, openScope, List.getElem?_concat_length]
  · obtain rfl | rfl := hkind
    · rfl
    · rfl

end HoistsTo

/-- The node is a function. -/
def isFunction : Kind → Bool
  | .functionDeclaration _ | .function _ | .arrow => true
  | _ => false

theorem HoistsTo.opened {t : ScopeTree} {current top : Nat} (h : HoistsTo t current top)
    (kind : Kind) (span : Span) (parts : List Tree) :
    HoistsTo (opened current t kind span parts).1 (ScopeTree.opened current t kind span parts).2
      (if isFunction kind then t.scopes.length else top) := by
  have hfunction : HoistsTo (t.openScope .function span (some current)) t.scopes.length
      t.scopes.length := .openFunction t span _
  cases kind
  case functionDeclaration name =>
    have hname := HoistsTo.openFunction (t.declare current name) span (some current)
    rw [length_declare] at hname
    exact hname.grows (.declareAll _ _ _)
  case function name => exact (hfunction.grows (.declareAll _ _ _)).grows (.declareAll _ _ _)
  case arrow => exact hfunction.grows (.declareAll _ _ _)
  case classDeclaration name => exact h.grows (.declare _ _ _)
  case declarations how => exact h.grows (.declareAll _ _ _)
  case import_ specifier imports => exact h.grows (.declareAll _ _ _)
  case block => exact h.openInner span (.inl rfl)
  case catch_ => exact (h.openInner span (.inr rfl)).grows (.declareAll _ _ _)
  all_goals exact h

/-! ## What is declared where -/

section

variable {t : ScopeTree} {current top i : Nat} {n : String}

/-- In the scopes that were there, a node declares its own names. -/
theorem declares_opened (h : HoistsTo t current top) {kind : Kind} {parts : List Tree}
    (hn : n ∉ ownStrays kind parts) (hi : i < t.scopes.length) (span : Span) :
    (opened current t kind span parts).1.declares i n = true ↔
      t.declares i n = true ∨ (i = current ∧ n ∈ ownLexical kind parts) ∨
        (i = top ∧ n ∈ ownVars kind parts) := by
  have hlt := h.lt_length
  have htop := h.le
  have hne : i ≠ t.scopes.length := Nat.ne_of_lt hi
  cases kind
  case functionDeclaration name =>
    rw [opened, declares_declareAll (by rw [length_openScope, length_declare]; omega),
      declares_openScope, declares_declare hlt]
    simp [ownLexical, ownVars, hne]
  case function name =>
    rw [opened, declares_declareAll (by rw [length_declareAll, length_openScope]; omega),
      declares_declareAll (by rw [length_openScope]; omega), declares_openScope]
    simp [ownLexical, ownVars, hne]
  case arrow =>
    rw [opened, declares_declareAll (by rw [length_openScope]; omega), declares_openScope]
    simp [ownLexical, ownVars, hne]
  case classDeclaration name =>
    rw [opened, declares_declare hlt]
    simp [ownLexical, ownVars]
  case declarations how =>
    rw [opened]
    cases how with
    | var =>
      rw [h.target_var, declares_declareAll (by omega)]
      simp [ownLexical, ownVars]
    | let_ =>
      rw [show t.target current .let_ = current from rfl, declares_declareAll hlt]
      simp [ownLexical, ownVars]
    | const =>
      rw [show t.target current .const = current from rfl, declares_declareAll hlt]
      simp [ownLexical, ownVars]
  case import_ specifier imports =>
    rw [opened, declares_declareAll hlt]
    simp [ownLexical, ownVars]
  case block =>
    rw [opened, declares_openScope]
    simp [ownLexical, ownVars]
  case catch_ =>
    rw [opened, declares_declareAll (by rw [length_openScope]; omega), declares_openScope]
    simp [ownLexical, ownVars, hne]
  case exportDefault =>
    have hnot : n ∉ parts.flatMap exportedName := hn
    show t.declares i n = true ↔ t.declares i n = true ∨
      (i = current ∧ n ∈ parts.flatMap exportedName) ∨ (i = top ∧ n ∈ [])
    simp only [hnot, List.not_mem_nil, and_false, or_false]
  all_goals simp [opened, ownLexical, ownVars]

/-- What the parts of a node declare is declared around the node or, in a scope
of the node itself, stays inside. -/
theorem mem_lexicalIn_opened {kind : Kind} {parts : List Tree} (hn : n ∉ ownStrays kind parts)
    (hvisited : visited kind parts = parts) (hi : i < t.scopes.length) (span : Span) :
    (i = (opened current t kind span parts).2 ∧ n ∈ lexicalIn parts) ↔
      i = current ∧ n ∈ if keepsLexical kind then [] else lexicalIn parts := by
  have hne : i ≠ t.scopes.length := Nat.ne_of_lt hi
  cases kind
  case import_ specifier imports =>
    rw [← hvisited]
    simp [visited, lexicalIn]
  all_goals simp_all [opened, keepsLexical, ownStrays]

/-- And so with `var`. -/
theorem mem_varsIn_opened {kind : Kind} {parts : List Tree} (hn : n ∉ ownStrays kind parts)
    (hvisited : visited kind parts = parts) (hi : i < t.scopes.length) :
    (i = (if isFunction kind then t.scopes.length else top) ∧ n ∈ varsIn parts) ↔
      i = top ∧ n ∈ if keepsVars kind then [] else varsIn parts := by
  have hne : i ≠ t.scopes.length := Nat.ne_of_lt hi
  cases kind
  case import_ specifier imports =>
    rw [← hvisited]
    simp [visited, varsIn]
  all_goals simp_all [isFunction, keepsVars, ownStrays]

end

theorem or_and_or_and {a b c d e p q : Prop} :
    (a ∨ p ∧ b ∨ q ∧ c) ∨ p ∧ d ∨ q ∧ e ↔ a ∨ p ∧ (b ∨ d) ∨ q ∧ (c ∨ e) := by
  tauto

mutual

/-- **Scopes that were there get the names that a tree declares for them.** -/
theorem declares_collect {t : ScopeTree} {current top i : Nat} {n : String}
    (h : HoistsTo t current top) (hi : i < t.scopes.length) :
    ∀ tree : Tree, n ∉ strays tree →
      ((collect current t tree).declares i n = true ↔
        t.declares i n = true ∨ (i = current ∧ n ∈ lexical tree) ∨ (i = top ∧ n ∈ vars tree))
  | node kind span parts, hn => by
    rw [strays, List.mem_append, not_or] at hn
    have hown := declares_opened h hn.1 hi span
    have hinside := h.opened kind span parts
    have hlt := Nat.lt_of_lt_of_le hi (Grows.opened current t kind span parts).length_le
    rw [collect_node, lexical, vars, List.mem_append, List.mem_append]
    by_cases hvisited : visited kind parts = parts
    · rw [hvisited, declares_collectAll hinside hlt parts hn.2, hown,
        mem_lexicalIn_opened hn.1 hvisited hi span, mem_varsIn_opened hn.1 hvisited hi]
      exact or_and_or_and
    · -- only the names of an import are no parts
      cases kind
      case import_ specifier imports =>
        rw [visited, collectAll, hown]
        simp [keepsLexical, keepsVars]
      all_goals exact absurd rfl hvisited

theorem declares_collectAll {t : ScopeTree} {current top i : Nat} {n : String}
    (h : HoistsTo t current top) (hi : i < t.scopes.length) :
    ∀ parts : List Tree, n ∉ straysIn parts →
      ((collectAll current t parts).declares i n = true ↔
        t.declares i n = true ∨ (i = current ∧ n ∈ lexicalIn parts) ∨
          (i = top ∧ n ∈ varsIn parts))
  | [], _ => by simp [collectAll, lexicalIn, varsIn]
  | tree :: rest, hn => by
    rw [straysIn, List.mem_append, not_or] at hn
    have hgrows := Grows.collect current t tree
    rw [collectAll, lexicalIn, varsIn, List.mem_append, List.mem_append,
      declares_collectAll (h.grows hgrows) (Nat.lt_of_lt_of_le hi hgrows.length_le) rest hn.2,
      declares_collect h hi tree hn.1]
    exact or_and_or_and

end

end ScopeTree

end ModuleAssets.Syntax
