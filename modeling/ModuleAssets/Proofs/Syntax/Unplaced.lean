import ModuleAssets.Proofs.Syntax.Outwards
/-!
# Scopes — collected without places

Spans are only written down with the scopes: what is declared where follows from the
kinds of the nodes. So trees that differ in spans have scopes that differ in spans. And
names do not decide about other names: if two collections start from scopes that differ
in the names of some of them, they end with scopes that differ in the names of these.
`AgreeBut` is kept by single nodes and from there by whole trees.
-/

namespace ModuleAssets.Syntax

open ModuleAssets.Syntax.Tree

namespace Tree

mutual

/-- The tree without its places in the text. -/
def unplaced : Tree → Tree
  | node kind _ parts => node kind default (unplacedIn parts)

/-- `unplaced` for trees one after another. -/
def unplacedIn : List Tree → List Tree
  | [] => []
  | t :: rest => unplaced t :: unplacedIn rest

end

mutual

/-- Whether two trees are one can be decided. -/
def decEq : (t t' : Tree) → Decidable (t = t')
  | node kind span parts, node kind' span' parts' =>
    match decEqIn parts parts' with
    | isTrue h => decidable_of_iff (kind = kind' ∧ span = span') (by simp [h])
    | isFalse h => isFalse fun heq => h (by injection heq)

/-- `decEq` for trees one after another. -/
def decEqIn : (ts ts' : List Tree) → Decidable (ts = ts')
  | [], [] => isTrue rfl
  | [], _ :: _ => isFalse (by simp)
  | _ :: _, [] => isFalse (by simp)
  | t :: rest, t' :: rest' =>
    match decEq t t', decEqIn rest rest' with
    | isTrue h, isTrue h' => isTrue (by rw [h, h'])
    | isFalse h, _ => isFalse fun heq => h (by injection heq)
    | _, isFalse h => isFalse fun heq => h (by injection heq)

end

instance : DecidableEq Tree := decEq

theorem unplacedIn_eq_map (parts : List Tree) : unplacedIn parts = parts.map unplaced := by
  induction parts with
  | nil => rfl
  | cons t rest ih => rw [unplacedIn, ih, List.map_cons]

theorem parts_unplaced (t : Tree) : t.unplaced.parts = unplacedIn t.parts := by
  cases t
  rfl

mutual

/-- What a pattern binds does not depend on its places. -/
theorem boundNames_unplaced : ∀ t : Tree, boundNames t.unplaced = boundNames t
  | node kind span parts => by
    have hparts := boundNamesIn_unplaced parts
    cases kind
    case arrayPattern | objectPattern | restPattern => exact hparts
    case propertyPattern key =>
      cases key
      case computed =>
        cases parts with
        | nil => rfl
        | cons key rest => exact boundNamesIn_unplaced rest
      all_goals exact hparts
    case defaultPattern =>
      cases parts with
      | nil => rfl
      | cons target rest => exact boundNames_unplaced target
    all_goals rfl

theorem boundNamesIn_unplaced :
    ∀ parts : List Tree, boundNamesIn (unplacedIn parts) = boundNamesIn parts
  | [] => rfl
  | t :: rest => by
    rw [unplacedIn, boundNamesIn, boundNamesIn, boundNames_unplaced t, boundNamesIn_unplaced rest]

end

/-- The parameters of a function without their places. -/
theorem boundNamesIn_dropLast_unplaced (parts : List Tree) :
    boundNamesIn (unplacedIn parts).dropLast = boundNamesIn parts.dropLast := by
  rw [unplacedIn_eq_map, ← List.map_dropLast, ← unplacedIn_eq_map, boundNamesIn_unplaced]

/-- The declared patterns without their places. -/
theorem boundNamesIn_declared_unplaced (parts : List Tree) :
    boundNamesIn (ScopeTree.declaredPatterns (unplacedIn parts)) =
      boundNamesIn (ScopeTree.declaredPatterns parts) := by
  have hpatterns : ScopeTree.declaredPatterns (unplacedIn parts) =
      unplacedIn (ScopeTree.declaredPatterns parts) := by
    rw [unplacedIn_eq_map, unplacedIn_eq_map, ScopeTree.declaredPatterns, List.flatMap_map,
      ScopeTree.declaredPatterns, List.map_flatMap]
    refine congrArg (parts.flatMap ·) (funext fun d => ?_)
    rw [parts_unplaced, unplacedIn_eq_map, List.map_take]
  rw [hpatterns, boundNamesIn_unplaced]

/-- What is visited without its places. -/
theorem visited_unplaced (kind : Kind) (parts : List Tree) :
    visited kind (unplacedIn parts) = unplacedIn (visited kind parts) := by
  cases kind
  case import_ => rfl
  all_goals rfl

end Tree

/-- The scopes have one parent and kind, and unless they are hidden the same names. -/
structure Scope.AgreeBut (hidden : Prop) (s s' : Scope) : Prop where
  parent_eq : s.parent = s'.parent
  kind_eq : s.kind = s'.kind
  names_eq : ¬ hidden → s.names = s'.names

namespace Scope

/-- Names are added by the names that are there. -/
theorem names_declareAll {s s' : Scope} (h : s.names = s'.names) (names : List String) :
    (s.declareAll names).names = (s'.declareAll names).names := by
  have hdeclare (s : Scope) (name : String) : (s.declare name).names =
      if s.names.contains name then s.names else s.names ++ [name] := by
    rw [declare, declares]
    split
    · rfl
    · rfl
  induction names generalizing s s' with
  | nil => exact h
  | cons name names ih => exact ih (by rw [hdeclare, hdeclare, h])

theorem declares_declareAll (s : Scope) (names : List String) (n : String) :
    (s.declareAll names).declares n = true ↔ s.declares n = true ∨ n ∈ names := by
  induction names generalizing s with
  | nil => simp [declareAll]
  | cons name names ih =>
    have hlater := ih (s.declare name)
    rw [declareAll] at hlater ⊢
    rw [List.foldl_cons, hlater, declares_declare, List.mem_cons, or_assoc]

/-- Scopes stay in agreement if they get the same names, or get them hidden. -/
theorem AgreeBut.declareAll {hidden : Prop} {s s' : Scope} {names names' : List String}
    (h : AgreeBut hidden s s') (hnames : ¬ hidden → names = names') :
    AgreeBut hidden (s.declareAll names) (s'.declareAll names') where
  parent_eq := by rw [(key_declareAll names s).2, (key_declareAll names' s').2, h.parent_eq]
  kind_eq := (congrArg Prod.fst (key_declareAll names s).1).trans
    (h.kind_eq.trans (congrArg Prod.fst (key_declareAll names' s').1).symm)
  names_eq hnot := hnames hnot ▸ names_declareAll (h.names_eq hnot) names

end Scope

namespace ScopeTree

/-- The scopes are as many and agree, the hidden ones but for their names. -/
structure AgreeBut (hidden : Nat → Prop) (t t' : ScopeTree) : Prop where
  length_eq : t.scopes.length = t'.scopes.length
  agree : ∀ i s s', t.get? i = some s → t'.get? i = some s' → s.AgreeBut (hidden i) s'

namespace AgreeBut

variable {hidden hidden' : Nat → Prop} {t t' t'' : ScopeTree} {current top : Nat}

theorem refl (hidden : Nat → Prop) (t : ScopeTree) : AgreeBut hidden t t := by
  refine ⟨rfl, fun i s s' hs hs' => ?_⟩
  obtain rfl := Option.some.inj (hs.symm.trans hs')
  exact ⟨rfl, rfl, fun _ => rfl⟩

theorem symm (h : AgreeBut hidden t t') : AgreeBut hidden t' t := by
  refine ⟨h.length_eq.symm, fun i s s' hs hs' => ?_⟩
  obtain ⟨hparent, hkind, hnames⟩ := h.agree i s' s hs' hs
  exact ⟨hparent.symm, hkind.symm, fun hnot => (hnames hnot).symm⟩

theorem exists_get? (h : AgreeBut hidden t t') {i : Nat} {s : Scope} (hs : t.get? i = some s) :
    ∃ s', t'.get? i = some s' :=
  ⟨_, List.getElem?_eq_getElem (h.length_eq ▸ lt_length_of_get? hs)⟩

theorem trans (h : AgreeBut hidden t t') (h' : AgreeBut hidden t' t'') : AgreeBut hidden t t'' := by
  refine ⟨h.length_eq.trans h'.length_eq, fun i s s'' hs hs'' => ?_⟩
  obtain ⟨s', hs'⟩ := h.exists_get? hs
  obtain ⟨hparent, hkind, hnames⟩ := h.agree i s s' hs hs'
  obtain ⟨hparent', hkind', hnames'⟩ := h'.agree i s' s'' hs' hs''
  exact ⟨hparent.trans hparent', hkind.trans hkind',
    fun hnot => (hnames hnot).trans (hnames' hnot)⟩

/-- More may be hidden. -/
theorem mono (h : AgreeBut hidden t t') (hhidden : ∀ i, hidden i → hidden' i) :
    AgreeBut hidden' t t' := by
  refine ⟨h.length_eq, fun i s s' hs hs' => ?_⟩
  obtain ⟨hparent, hkind, hnames⟩ := h.agree i s s' hs hs'
  exact ⟨hparent, hkind, fun hnot => hnames fun hi => hnot (hhidden i hi)⟩

theorem hoistsTo (h : AgreeBut hidden t t') (hto : HoistsTo t current top) :
    HoistsTo t' current top := by
  refine hto.grows ⟨Nat.le_of_eq h.length_eq, fun i s hs => ?_⟩
  obtain ⟨s', hs'⟩ := h.exists_get? hs
  obtain ⟨hparent, hkind, -⟩ := h.agree i s s' hs hs'
  exact ⟨s', hs', hkind.symm, hparent.symm⟩

/-- A scope that is not hidden declares the same names. -/
theorem declares_eq (h : AgreeBut hidden t t') {i : Nat} (hi : ¬ hidden i) (name : String) :
    t.declares i name = t'.declares i name := by
  rw [declares, declares]
  cases hs : t.get? i with
  | none =>
    rw [get?, List.getElem?_eq_none_iff, h.length_eq, ← List.getElem?_eq_none_iff] at hs
    rw [get?, hs]
  | some s =>
    obtain ⟨s', hs'⟩ := h.exists_get? hs
    rw [hs', Option.any_some, Option.any_some, Scope.declares, Scope.declares,
      (h.agree i s s' hs hs').names_eq hi]

/-! ## What keeps scopes in agreement -/

/-- Other names may be declared in a hidden scope. -/
theorem declareBoth (h : AgreeBut hidden t t') {id : Nat} {names names' : List String}
    (hnames : ¬ hidden id → names = names') :
    AgreeBut hidden (t.declareAll id names) (t'.declareAll id names') := by
  refine ⟨by rw [length_declareAll, length_declareAll, h.length_eq], fun i s s' hs hs' => ?_⟩
  rw [get?_declareAll, Option.map_eq_some_iff] at hs hs'
  obtain ⟨a, ha, rfl⟩ := hs
  obtain ⟨a', ha', rfl⟩ := hs'
  refine (h.agree i a a' ha ha').declareAll fun hi => ?_
  split
  · rename_i heq
    exact hnames (heq ▸ hi)
  · rfl

theorem declareAll (h : AgreeBut hidden t t') (id : Nat) (names : List String) :
    AgreeBut hidden (t.declareAll id names) (t'.declareAll id names) :=
  h.declareBoth fun _ => rfl

theorem declare (h : AgreeBut hidden t t') (id : Nat) (name : String) :
    AgreeBut hidden (t.declare id name) (t'.declare id name) :=
  h.declareAll id [name]

/-- New scopes begin alike, wherever their nodes stand in the text. -/
theorem openScope (h : AgreeBut hidden t t') (kind : ScopeKind) (span span' : Span)
    (parent : Option Nat) :
    AgreeBut hidden (t.openScope kind span parent) (t'.openScope kind span' parent) := by
  have hlength := h.length_eq
  refine ⟨by rw [length_openScope, length_openScope, hlength], fun i s s' hs hs' => ?_⟩
  have hlt := lt_length_of_get? hs
  rw [length_openScope] at hlt
  obtain hlt | rfl := Nat.lt_succ_iff_lt_or_eq.1 hlt
  · rw [get?_openScope_of_lt hlt] at hs
    rw [get?_openScope_of_lt (hlength ▸ hlt)] at hs'
    exact h.agree i s s' hs hs'
  · rw [get?_openScope_length] at hs
    rw [hlength, get?_openScope_length] at hs'
    obtain rfl := Option.some.inj hs
    obtain rfl := Option.some.inj hs'
    exact ⟨rfl, rfl, fun _ => rfl⟩

/-- **One node keeps scopes in agreement**, whether its tree has places or not. -/
theorem opened (h : AgreeBut hidden t t') (hto : HoistsTo t current top) (kind : Kind) (span : Span)
    (parts : List Tree) :
    AgreeBut hidden (opened current t kind span parts).1
        (ScopeTree.opened current t' kind default (unplacedIn parts)).1 ∧
      (ScopeTree.opened current t kind span parts).2 =
        (ScopeTree.opened current t' kind default (unplacedIn parts)).2 := by
  have hlength := h.length_eq
  cases kind
  case functionDeclaration name =>
    refine ⟨?_, hlength⟩
    rw [ScopeTree.opened, ScopeTree.opened, boundNamesIn_dropLast_unplaced, hlength]
    exact ((h.declare _ _).openScope _ _ _ _).declareAll _ _
  case function name =>
    refine ⟨?_, hlength⟩
    rw [ScopeTree.opened, ScopeTree.opened, boundNamesIn_dropLast_unplaced, hlength]
    exact ((h.openScope _ _ _ _).declareAll _ _).declareAll _ _
  case arrow | catch_ =>
    refine ⟨?_, hlength⟩
    rw [ScopeTree.opened, ScopeTree.opened, boundNamesIn_dropLast_unplaced, hlength]
    exact (h.openScope _ _ _ _).declareAll _ _
  case block => exact ⟨h.openScope _ _ _ _, hlength⟩
  case classDeclaration name => exact ⟨h.declare _ _, rfl⟩
  case import_ specifier imports => exact ⟨h.declareAll _ _, rfl⟩
  case declarations how =>
    refine ⟨?_, rfl⟩
    rw [ScopeTree.opened, ScopeTree.opened, boundNamesIn_declared_unplaced]
    cases how with
    | var =>
      rw [hto.target_var, (h.hoistsTo hto).target_var]
      exact h.declareAll _ _
    | let_ => exact h.declareAll _ _
    | const => exact h.declareAll _ _
  all_goals exact ⟨h, rfl⟩

mutual

/-- **Collecting keeps scopes in agreement**: what a tree adds to them does not depend on
their names, and not on its places. -/
theorem collect_unplaced {t t' : ScopeTree} {current top : Nat} (h : AgreeBut hidden t t')
    (hto : HoistsTo t current top) : ∀ tree : Tree,
      AgreeBut hidden (collect current t tree) (collect current t' tree.unplaced)
  | node kind span parts => by
    obtain ⟨hopened, hinner⟩ := h.opened hto kind span parts
    rw [unplaced, collect_node, collect_node, ← hinner, visited_unplaced]
    rcases visited_eq kind parts with hvisited | hvisited
    · rw [hvisited]
      exact collectAll_unplaced hopened (hto.opened kind span parts) parts
    · rw [hvisited]
      exact hopened

theorem collectAll_unplaced {t t' : ScopeTree} {current top : Nat} (h : AgreeBut hidden t t')
    (hto : HoistsTo t current top) : ∀ parts : List Tree,
      AgreeBut hidden (collectAll current t parts) (collectAll current t' (unplacedIn parts))
  | [] => h
  | tree :: rest =>
    collectAll_unplaced (collect_unplaced h hto tree) (hto.grows (Grows.collect current t tree)) rest

end

/-- The same trees after scopes in agreement. -/
theorem collectAll (h : AgreeBut hidden t t') (hto : HoistsTo t current top) (parts : List Tree) :
    AgreeBut hidden (collectAll current t parts) (ScopeTree.collectAll current t' parts) :=
  (h.collectAll_unplaced hto parts).trans
    ((refl hidden t').collectAll_unplaced (h.hoistsTo hto) parts).symm

/-- **The scopes of a program do not depend on places.** -/
theorem ofTree_unplaced (hidden : Nat → Prop) (program : Tree) :
    AgreeBut hidden (ofTree program) (ofTree program.unplaced) := by
  rw [ofTree, ofTree, parts_unplaced]
  exact ((refl hidden ⟨[]⟩).openScope .program _ _ none).collectAll_unplaced
    (hoistsTo_start program) program.parts

end AgreeBut

end ScopeTree

end ModuleAssets.Syntax
