import ModuleAssets.Proofs.Syntax.Opened
import ModuleAssets.Proofs.Syntax.OwnSpans
import Mathlib.Data.List.Induction
/-!
# Scopes — the way out of a program

From the scope of a place one comes out to the scope of the program through the scopes
of the nodes around the place, each once. The walk finds these scopes again by the kinds and
spans of the nodes that open them.
-/

namespace ModuleAssets.Syntax

open ModuleAssets.Syntax.Tree

namespace Scope

/-- What a scope is found by. -/
def key (s : Scope) : ScopeKind × Span :=
  (s.kind, s.span)

theorem key_declareAll (names : List String) (s : Scope) :
    (s.declareAll names).key = s.key ∧ (s.declareAll names).parent = s.parent := by
  induction names generalizing s with
  | nil => exact ⟨rfl, rfl⟩
  | cons name names ih =>
    have hname : (s.declare name).key = s.key ∧ (s.declare name).parent = s.parent := by
      rw [declare]
      split
      · exact ⟨rfl, rfl⟩
      · exact ⟨rfl, rfl⟩
    obtain ⟨hkey, hparent⟩ := ih (s.declare name)
    exact ⟨hkey.trans hname.1, hparent.trans hname.2⟩

end Scope

namespace Tree

theorem key_openedScope (parent : Nat) (n : Tree) :
    (openedScope parent n).key = (scopeKind n.kind, n.span) ∧
      (openedScope parent n).parent = some parent := by
  obtain ⟨kind, span, parts⟩ := n
  exact Scope.key_declareAll _ _

theorem scopeKind_ne_program (kind : Kind) : scopeKind kind ≠ .program := by
  unfold scopeKind
  split
  · exact ScopeKind.noConfusion
  · exact ScopeKind.noConfusion
  · exact ScopeKind.noConfusion

end Tree

namespace ScopeTree

/-- The scopes from one out to that of the program, on a way of at most `fuel`
scopes. -/
def outwardsWithin (t : ScopeTree) : Nat → Nat → List Scope
  | 0, _ => []
  | fuel + 1, id =>
    match t.get? id with
    | none => []
    | some s => s :: (s.parent.map (t.outwardsWithin fuel)).getD []

/-- The scopes from one out to that of the program. -/
def outwards (t : ScopeTree) (id : Nat) : List Scope :=
  t.outwardsWithin t.scopes.length id

/-- The scopes of both trees were opened by the same nodes, in the same order. Their
names may differ. -/
def SameOpeners (t t' : ScopeTree) : Prop :=
  t.scopes.map (fun s => (s.parent, s.key)) = t'.scopes.map fun s => (s.parent, s.key)

theorem not_opens_of_not_ownsSpan {kind : Kind} (h : ownsSpan kind = false) : opens kind = false := by
  cases kind
  case functionDeclaration | function | arrow | block | catch_ => exact h
  all_goals rfl

theorem ownsSpan_of_opens {kind : Kind} (h : opens kind = true) : ownsSpan kind = true := by
  cases howns : ownsSpan kind with
  | true => rfl
  | false => exact absurd (h.symm.trans (not_opens_of_not_ownsSpan howns)) Bool.noConfusion

section

variable {program n m : Tree} {place : List Nat} {j : Nat}

/-- **The scope of the parts of a node**, if the node opens one. -/
theorem get?_scopeAt_snoc (hn : partIn? program.parts place = some n) (hopens : opens n.kind = true)
    (j : Nat) :
    (ofTree program).get? (scopeAt program (place ++ [j])) =
        some (openedScope (scopeAt program place) n) ∧
      scopeAt program place < scopeAt program (place ++ [j]) := by
  obtain ⟨top, hto⟩ := hoistsTo_reach (hoistsTo_start program) hn
  have hid : scopeAt program (place ++ [j]) =
      (reach root (start program) program.parts place).2.scopes.length := by
    rw [scopeAt, reach_snoc _ _ hn, reach_one, (opened_of_opens _ _ _ _ hopens).1]
  obtain ⟨kind, span, parts⟩ := n
  rw [hid]
  exact ⟨get?_of_reach (hoistsTo_start program) hn (Nat.le_refl _)
    (get?_collect_length hto hopens span parts), hto.lt_length⟩

theorem scopeAt_snoc_of_not_opens (hn : partIn? program.parts place = some n)
    (hopens : opens n.kind = false) (j : Nat) :
    scopeAt program (place ++ [j]) = scopeAt program place := by
  rw [scopeAt, reach_snoc _ _ hn, reach_one, opened_of_not_opens hopens]
  rfl

theorem exists_partIn?_of_snoc {parts : List Tree} (h : partIn? parts (place ++ [j]) = some m)
    (hplace : place ≠ []) : ∃ n, partIn? parts place = some n := by
  induction place generalizing parts with
  | nil => exact absurd rfl hplace
  | cons i place ih =>
    obtain ⟨part, hpart, ⟨hnil, -⟩ | ⟨-, hm⟩⟩ := exists_part_of_partIn? h
    · exact absurd hnil (List.append_ne_nil_of_right_ne_nil _ (List.cons_ne_nil _ _))
    · cases place with
      | nil => exact ⟨part, hpart⟩
      | cons k place =>
        obtain ⟨n, hn⟩ := ih hm (List.cons_ne_nil _ _)
        exact ⟨n, (partIn?_cons hpart).trans hn⟩

/-! ## Scopes that are found -/

theorem SameOpeners.exists_get? {S T : ScopeTree} (h : S.SameOpeners T) {id : Nat} {s : Scope}
    (hs : T.get? id = some s) :
    ∃ s', S.get? id = some s' ∧ s'.parent = s.parent ∧ s'.key = s.key := by
  have hid := congrArg (·[id]?) h
  simp only [List.getElem?_map] at hid
  rw [show T.scopes[id]? = some s from hs, Option.map_some, Option.map_eq_some_iff] at hid
  obtain ⟨s', hs', heq⟩ := hid
  exact ⟨s', hs', congrArg Prod.fst heq, congrArg Prod.snd heq⟩

theorem exists_get?_of_lookup {S : ScopeTree} {kind : ScopeKind} {span : Span} {s : Scope}
    (h : S.lookup kind span = some s) : (∃ id, S.get? id = some s) ∧ s.key = (kind, span) := by
  have hmem := List.mem_of_find?_eq_some h
  have hkey := List.find?_some h
  rw [Bool.and_eq_true, beq_iff_eq, beq_iff_eq] at hkey
  exact ⟨List.getElem?_of_mem (List.mem_reverse.1 hmem), Prod.ext hkey.1 hkey.2⟩

theorem exists_lookup {S : ScopeTree} {kind : ScopeKind} {span : Span} {id : Nat} {s : Scope}
    (h : S.get? id = some s) (hkey : s.key = (kind, span)) : ∃ s', S.lookup kind span = some s' := by
  refine Option.isSome_iff_exists.1 (List.find?_isSome.2 ⟨s, ?_, ?_⟩)
  · exact List.mem_reverse.2 (List.mem_of_getElem? h)
  · rw [Bool.and_eq_true, beq_iff_eq, beq_iff_eq]
    exact ⟨congrArg Prod.fst hkey, congrArg Prod.snd hkey⟩

/-- The program's own scope comes first. -/
theorem get?_ofTree_root (program : Tree) :
    ∃ names, (ofTree program).get? root =
      some (Scope.declareAll names ⟨none, .program, program.span, []⟩) := by
  have hto := hoistsTo_start program
  exact ⟨_, get?_collectAll hto hto.lt_length program.parts⟩

/-- All other scopes are opened by nodes of the program. -/
theorem openedIn_of_get?_ofTree {id : Nat} {s : Scope} (h : (ofTree program).get? id = some s)
    (hkind : s.kind ≠ .program) : OpenedIn program s := by
  have hid : (start program).scopes.length ≤ id := by
    cases id with
    | zero =>
      obtain ⟨names, hroot⟩ := get?_ofTree_root program
      obtain rfl := Option.some.inj (h.symm.trans hroot)
      exact absurd (congrArg Prod.fst (Scope.key_declareAll _ _).1) hkind
    | succ id => exact Nat.succ_le_succ (Nat.zero_le id)
  obtain ⟨part, hpart, hopened⟩ :=
    openedIn_of_get?_collectAll (hoistsTo_start program) hid program.parts h
  exact hopened.of_part hpart

/-! ## The way out -/

theorem mem_of_mem_outwards {S : ScopeTree} {id : Nat} {s : Scope} (h : s ∈ S.outwards id) :
    s ∈ S.scopes := by
  rw [outwards] at h
  generalize S.scopes.length = fuel at h
  induction fuel generalizing id with
  | zero => cases h
  | succ fuel ih =>
    rw [outwardsWithin] at h
    cases hid : S.get? id with
    | none =>
      rw [hid] at h
      cases h
    | some c =>
      rw [hid] at h
      obtain rfl | h := List.mem_cons.1 h
      · exact List.mem_of_getElem? hid
      · cases hparent : c.parent with
        | none =>
          rw [hparent] at h
          cases h
        | some parent =>
          rw [hparent] at h
          exact ih h

/-- The scope stands where the node opens one. -/
def IsScopeOf (S : ScopeTree) (program n : Tree) (s : Scope) : Prop :=
  ∃ id parent, S.get? id = some s ∧ (ofTree program).get? id = some (openedScope parent n)

theorem outwardsWithin_scopeAt {S : ScopeTree} (hS : S.SameOpeners (ofTree program))
    (hn : partIn? program.parts place = some n) {fuel : Nat}
    (hfuel : scopeAt program place < fuel) :
    ∃ inner outer, S.get? root = some outer ∧
      S.outwardsWithin fuel (scopeAt program place) = inner ++ [outer] ∧
      List.Forall₂ (IsScopeOf S program) (openersIn program.parts place) inner := by
  induction place using List.reverseRecOn generalizing n fuel with
  | nil => cases hn
  | append_singleton place j ih =>
    obtain ⟨fuel, rfl⟩ := Nat.exists_eq_add_one.2 (Nat.zero_lt_of_lt hfuel)
    by_cases hplace : place = []
    · subst hplace
      obtain ⟨names, hroot⟩ := get?_ofTree_root program
      obtain ⟨outer, houter, hparent, -⟩ := hS.exists_get? hroot
      rw [(Scope.key_declareAll _ _).2] at hparent
      refine ⟨[], outer, houter, ?_, .nil⟩
      rw [List.nil_append, scopeAt, reach_one, outwardsWithin, houter]
      simp only [hparent, Option.map_none, Option.getD_none, List.nil_append]
    · obtain ⟨n', hn'⟩ := exists_partIn?_of_snoc hn hplace
      rw [openersIn_snoc hn']
      cases hopens : opens n'.kind with
      | false =>
        rw [scopeAt_snoc_of_not_opens hn' hopens] at hfuel ⊢
        exact ih hn' hfuel
      | true =>
        obtain ⟨hget, hlt⟩ := get?_scopeAt_snoc hn' hopens j
        obtain ⟨s, hs, hparent, -⟩ := hS.exists_get? hget
        rw [(key_openedScope _ _).2] at hparent
        obtain ⟨inner, outer, houter, hinner, hall⟩ := @ih n' hn' fuel (by omega)
        refine ⟨s :: inner, outer, houter, ?_, .cons ⟨_, _, hs, hget⟩ hall⟩
        rw [outwardsWithin, hs]
        simp only [hparent, Option.map_some, Option.getD_some, hinner, List.cons_append]

/-- **The way out of a program leads through the scopes of the nodes around the
place.** -/
theorem outwards_scopeAt {S : ScopeTree} (hS : S.SameOpeners (ofTree program))
    (hn : partIn? program.parts place = some n) :
    ∃ inner outer, S.get? root = some outer ∧
      S.outwards (scopeAt program place) = inner ++ [outer] ∧
      List.Forall₂ (IsScopeOf S program) (openersIn program.parts place) inner := by
  refine outwardsWithin_scopeAt hS hn ?_
  have hlength := congrArg List.length hS
  rw [List.length_map, List.length_map] at hlength
  rw [hlength]
  exact reach_lt (hoistsTo_start program) place

end

end ScopeTree

end ModuleAssets.Syntax
