import ModuleAssets.Proofs.Relocation.Analysis
import ModuleAssets.Proofs.Relocation.Trail
import ModuleAssets.Proofs.Syntax.Grammar.Program
import ModuleAssets.Proofs.Syntax.Orderly
import Mathlib.Data.List.Forall2
/-!
# The walk — in the scopes of the program

The walk finds a scope by the node that opens it, and collecting scopes has placed each
node in one. The two agree: where the walk comes by a node, the scopes that it has
entered and not left are those on the way out from the scope in which the node was
placed.

For this, all that has to be known of a program is that it is orderly, so that no two
scopes are found by one key. A program that is read from a text is orderly, and it stays
so under the rules for special cases: they thin the program out.
-/

namespace ModuleAssets

open Syntax
open Syntax.Tree

/-! ## Special cases thin a program out -/

namespace SpecialCase

variable {ctx : SpecialCaseContext} {d d' : Draft} {t t' program : Tree} {statements : List Tree}

theorem thins_same (ts : List Tree) : List.Forall₂ Thins ts ts :=
  List.forall₂_same.2 fun t _ => .refl t

/-- The parts of a node that restricts none of them are thinned out in any way. -/
theorem thins_plain {kind : Kind} {span : Span} {parts parts' : List Tree}
    (hkind : restrictsParts kind = false)
    (hspans : (ownedSpansIn parts').Sublist (ownedSpansIn parts))
    (htidy : AllTidy parts → AllTidy parts') :
    Thins (.node kind span parts) (.node kind span parts') :=
  .node (fun h => absurd (h.symm.trans hkind) Bool.noConfusion) hspans htidy

theorem owners_withExpression (argument : Tree) {expression : Tree} (h : expression.owners = []) :
    (withExpression argument expression).owners = [] := by
  unfold withExpression
  split
  · rw [owners, ownersIn, h]
    rfl
  · exact h

theorem thins_pinRead (ctx : SpecialCaseContext) (t : Tree) : Thins t (pinRead ctx t) := by
  unfold pinRead
  split
  · rename_i span callee first rest
    split
    · have heither {pinned? : Option Tree} {t : Tree}
          (hsome : ∀ pinned, pinned? = some pinned → Thins t pinned) : Thins t (pinned?.getD t) := by
        cases pinned? with
        | none => exact .refl t
        | some pinned => exact hsome pinned rfl
      refine heither fun pinned hpinned => ?_
      obtain ⟨⟨place, specifier⟩, -, hpinned⟩ := Option.bind_eq_some_iff.1 hpinned
      obtain ⟨resolved, -, hpinned⟩ := Option.bind_eq_some_iff.1 hpinned
      obtain ⟨relative, -, hpinned⟩ := Option.bind_eq_some_iff.1 hpinned
      obtain rfl := Option.some.inj hpinned
      have hnone : (withExpression first (besides place relative)).owners = [] :=
        owners_withExpression first rfl
      refine thins_plain rfl ?_ fun h => ?_
      · rw [ownedSpansIn, ownedSpansIn, ownedSpans_of_owners hnone]
        exact (List.Sublist.refl _).append (List.sublist_append_right _ _)
      · obtain ⟨hcallee, harguments⟩ := allTidy_cons.1 h
        exact allTidy_cons.2 ⟨hcallee,
          allTidy_cons.2 ⟨allTidy_of_owners hnone, (allTidy_cons.1 harguments).2⟩⟩
    · exact .refl _
  · exact .refl _

theorem thins_everywhere {change : Tree → Tree} (hchange : ∀ t, Thins t (change t)) (t : Tree) :
    Thins t (everywhere change t) := by
  induction t using inductionOnParts with
  | node kind span parts ih =>
    have hparts : List.Forall₂ Thins parts (everywhereIn change parts) := by
      clear hchange
      induction parts with
      | nil => exact .nil
      | cons part rest ihrest =>
        exact .cons (ih part List.mem_cons_self)
          (ihrest fun part hpart => ih part (List.mem_cons_of_mem _ hpart))
    rw [everywhere]
    exact (Thins.ofParts kind span hparts).trans (hchange _)

theorem thins_socketIoRule (hrule : socketIoRule ctx t d = some (t', d')) : Thins t t' := by
  unfold socketIoRule at hrule
  split at hrule
  · split at hrule
    · split at hrule
      · cases hrule
        have hvalue := thins_everywhere (thins_pinRead ctx)
        exact .ofParts _ _ (.cons (.ofParts _ _ (.cons (.refl _) (.cons (hvalue _) .nil))) .nil)
      · cases hrule
    · cases hrule
  · cases hrule

/-- A variable without its value. -/
theorem thins_googleGaxRule (hrule : googleGaxRule ctx t d = some (t', d')) : Thins t t' := by
  unfold googleGaxRule at hrule
  split at hrule
  · cases hrule
  · split at hrule
    · split at hrule
      · rename_i how span declared name value rest
        dsimp only at hrule
        split at hrule
        · split at hrule
          · cases hrule
            exact .refl _
          · cases hrule
            refine .ofParts _ _ (.cons (.node (fun _ => rfl) ?_ fun h => ?_) (thins_same rest))
            · exact (List.Sublist.refl _).append (List.nil_sublist _)
            · exact (allTidy_cons.1 h).1
        · cases hrule
      · cases hrule
    · cases hrule

theorem thins_ffmpegRule (hrule : ffmpegRule ctx t d = some (t', d')) : Thins t t' := by
  unfold ffmpegRule at hrule
  split at hrule
  · split at hrule
    · cases hrule
      refine thins_plain rfl (List.sublist_append_right _ _) fun h => ?_
      exact allTidy_cons.2 ⟨allTidy_of_owners rfl, (allTidy_cons.1 h).2⟩
    · cases hrule
  · cases hrule

theorem thins_probe? {place : Span} (hprobe : probe? t = some (place, t')) : Thins t t' := by
  unfold probe? at hprobe
  split at hprobe
  · split at hprobe
    · split at hprobe
      · cases hprobe
        refine .ofParts _ _ (.cons (.refl _) (.cons ?_ .nil))
        refine thins_plain rfl ?_ fun h => ?_
        · exact (List.Sublist.refl _).append (List.nil_sublist _)
        · exact (allTidy_cons.1 h).1
      · cases hprobe
    · cases hprobe
  · cases hprobe

theorem thins_takeProbe (t : Tree) (found : Option Span) : Thins t (takeProbe found t).2 := by
  induction t using inductionOnParts generalizing found with
  | node kind span parts ih =>
    have hparts : List.Forall₂ Thins parts (takeProbeIn found parts).2 := by
      induction parts generalizing found with
      | nil => exact .nil
      | cons part rest ihrest =>
        exact .cons (ih part List.mem_cons_self found)
          (ihrest (fun part hpart => ih part (List.mem_cons_of_mem _ hpart)) _)
    have hnode := Thins.ofParts kind span hparts
    rw [takeProbe]
    dsimp only
    split
    · exact hnode
    · split
      · rename_i hprobe
        exact hnode.trans (thins_probe? hprobe)
      · exact hnode

theorem thins_oracleDbApply (ctx : SpecialCaseContext) (program : Tree) (d : Draft) :
    Thins program (oracleDbApply ctx program d).1 := by
  have htaken := thins_takeProbe program none
  unfold oracleDbApply
  split
  · rename_i heq
    rw [heq] at htaken
    exact htaken
  · rename_i heq
    rw [heq] at htaken
    exact htaken

theorem thins_ofStatement {rule : SpecialCaseContext → Tree → Draft → Option (Tree × Draft)}
    (hrule : ∀ t d t' d', rule ctx t d = some (t', d') → Thins t t') (program : Tree) (d : Draft) :
    Thins program (ofStatement rule ctx program d).1 := by
  obtain ⟨kind, span, statements⟩ := program
  refine .ofParts kind span ?_
  induction statements with
  | nil => exact .nil
  | cons statement rest ih =>
    rw [onFirstStatement]
    split
    · rename_i heq
      exact .cons (hrule _ _ _ _ heq) (thins_same rest)
    · exact .cons (.refl _) ih

/-- **A rule for a special case thins the program out.** -/
theorem thins_applyFirst {rules : List SpecialCase} (hrules : rules ⊆ all) (id : String)
    (ctx : SpecialCaseContext) (program : Tree) (d : Draft) :
    Thins program (applyFirst rules id ctx program d).1 := by
  unfold applyFirst
  dsimp only
  split
  · rename_i rule heq
    have hmem := hrules (List.mem_of_find?_eq_some heq)
    rw [all] at hmem
    simp only [List.mem_cons, List.not_mem_nil, or_false] at hmem
    obtain rfl | rfl | rfl | rfl := hmem
    · exact thins_ofStatement (fun _ _ _ _ => thins_googleGaxRule) program d
    · exact thins_ofStatement (fun _ _ _ _ => thins_socketIoRule) program d
    · exact thins_oracleDbApply ctx program d
    · exact thins_ofStatement (fun _ _ _ _ => thins_ffmpegRule) program d
  · exact .refl program

end SpecialCase

/-! ## Scopes and their keys -/

namespace Syntax.ScopeTree

/-- Where no key is shared, scopes with the same keys are the same. -/
theorem eq_of_keys {scopes around way : List Scope} (hkeys : (scopes.map Scope.key).Nodup)
    (haround : ∀ s ∈ around, s ∈ scopes) (hway : ∀ s ∈ way, s ∈ scopes)
    (heq : around.map Scope.key = way.map Scope.key) : around = way := by
  induction around generalizing way with
  | nil => exact (List.map_eq_nil_iff.1 heq.symm).symm
  | cons s around ih =>
    cases way with
    | nil => cases heq
    | cons c way =>
      obtain ⟨hkey, hrest⟩ := List.cons.inj heq
      have hs := haround s List.mem_cons_self
      have hc := hway c List.mem_cons_self
      rw [List.inj_on_of_nodup_map hkeys hs hc hkey,
        ih (fun s h => haround s (List.mem_cons_of_mem _ h))
          (fun s h => hway s (List.mem_cons_of_mem _ h)) hrest]

/-- Trees of scopes with the same openers have the same keys. -/
theorem SameOpeners.keys {S T : ScopeTree} (h : S.SameOpeners T) :
    S.scopes.map Scope.key = T.scopes.map Scope.key := by
  have hkeys := congrArg (List.map Prod.snd) h
  rw [List.map_map, List.map_map] at hkeys
  exact hkeys

/-- The keys on the way out from a place, where these nodes are around it. -/
def wayKeys (program : Tree) (openers : List Tree) : List (ScopeKind × Span) :=
  openers.map openerKey ++ [(.program, program.span)]

section

variable {S : ScopeTree} {program n : Tree} {place : List Nat} {s : Scope}

theorem key_of_isScopeOf (hS : S.SameOpeners (ofTree program)) (h : IsScopeOf S program n s) :
    s.key = openerKey n := by
  obtain ⟨id, parent, hs, hopened⟩ := h
  obtain ⟨s', hs', -, hkey⟩ := hS.exists_get? hopened
  obtain rfl := Option.some.inj (hs.symm.trans hs')
  exact hkey.trans (key_openedScope parent n).1

/-- The program's own scope is found by its span. -/
theorem exists_root (hS : S.SameOpeners (ofTree program)) :
    ∃ outer, S.get? root = some outer ∧ outer.key = (.program, program.span) := by
  obtain ⟨names, hroot⟩ := get?_ofTree_root program
  obtain ⟨outer, houter, -, hkey⟩ := hS.exists_get? hroot
  exact ⟨outer, houter, hkey.trans (Scope.key_declareAll names _).1⟩

theorem keys_of_isScopeOf (hS : S.SameOpeners (ofTree program)) {openers : List Tree}
    {inner : List Scope} (h : List.Forall₂ (IsScopeOf S program) openers inner) :
    inner.map Scope.key = openers.map openerKey := by
  induction h with
  | nil => rfl
  | cons hhead _ ih => exact congrArg₂ List.cons (key_of_isScopeOf hS hhead) ih

/-- **The keys on the way out** are those of the nodes around the place and of the
program. -/
theorem keys_outwards (hS : S.SameOpeners (ofTree program))
    (hn : partIn? program.parts place = some n) :
    (S.outwards (scopeAt program place)).map Scope.key =
      wayKeys program (openersIn program.parts place) := by
  obtain ⟨inner, outer, houter, hway, hinner⟩ := outwards_scopeAt hS hn
  obtain ⟨outer', houter', hkey⟩ := exists_root hS
  obtain rfl := Option.some.inj (houter.symm.trans houter')
  rw [hway, wayKeys, List.map_append, keys_of_isScopeOf hS hinner, List.map_singleton, hkey]

/-- No key occurs twice on the way out. -/
theorem nodup_wayKeys (h : Orderly program.parts) (place : List Nat) :
    (wayKeys program (openersIn program.parts place)).Nodup := by
  refine List.nodup_append.2 ⟨?_, List.nodup_singleton _, fun key hkey other hother heq => ?_⟩
  · refine List.Nodup.of_map Prod.snd ?_
    rw [List.map_map]
    exact nodup_spans_openersIn h.nodup place
  · obtain ⟨m, -, rfl⟩ := List.mem_map.1 hkey
    obtain rfl := List.mem_singleton.1 hother
    exact scopeKind_ne_program m.kind (congrArg Prod.fst heq)

/-- A scope that is looked up for a node that opens one is found. -/
theorem exists_lookup_of_opens (hS : S.SameOpeners (ofTree program))
    (hn : partIn? program.parts place = some n) (hopens : opens n.kind = true) :
    ∃ s ∈ S.scopes, S.lookup (scopeKind n.kind) n.span = some s ∧ s.key = openerKey n := by
  obtain ⟨hget, -⟩ := get?_scopeAt_snoc hn hopens 0
  obtain ⟨s, hs, -, hkey⟩ := hS.exists_get? hget
  obtain ⟨s', hs'⟩ := exists_lookup hs (hkey.trans (key_openedScope _ n).1)
  obtain ⟨⟨id, hid⟩, hkey'⟩ := exists_get?_of_lookup hs'
  exact ⟨s', List.mem_of_getElem? hid, hs', hkey'⟩

/-- All places in an orderly program are places in its parts. -/
theorem partAt?_of_partIn? (h : Orderly program.parts)
    (hn : partIn? program.parts place = some n) : program.partAt? place = some n := by
  induction place generalizing program with
  | nil => cases hn
  | cons i place ih =>
    obtain ⟨kind, span, parts⟩ := program
    obtain ⟨part, hpart, hn⟩ := exists_part_of_partIn? hn
    have hpart' := h.of_mem (List.mem_of_getElem? hpart)
    rw [partAt?, show parts[i]? = some part from hpart, Option.bind_some]
    obtain ⟨rfl, rfl⟩ | ⟨-, hn⟩ := hn
    · rfl
    · rw [hpart'.visited_eq] at hn
      exact ih hpart'.partsOf hn

end

/-- A wrapper takes a name out of a scope, and nothing else. -/
theorem sameOpeners_undeclare (S : ScopeTree) (id : Nat) (name : String) :
    (S.undeclare id name).SameOpeners S := by
  refine List.ext_getElem? fun i => ?_
  rw [undeclare, List.getElem?_map, List.getElem?_map, List.getElem?_modify]
  split
  · cases S.scopes[i]? with
    | none => rfl
    | some s => rfl
  · cases S.scopes[i]? with
    | none => rfl
    | some s => rfl

end Syntax.ScopeTree

theorem Wrapper.sameOpeners_unwrap (grammar : Grammar) (program : Tree) (scopes : ScopeTree)
    (draft : Draft) : (unwrap grammar program scopes draft).1.SameOpeners scopes := by
  unfold unwrap
  dsimp only
  split
  · split
    · exact scopes.sameOpeners_undeclare _ _
    · exact rfl
  · exact rfl

/-! ## The walk in its scopes -/

namespace Trail

open ScopeTree

/-- What holds where the node at a place of a program is walked: the scopes around it are
those on the way out from the scope that the place is in, and no key occurs twice among
them. -/
structure InScopes (w : WalkSetting) (program : Tree) (place : List Nat) (around : List Scope) :
    Prop where
  node : ∃ n, program.partAt? place = some n
  outwards : around = w.scopes.outwards (scopeAt program place)
  nodup : (around.map Scope.key).Nodup

section

variable {ok ok' : List Nat → List Scope → Prop} {around : List Scope} {record : List Event}
  {w : WalkSetting} {program : Tree}

theorem Nested.mono (h : Nested ok around record)
    (hok : ∀ place around, ok place around → ok' place around) :
    Nested ok' around record := by
  induction h with
  | nil => exact .nil
  | visit hplace _ ih => exact .visit (hok _ _ hplace) ih
  | scope _ _ ihinner ih => exact .scope ihinner ih

/-- The node at a place, and scopes that are found by the keys of the nodes around it. -/
structure Stands (w : WalkSetting) (program : Tree) (around : List Scope) (place : List Nat)
    (t : Tree) : Prop where
  node : partIn? program.parts place = some t
  mem : ∀ s ∈ around, s ∈ w.scopes.scopes
  keys : around.map Scope.key = wayKeys program (openersIn program.parts place)

namespace Stands

variable {place : List Nat} {t : Tree}

theorem part_at (h : Orderly program.parts) (ht : Stands w program around place t) {i : Nat}
    {part : Tree} (hi : t.parts[i]? = some part) :
    partIn? program.parts (place ++ [i]) = some part := by
  rw [partIn?_snoc ht.node, (orderly_of_partIn? h ht.node).visited_eq]
  exact hi

/-- A node that opens no scope has the scopes around it around its parts. -/
theorem part (h : Orderly program.parts) (ht : Stands w program around place t)
    (hopens : opens t.kind = false) {i : Nat} {part : Tree} (hi : t.parts[i]? = some part) :
    Stands w program around (place ++ [i]) part := by
  refine ⟨ht.part_at h hi, ht.mem, ?_⟩
  rw [ht.keys, openersIn_snoc ht.node, hopens]
  rfl

/-- The scope of a node that opens one is found, and is around its parts too. -/
theorem inner (hS : w.scopes.SameOpeners (ofTree program)) (h : Orderly program.parts)
    (ht : Stands w program around place t) (hopens : opens t.kind = true) :
    ∃ scope, w.scopes.lookup (scopeKind t.kind) t.span = some scope ∧
      ∀ i part, t.parts[i]? = some part →
        Stands w program (scope :: around) (place ++ [i]) part := by
  obtain ⟨scope, hscope, hlookup, hkey⟩ := exists_lookup_of_opens hS ht.node hopens
  refine ⟨scope, hlookup, fun i part hi =>
    ⟨ht.part_at h hi, List.forall_mem_cons.2 ⟨hscope, ht.mem⟩, ?_⟩⟩
  rw [List.map_cons, hkey, ht.keys, openersIn_snoc ht.node, hopens]
  rfl

theorem inScopes (hS : w.scopes.SameOpeners (ofTree program)) (h : Orderly program.parts)
    (ht : Stands w program around place t) : InScopes w program place around := by
  refine ⟨⟨t, partAt?_of_partIn? h ht.node⟩, ?_, ht.keys ▸ nodup_wayKeys h place⟩
  exact eq_of_keys (hS.keys ▸ nodup_keys_ofTree h.nodup) ht.mem
    (fun _ hs => mem_of_mem_outwards hs) (ht.keys.trans (keys_outwards hS ht.node).symm)

/-- The program's own scope is around its parts. -/
theorem start (hS : w.scopes.SameOpeners (ofTree program)) {outer : Scope}
    (houter : w.scopes.get? root = some outer) {i : Nat} {part : Tree}
    (hi : program.parts[i]? = some part) : Stands w program [outer] [i] part := by
  obtain ⟨outer', houter', hkey⟩ := exists_root hS
  obtain rfl := Option.some.inj (houter.symm.trans houter')
  exact ⟨hi, List.forall_mem_singleton.2 (List.mem_of_getElem? houter),
    congrArg (fun key => [key]) hkey⟩

end Stands

/-- **Each node is walked in its scopes.** -/
theorem followed_of_stands (hS : w.scopes.SameOpeners (ofTree program)) (h : Orderly program.parts)
    (t : Tree) (place : List Nat) (around : List Scope) (ht : Stands w program around place t) :
    Followed (InScopes w program) w around place t := by
  induction t using inductionOnParts generalizing place around with
  | node kind span parts ih =>
    have hclosed (hopens : opens kind = false) (i : Nat) (part : Tree) (hi : parts[i]? = some part) :
        Followed (InScopes w program) w around (place ++ [i]) part :=
      ih part (List.mem_of_getElem? hi) _ _ (ht.part h hopens hi)
    have hopened (hopens : opens kind = true) :
        ∃ scope, w.scopes.lookup (scopeKind kind) span = some scope ∧
          ∀ i part, parts[i]? = some part →
            Followed (InScopes w program) w (scope :: around) (place ++ [i]) part := by
      obtain ⟨scope, hlookup, hinner⟩ := ht.inner hS h hopens
      exact ⟨scope, hlookup, fun i part hi =>
        ih part (List.mem_of_getElem? hi) _ _ (hinner i part hi)⟩
    refine ⟨follows_walk (orderly_of_partIn? h ht.node).tidy_head (ht.inScopes hS h) hclosed hopened,
      fun hopens => ?_⟩
    rw [visitParts, Walk.visitParts]
    exact follows_visitAll fun j part hj => (Nat.zero_add j).symm ▸ hclosed hopens j part hj

/-- **A program is walked in its scopes.** -/
theorem follows_program (hS : w.scopes.SameOpeners (ofTree program)) (h : Orderly program.parts)
    {outer : Scope} (houter : w.scopes.get? root = some outer) :
    Follows (InScopes w program) [outer] (visitAll w [] 0 program.parts)
      (Walk.visitAll w program.parts) := by
  refine follows_visitAll fun j part hj => ?_
  rw [List.nil_append, Nat.zero_add]
  exact followed_of_stands hS h part [j] [outer] (.start hS houter hj)

end

end Trail

/-! ## Analyses -/

namespace Build

open ScopeTree

variable {b : Build} {source : String} {parsed : Parsed}

theorem thins_prepare (h : b.specialCases ⊆ SpecialCase.all) (files : FileTree) (registry : Registry)
    (id source : String) (parsed : Parsed) :
    Thins parsed.tree (b.prepare files registry id source parsed).2.1 :=
  SpecialCase.thins_applyFirst h id _ parsed.tree _

theorem sameOpeners_prepare (b : Build) (files : FileTree) (registry : Registry) (id source : String)
    (parsed : Parsed) :
    (b.prepare files registry id source parsed).1.scopes.SameOpeners
      (ofTree (b.prepare files registry id source parsed).2.1) := by
  unfold prepare
  dsimp only
  split
  · exact Wrapper.sameOpeners_unwrap _ _ _ _
  · exact rfl

theorem orderly_prepare (h : b.specialCases ⊆ SpecialCase.all) (files : FileTree)
    (registry : Registry) (id : String) (hparse : parse source = .ok parsed) :
    Orderly (b.prepare files registry id source parsed).2.1.parts := by
  obtain ⟨hi, hspans⟩ := ownSpans_parse hparse
  exact ((thins_prepare h files registry id source parsed).orderly hspans.orderly).partsOf

/-- **An analysis walks a program in its scopes.** The walk from the program's own scope
does what its recorded form does, and in its record whatever is entered is left, in
turn. At each node that is walked, the scopes entered and not left are those on the way
out from the scope in which the node was placed, each once and in order. No two scopes
are found by one key: neither in the program that is walked, nor in the text that was
parsed, where nodes at two places that open scopes never share one. -/
theorem walks_in_scopes (h : b.specialCases ⊆ SpecialCase.all) (files : FileTree)
    (registry : Registry) (id : String) (hparse : parse source = .ok parsed) :
    let (w, program, _) := b.prepare files registry id source parsed
    (∃ outer, w.scopes.get? root = some outer ∧ ∀ s, ∃ record,
      ((Trail.visitAll w [] 0 program.parts).run []).run s =
          (((), record), ((Walk.visitAll w program.parts).run s).2) ∧
        Trail.Nested (fun place around => (∃ n, program.partAt? place = some n) ∧
          around = w.scopes.outwards (scopeAt program place) ∧
            (around.map Scope.key).Nodup) [outer] record) ∧
      (w.scopes.scopes.map Scope.key).Nodup ∧
      ∀ p q n m, parsed.tree.partAt? p = some n → parsed.tree.partAt? q = some m →
        opens n.kind = true → opens m.kind = true →
          (scopeKind n.kind, n.span) = (scopeKind m.kind, m.span) → p = q := by
  have hS := sameOpeners_prepare b files registry id source parsed
  have horderly := orderly_prepare h files registry id hparse
  generalize b.prepare files registry id source parsed = prepared at hS horderly
  obtain ⟨w, program, draft⟩ := prepared
  obtain ⟨outer, houter, -⟩ := exists_root hS
  refine ⟨⟨outer, houter, fun s => ?_⟩, ?_, fun p q n m hn hm hopens hopens' hkey => ?_⟩
  · obtain ⟨record, hnested, hrun⟩ := Trail.follows_program hS horderly houter [] s
    exact ⟨record, hrun, hnested.mono fun _ _ hin => ⟨hin.node, hin.outwards, hin.nodup⟩⟩
  · exact hS.keys ▸ nodup_keys_ofTree horderly.nodup
  · obtain ⟨hi, hspans⟩ := ownSpans_parse hparse
    have hnodup : parsed.tree.ownedSpans.Nodup := ownedSpansIn_singleton _ ▸ hspans.nodup
    exact place_eq_of_span_eq hnodup hn hm (ownsSpan_of_opens hopens) (ownsSpan_of_opens hopens')
      (congrArg Prod.snd hkey)

/-- Five scopes, each entered where the nodes in it are walked. -/
theorem walks_in_scopes_caught :
    let b := Build.ofOptions default
    let source := "try { f(x => x); } catch (e) { g(e); }"
    ∃ parsed, b.specialCases ⊆ SpecialCase.all ∧ parse source = .ok parsed ∧
      let (w, program, _) := b.prepare onlyAsset (.ofExisting []) "/pkg/m.js" source parsed
      (w.scopes.scopes.map (·.kind)) = [.program, .block, .function, .catch_, .block] ∧
        ∃ outer, w.scopes.get? root = some outer ∧ ∀ s, ∃ record,
          ((Trail.visitAll w [] 0 program.parts).run []).run s =
              (((), record), ((Walk.visitAll w program.parts).run s).2) ∧
            Trail.Nested (fun place around => (∃ n, program.partAt? place = some n) ∧
              around = w.scopes.outwards (scopeAt program place) ∧
                (around.map Scope.key).Nodup) [outer] record := by
  intro b source
  have hrules : b.specialCases ⊆ SpecialCase.all := List.Subset.refl _
  have hchecked : ((parse source).toOption.any fun parsed =>
      let (w, _, _) := b.prepare onlyAsset (.ofExisting []) "/pkg/m.js" source parsed
      decide ((w.scopes.scopes.map (·.kind)) = [.program, .block, .function, .catch_, .block])) =
        true := by
    decide +kernel
  cases hparse : parse source with
  | error refusal => rw [hparse] at hchecked; cases hchecked
  | ok parsed =>
    rw [hparse, Except.toOption, Option.any_some] at hchecked
    have hwalk := walks_in_scopes hrules onlyAsset (.ofExisting []) "/pkg/m.js" hparse
    exact ⟨parsed, hrules, rfl, of_decide_eq_true hchecked, hwalk.1⟩

end Build

end ModuleAssets
