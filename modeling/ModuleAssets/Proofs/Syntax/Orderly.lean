import Mathlib.Data.List.Duplicate
import ModuleAssets.Proofs.Syntax.Outwards
/-!
# Syntax trees — orderly trees

Where no two nodes share a span that they have for themselves, a place is told by the
span of the node there, and no two scopes of a program are found by one key. This lasts
when trees are thinned out: parts are left out, and what is put in their place has no
span for itself.
-/

namespace ModuleAssets.Syntax.Tree

/-- What holds of a node if it holds of its parts holds of all trees. -/
theorem inductionOnParts {motive : Tree → Prop} (t : Tree)
    (node : ∀ kind span parts, (∀ part ∈ parts, motive part) → motive (.node kind span parts)) :
    motive t := by
  obtain ⟨kind, span, parts⟩ := t
  exact node kind span parts fun part _ => inductionOnParts part node
termination_by sizeOf t
decreasing_by
  have hlt := List.sizeOf_lt_of_mem ‹part ∈ parts›
  rw [Tree.node.sizeOf_spec]
  omega

/-- All owners in the trees are tidy. -/
def AllTidy (ts : List Tree) : Prop :=
  ∀ n ∈ ownersIn ts, n.Tidy

/-- All owners are tidy, and no two nodes share a span that they have for themselves. -/
structure Orderly (ts : List Tree) : Prop where
  nodup : (ownedSpansIn ts).Nodup
  tidy : AllTidy ts

section

variable {kind : Kind} {span : Span} {parts parts' ts us : List Tree} {t t' n m part : Tree}
  {place place' : List Nat}

/-! ## Nodes in orderly trees -/

theorem allTidy_cons : AllTidy (t :: ts) ↔ AllTidy [t] ∧ AllTidy ts := by
  simp only [AllTidy, ownersIn, List.append_nil, List.forall_mem_append]

theorem allTidy_node :
    AllTidy [node kind span parts] ↔ (node kind span parts).Tidy ∧ AllTidy parts := by
  rw [AllTidy, ownersIn_node, List.forall_mem_append]
  refine and_congr_left' ?_
  split
  · exact List.forall_mem_singleton
  · rename_i hkind
    have htidy := tidy_of_not_restrictsParts (n := node kind span parts)
      (not_owns_of_not_isOwner (Bool.eq_false_iff.2 hkind)).2
    exact iff_of_true (fun _ => nofun) htidy

theorem allTidy_of_owners (h : t.owners = []) : AllTidy [t] := by
  rw [AllTidy, ownersIn_singleton, h]
  exact fun _ => nofun

theorem ownedSpans_of_owners (h : t.owners = []) : t.ownedSpans = [] := by
  rw [ownedSpans_eq, h]
  rfl

theorem OwnSpans.orderly {lo hi : Nat} (h : OwnSpans True lo hi ts) : Orderly ts :=
  ⟨h.nodup, h.tidy trivial⟩

namespace Orderly

theorem of_draws (h : Orderly ts) (hdraws : DrawsFrom us ts) : Orderly us :=
  ⟨OwnSpans.nodup_of_subperm hdraws.spans h.nodup, fun n hn => h.tidy n (hdraws.subset hn)⟩

theorem of_mem (h : Orderly ts) (ht : t ∈ ts) : Orderly [t] := by
  obtain ⟨before, after, rfl⟩ := List.append_of_mem ht
  exact h.of_draws ((DrawsFrom.left [t] after).trans (.right before _))

theorem partsOf (h : Orderly [t]) : Orderly t.parts := by
  obtain ⟨kind, span, parts⟩ := t
  exact h.of_draws (.of_parts kind span parts)

theorem tidy_head (h : Orderly [t]) : t.Tidy := by
  obtain ⟨kind, span, parts⟩ := t
  exact (allTidy_node.1 h.tidy).1

/-- In an import nothing stands at all, so that all parts are visited. -/
theorem visited_eq (h : Orderly [t]) : visited t.kind t.parts = t.parts := by
  have htidy := h.tidy_head
  obtain ⟨kind, span, parts⟩ := t
  cases kind
  case import_ specifier imports => exact (htidy.1 specifier imports rfl).symm
  all_goals rfl

end Orderly

/-! ## Places and spans -/

theorem ownedSpansIn_eq_flatMap (ts : List Tree) : ownedSpansIn ts = ts.flatMap ownedSpans := by
  induction ts with
  | nil => rfl
  | cons t ts ih => rw [ownedSpansIn, ih, List.flatMap_cons]

theorem ownedSpansIn_sublist (t : Tree) : (ownedSpansIn t.parts).Sublist t.ownedSpans := by
  obtain ⟨kind, span, parts⟩ := t
  rw [ownedSpans]
  exact List.sublist_append_right _ _

theorem ownedSpans_sublist (h : t ∈ ts) : t.ownedSpans.Sublist (ownedSpansIn ts) := by
  obtain ⟨before, after, rfl⟩ := List.append_of_mem h
  rw [ownedSpansIn_append, ownedSpansIn]
  exact (List.sublist_append_left _ _).trans (List.sublist_append_right _ _)

theorem span_mem_of_partAt? (h : t.partAt? place = some n) (howns : ownsSpan n.kind = true) :
    n.span ∈ t.ownedSpans := by
  induction place generalizing t with
  | nil =>
    obtain rfl := Option.some.inj h
    exact span_mem_ownedSpans howns
  | cons i place ih =>
    obtain ⟨kind, span, parts⟩ := t
    obtain ⟨part, hpart, h⟩ := Option.bind_eq_some_iff.1 h
    have hparts := ownedSpansIn_sublist (.node kind span parts)
    exact hparts.subset ((ownedSpans_sublist (List.mem_of_getElem? hpart)).subset (ih h))

/-- A node has another span than those inside of it. -/
theorem span_ne_of_inside (h : t.ownedSpans.Nodup) (howns : ownsSpan t.kind = true)
    (hn : part ∈ t.parts) (hplace : part.partAt? place = some n) (howns' : ownsSpan n.kind = true) :
    t.span ≠ n.span := by
  obtain ⟨kind, span, parts⟩ := t
  rw [ownedSpans, if_pos (show ownsSpan kind = true from howns), List.singleton_append,
    List.nodup_cons] at h
  intro heq
  exact h.1 ((show span = n.span from heq) ▸
    (ownedSpans_sublist hn).subset (span_mem_of_partAt? hplace howns'))

/-- Parts that have a span in common are the same part. -/
theorem index_eq_of_mem {i j : Nat} {other : Tree} (h : (ownedSpansIn parts).Nodup)
    (hi : parts[i]? = some part) (hj : parts[j]? = some other) (hpart : span ∈ part.ownedSpans)
    (hother : span ∈ other.ownedSpans) : i = j := by
  rw [ownedSpansIn_eq_flatMap, List.nodup_flatMap, List.pairwise_iff_getElem] at h
  obtain ⟨hlt, rfl⟩ := List.getElem?_eq_some_iff.1 hi
  obtain ⟨hlt', rfl⟩ := List.getElem?_eq_some_iff.1 hj
  obtain hbefore | heq | hafter := Nat.lt_trichotomy i j
  · exact (h.2 i j hlt hlt' hbefore hpart hother).elim
  · exact heq
  · exact (h.2 j i hlt' hlt hafter hother hpart).elim

/-- **A place is told by the span of the node there**, if the node has it for itself. -/
theorem place_eq_of_span_eq (h : t.ownedSpans.Nodup) (hn : t.partAt? place = some n)
    (hm : t.partAt? place' = some m) (howns : ownsSpan n.kind = true)
    (howns' : ownsSpan m.kind = true) (hspan : n.span = m.span) : place = place' := by
  induction place generalizing t place' with
  | nil =>
    cases place' with
    | nil => rfl
    | cons j place' =>
      obtain rfl := Option.some.inj hn
      obtain ⟨kind, span, parts⟩ := t
      obtain ⟨part, hpart, hm⟩ := Option.bind_eq_some_iff.1 hm
      exact absurd hspan (span_ne_of_inside h howns (List.mem_of_getElem? hpart) hm howns')
  | cons i place ih =>
    cases place' with
    | nil =>
      obtain rfl := Option.some.inj hm
      obtain ⟨kind, span, parts⟩ := t
      obtain ⟨part, hpart, hn⟩ := Option.bind_eq_some_iff.1 hn
      exact absurd hspan.symm (span_ne_of_inside h howns' (List.mem_of_getElem? hpart) hn howns)
    | cons j place' =>
      obtain ⟨kind, span, parts⟩ := t
      obtain ⟨part, hpart, hn⟩ := Option.bind_eq_some_iff.1 hn
      obtain ⟨other, hother, hm⟩ := Option.bind_eq_some_iff.1 hm
      -- both nodes are in one part, as no two parts have the span
      have hparts : (ownedSpansIn parts).Nodup := (ownedSpansIn_sublist (.node kind span parts)).nodup h
      obtain rfl : i = j := index_eq_of_mem hparts hpart hother (span_mem_of_partAt? hn howns)
        (hspan ▸ span_mem_of_partAt? hm howns')
      obtain rfl := Option.some.inj (hpart.symm.trans hother)
      have hinner := (ownedSpans_sublist (List.mem_of_getElem? hpart)).nodup hparts
      rw [ih hinner hn hm]

/-! ## Trees that are thinned out -/

/-- The second tree is what the first may become when it is thinned out. -/
structure Thins (t t' : Tree) : Prop where
  kind : t'.kind = t.kind
  spans : t'.ownedSpans.Sublist t.ownedSpans
  tidy : AllTidy [t] → AllTidy [t']

theorem Thins.refl (t : Tree) : Thins t t :=
  ⟨rfl, .refl _, id⟩

theorem Thins.trans {t'' : Tree} (h : Thins t t') (h' : Thins t' t'') : Thins t t'' :=
  ⟨h'.kind.trans h.kind, h'.spans.trans h.spans, fun htidy => h'.tidy (h.tidy htidy)⟩

theorem Thins.orderly (h : Thins t t') (ht : Orderly [t]) : Orderly [t'] := by
  refine ⟨?_, h.tidy ht.tidy⟩
  rw [ownedSpansIn_singleton]
  exact h.spans.nodup (ownedSpansIn_singleton t ▸ ht.nodup)

/-- The parts of a node are thinned out. What is written to stays, and an import stays
empty. -/
theorem Thins.node (hhead : restrictsParts kind = true →
      parts'.head?.map Tree.kind = parts.head?.map Tree.kind)
    (hspans : (ownedSpansIn parts').Sublist (ownedSpansIn parts))
    (htidy : AllTidy parts → AllTidy parts') :
    Thins (.node kind span parts) (.node kind span parts') := by
  refine ⟨rfl, ?_, fun h => ?_⟩
  · rw [ownedSpans, ownedSpans]
    exact (List.Sublist.refl _).append hspans
  · rw [allTidy_node] at h ⊢
    obtain ⟨hnode, hparts⟩ := h
    refine ⟨⟨fun specifier imports himport => ?_, fun hwrites t' ht' => ?_⟩, htidy hparts⟩
    -- an import has no first part before, so that it has none after
    · obtain rfl : kind = .import_ specifier imports := himport
      have hempty : parts = [] := hnode.1 specifier imports rfl
      have hsame := hhead rfl
      rw [hempty, List.head?_nil, Option.map_none, Option.map_eq_none_iff,
        List.head?_eq_none_iff] at hsame
      exact hsame
    · have hrestricts : restrictsParts kind = true := by
        cases kind
        case assign | update | declaration => rfl
        all_goals exact absurd hwrites Bool.false_ne_true
      have hsame := hhead hrestricts
      rw [show parts'.head? = some t' from ht', Option.map_some, eq_comm,
        Option.map_eq_some_iff] at hsame
      obtain ⟨t, ht, hkind⟩ := hsame
      exact hkind ▸ hnode.2 hwrites t ht

/-- Each part is thinned out for itself. -/
theorem thins_parts (h : List.Forall₂ Thins parts parts') :
    parts'.head?.map Tree.kind = parts.head?.map Tree.kind ∧
      (ownedSpansIn parts').Sublist (ownedSpansIn parts) ∧ (AllTidy parts → AllTidy parts') := by
  induction h with
  | nil => exact ⟨rfl, .refl _, id⟩
  | cons hpart _ ih =>
    obtain ⟨-, hspans, htidy⟩ := ih
    refine ⟨congrArg some hpart.kind, hpart.spans.append hspans, fun h => ?_⟩
    obtain ⟨hhead, hrest⟩ := allTidy_cons.1 h
    exact allTidy_cons.2 ⟨hpart.tidy hhead, htidy hrest⟩

theorem Thins.ofParts (kind : Kind) (span : Span) (h : List.Forall₂ Thins parts parts') :
    Thins (.node kind span parts) (.node kind span parts') :=
  have ⟨hhead, hspans, htidy⟩ := thins_parts h
  .node (fun _ => hhead) hspans htidy

end

end ModuleAssets.Syntax.Tree

namespace ModuleAssets.Syntax.ScopeTree

open ModuleAssets.Syntax.Tree

/-! ## Keys of scopes -/

/-- How the scope of a node is found. -/
def openerKey (n : Tree) : ScopeKind × Span :=
  (scopeKind n.kind, n.span)

section

variable {program n : Tree} {parts : List Tree} {place : List Nat}

theorem keys_declareAll (t : ScopeTree) (id : Nat) (names : List String) :
    (t.declareAll id names).scopes.map Scope.key = t.scopes.map Scope.key := by
  refine List.ext_getElem? fun i => ?_
  rw [List.getElem?_map, List.getElem?_map]
  change ((t.declareAll id names).get? i).map Scope.key = (t.get? i).map Scope.key
  rw [get?_declareAll, Option.map_map]
  refine congrArg (fun f => (t.get? i).map f) (funext fun s => ?_)
  exact (Scope.key_declareAll _ s).1

theorem keys_declare (t : ScopeTree) (id : Nat) (name : String) :
    (t.declare id name).scopes.map Scope.key = t.scopes.map Scope.key :=
  keys_declareAll t id [name]

theorem keys_openScope (t : ScopeTree) (kind : ScopeKind) (span : Span) (parent : Option Nat) :
    (t.openScope kind span parent).scopes.map Scope.key = t.scopes.map Scope.key ++ [(kind, span)] := by
  rw [openScope, List.map_append, List.map_singleton]
  rfl

/-- After the scopes of the first tree come scopes with these spans, or with some of them,
none more often. None of them is that of a program. -/
def Adds (t t' : ScopeTree) (spans : List Span) : Prop :=
  ∃ new, t'.scopes.map Scope.key = t.scopes.map Scope.key ++ new ∧
    (new.map Prod.snd).Sublist spans ∧ ∀ key ∈ new, key.1 ≠ .program

theorem Adds.refl (t : ScopeTree) (spans : List Span) : Adds t t spans :=
  ⟨[], (List.append_nil _).symm, List.nil_sublist _, fun _ => nofun⟩

theorem Adds.trans {t t' t'' : ScopeTree} {spans spans' : List Span} (h : Adds t t' spans)
    (h' : Adds t' t'' spans') : Adds t t'' (spans ++ spans') := by
  obtain ⟨new, hnew, hspans, hkinds⟩ := h
  obtain ⟨more, hmore, hspans', hkinds'⟩ := h'
  refine ⟨new ++ more, ?_, ?_, List.forall_mem_append.2 ⟨hkinds, hkinds'⟩⟩
  · rw [hmore, hnew, List.append_assoc]
  · rw [List.map_append]
    exact hspans.append hspans'

/-- A node adds the scope that it opens. -/
theorem adds_opened (current : Nat) (t : ScopeTree) (kind : Kind) (span : Span) (parts : List Tree) :
    Adds t (opened current t kind span parts).1 (if ownsSpan kind then [span] else []) := by
  have hopener (hopens : opens kind = true)
      (hkeys : (opened current t kind span parts).1.scopes.map Scope.key =
        t.scopes.map Scope.key ++ [(scopeKind kind, span)]) :
      Adds t (opened current t kind span parts).1 (if ownsSpan kind then [span] else []) := by
    refine ⟨_, hkeys, ?_, List.forall_mem_singleton.2 (scopeKind_ne_program kind)⟩
    rw [if_pos (ownsSpan_of_opens hopens)]
    exact List.Sublist.refl _
  have hother (hkeys : (opened current t kind span parts).1.scopes.map Scope.key =
      t.scopes.map Scope.key) :
      Adds t (opened current t kind span parts).1 (if ownsSpan kind then [span] else []) :=
    ⟨[], hkeys.trans (List.append_nil _).symm, List.nil_sublist _, fun _ => nofun⟩
  cases kind
  -- a function puts names into the scope it opens, which leaves the keys as they are
  case functionDeclaration | function | arrow | block | catch_ =>
    refine hopener rfl ?_
    simp only [opened, keys_declareAll, keys_openScope, keys_declare]
    rfl
  case classDeclaration => exact hother (keys_declare t _ _)
  case declarations | import_ => exact hother (keys_declareAll t _ _)
  all_goals exact hother rfl

mutual

/-- A tree adds scopes with spans that its nodes have for themselves. -/
theorem adds_collect (current : Nat) (t : ScopeTree) : ∀ tree : Tree,
    Adds t (collect current t tree) tree.ownedSpans
  | .node kind span parts => by
    rw [collect_node, ownedSpans]
    refine (adds_opened current t kind span parts).trans ?_
    obtain hvisited | hvisited := visited_eq kind parts
    · rw [hvisited]
      exact adds_collectAll _ _ parts
    · rw [hvisited]
      exact .refl _ _

theorem adds_collectAll (current : Nat) (t : ScopeTree) : ∀ parts : List Tree,
    Adds t (collectAll current t parts) (ownedSpansIn parts)
  | [] => .refl t []
  | tree :: rest => (adds_collect current t tree).trans (adds_collectAll current _ rest)

end

/-- **No two scopes of an orderly program are found by one key.** -/
theorem nodup_keys_ofTree (h : (ownedSpansIn program.parts).Nodup) :
    ((ofTree program).scopes.map Scope.key).Nodup := by
  obtain ⟨new, hnew, hspans, hkinds⟩ := adds_collectAll root (start program) program.parts
  rw [ofTree, ← start, hnew]
  refine List.nodup_cons.2 ⟨fun hmem => hkinds _ hmem rfl, ?_⟩
  exact List.Nodup.of_map Prod.snd (hspans.nodup h)

/-- So no key comes twice. -/
theorem not_duplicate_key (h : Orderly program.parts) (key : ScopeKind × Span) :
    ¬ ((ofTree program).scopes.map Scope.key).Duplicate key :=
  List.nodup_iff_forall_not_duplicate.1 (nodup_keys_ofTree h.nodup) key

/-! ## The nodes around a place -/

theorem orderly_of_partIn? (hparts : Orderly parts) (hn : partIn? parts place = some n) :
    Orderly [n] := by
  induction place generalizing parts with
  | nil => cases hn
  | cons i place ih =>
    obtain ⟨part, hpart, ⟨rfl, rfl⟩ | ⟨-, hn⟩⟩ := exists_part_of_partIn? hn
    · exact hparts.of_mem (List.mem_of_getElem? hpart)
    · have hpart' := hparts.of_mem (List.mem_of_getElem? hpart)
      rw [hpart'.visited_eq] at hn
      exact ih hpart'.partsOf hn

theorem spans_openersIn_sublist (parts : List Tree) (place : List Nat) :
    (((openersIn parts place).map Tree.span).reverse).Sublist (ownedSpansIn parts) := by
  induction place generalizing parts with
  | nil => exact List.nil_sublist _
  | cons i place ih =>
    cases place with
    | nil => exact List.nil_sublist _
    | cons j place =>
      cases hpart : parts[i]? with
      | none =>
        rw [openersIn, hpart]
        exact List.nil_sublist _
      | some part =>
        rw [openersIn_cons hpart, List.map_append, List.reverse_append]
        refine List.Sublist.trans ?_ (ownedSpans_sublist (List.mem_of_getElem? hpart))
        obtain ⟨kind, span, inner⟩ := part
        have hinner : (ownedSpansIn (visited kind inner)).Sublist (ownedSpansIn inner) := by
          obtain hvisited | hvisited := visited_eq kind inner
          · rw [hvisited]
          · rw [hvisited]
            exact List.nil_sublist _
        rw [ownedSpans]
        refine List.Sublist.append ?_ ((ih (visited kind inner)).trans hinner)
        split
        · rename_i hopens
          rw [if_pos (show ownsSpan kind = true from ownsSpan_of_opens hopens)]
          exact List.Sublist.refl _
        · exact List.nil_sublist _

/-- **The nodes around a place that open scopes differ in their spans.** -/
theorem nodup_spans_openersIn (h : (ownedSpansIn parts).Nodup) (place : List Nat) :
    ((openersIn parts place).map Tree.span).Nodup :=
  List.nodup_reverse.1 ((spans_openersIn_sublist parts place).nodup h)

end

end ModuleAssets.Syntax.ScopeTree
