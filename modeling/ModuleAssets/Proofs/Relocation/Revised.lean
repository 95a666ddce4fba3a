import ModuleAssets.Proofs.Relocation.Layout
import ModuleAssets.Proofs.Relocation.Room
import ModuleAssets.Relocation.Wrapper
import Mathlib.Data.List.Forall2
/-!
# Revisions — trees that the rules for special cases change

A rule changes some node of a tree and may overwrite a place in it. What stood at the
place is gone from the tree then, or it is a node with nothing below it. So the tree
is still laid out, and all of it may be overwritten beside the place. `Revised` says
this of a tree, and that it is kept from the node that is changed up to the program.
-/

namespace ModuleAssets

open Syntax

namespace Syntax.Tree

variable {t t' n v v' a b p p' : Tree} {kind : Kind} {span place : Span} {parts parts' : List Tree}

/-! ## Trees with the same outline -/

/-- In a node, the trees may stand for each other. -/
structure Alike (t t' : Tree) : Prop where
  span : t'.span = t.span
  isBare : t'.isBare = t.isBare
  isFunction : t'.isFunction = t.isFunction
  parts : t.isFunction = true → t'.parts.map Tree.span = t.parts.map Tree.span

theorem Alike.refl (t : Tree) : Alike t t :=
  ⟨rfl, rfl, rfl, fun _ => rfl⟩

theorem Alike.trans (h : Alike a b) (h' : Alike b t) : Alike a t where
  span := h'.span.trans h.span
  isBare := h'.isBare.trans h.isBare
  isFunction := h'.isFunction.trans h.isFunction
  parts hfunction := (h'.parts (h.isFunction.trans hfunction)).trans (h.parts hfunction)

theorem Beside.alike (h : Beside kind a b) (ha : Alike a p) (hb : Alike b p') :
    Beside kind p p' := by
  unfold Beside at h ⊢
  rw [ha.isBare, hb.isBare, ha.span, hb.span, hb.isFunction]
  refine h.imp_right (.imp_right (.imp_right fun ⟨hmethod, hfunction, hwithin, hparts⟩ =>
    ⟨hmethod, hfunction, hwithin, fun part hpart => ?_⟩))
  have hspan : part.span ∈ b.parts.map Tree.span :=
    hb.parts hfunction ▸ List.mem_map_of_mem hpart
  obtain ⟨old, hold, heq⟩ := List.mem_map.1 hspan
  exact heq ▸ hparts old hold

theorem exists_alike_of_mem (h : List.Forall₂ Alike parts parts') (hp : p' ∈ parts') :
    ∃ p ∈ parts, Alike p p' := by
  induction h with
  | nil => cases hp
  | cons halike _ ih =>
    obtain rfl | hrest := List.mem_cons.1 hp
    · exact ⟨_, List.mem_cons_self, halike⟩
    · obtain ⟨p, hp, halike⟩ := ih hrest
      exact ⟨p, List.mem_cons_of_mem _ hp, halike⟩

theorem pairwise_beside_of_alike (h : List.Forall₂ Alike parts parts')
    (hbeside : parts.Pairwise (Beside kind)) : parts'.Pairwise (Beside kind) := by
  induction h with
  | nil => exact .nil
  | cons halike hrest ih =>
    obtain ⟨hfirst, hbeside⟩ := List.pairwise_cons.1 hbeside
    refine List.pairwise_cons.2 ⟨fun q' hq' => ?_, ih hbeside⟩
    obtain ⟨q, hq, hqalike⟩ := exists_alike_of_mem hrest hq'
    exact (hfirst q hq).alike halike hqalike

/-- **Parts that are alike are laid out alike.** -/
theorem Arranged.alike (h : Arranged kind span parts) (halike : List.Forall₂ Alike parts parts') :
    Arranged kind span parts' := by
  obtain ⟨hplaced, hbeside, hcall, hbinding⟩ := h
  refine ⟨fun p' hp' => ?_, pairwise_beside_of_alike halike hbeside, fun hkind => ?_, fun hkind => ?_⟩
  · obtain ⟨p, hp, hpalike⟩ := exists_alike_of_mem halike hp'
    have hpart := hplaced p hp
    unfold Placed at hpart ⊢
    rwa [hpalike.span, hpalike.isBare]
  · cases halike with
    | nil => exact hcall hkind
    | cons _ hrest =>
      intro argument hargument
      obtain ⟨old, hold, hsame⟩ := exists_alike_of_mem hrest hargument
      exact hsame.span ▸ hcall hkind old hold
  · rw [hbinding hkind] at halike
    cases halike
    rfl

theorem isBare_cons (p : Tree) (parts : List Tree) : (node kind span (p :: parts)).isBare = false :=
  not_bare_of_mem List.mem_cons_self

theorem map_span_of_alike (h : List.Forall₂ Alike parts parts') :
    parts'.map Tree.span = parts.map Tree.span := by
  induction h with
  | nil => rfl
  | cons halike _ ih => rw [List.map_cons, List.map_cons, halike.span, ih]

/-- A node with other parts of the same outline has the same outline. -/
theorem Alike.node (h : List.Forall₂ Alike parts parts') :
    Alike (node kind span parts) (node kind span parts') where
  span := rfl
  isBare := by
    cases h with
    | nil => rfl
    | cons => rw [isBare_cons, isBare_cons]
  isFunction := rfl
  parts _ := map_span_of_alike h

theorem laid_of_alike (h : (node kind span parts).Laid) (halike : List.Forall₂ Alike parts parts')
    (hlaid : ∀ part ∈ parts', part.Laid) : (node kind span parts').Laid :=
  laid_node.2 ⟨(laid_node.1 h).1.alike halike, hlaid⟩

/-! ## Revised trees -/

/-- The second tree is the first one, changed so that the place may be overwritten. -/
structure Revised (t t' : Tree) (place : Span) : Prop where
  alike : Alike t t'
  laid : t'.Laid
  admits : t'.Admits place
  inner : ∃ n, t.Contains n ∧ n.isBare = false ∧ n.isFunction = false ∧ place.Within n.span

/-- An overwrite within a part leaves room in the parts before it. A method's key is
no exception, since its function has it in none of its parts. -/
theorem Beside.admits_inner (h : Beside kind a b) (ha : a.Laid) (hb : b.Laid) (hn : b.Contains n)
    (hbare : n.isBare = false) (hfunction : n.isFunction = false) : a.Admits n.span := by
  have hbbare : b.isBare = false := by
    obtain rfl | ⟨part, hpart, -⟩ := contains_iff.1 hn
    · exact hbare
    · exact not_bare_of_mem hpart
  refine ha.admits_of_apart fun habare => ?_
  obtain hbare | hbare | hapart | ⟨-, hb', -, hparts⟩ := h
  · exact absurd (habare.symm.trans hbare) Bool.false_ne_true
  · exact absurd (hbbare.symm.trans hbare) Bool.false_ne_true
  · exact (hapart.symm.mono (hb.span_within hn hbare)).symm
  · obtain rfl | ⟨part, hpart, -, -, hwithin⟩ := hb.within hn hbare
    · exact absurd (hfunction.symm.trans hb') Bool.false_ne_true
    · exact ((hparts part hpart).symm.mono hwithin).symm

/-- **A node is revised when a part of it is.** -/
theorem Revised.ofPart {before after : List Tree}
    (h : (node kind span (before ++ p :: after)).Laid) (hp : Revised p p' place) :
    Revised (node kind span (before ++ p :: after)) (node kind span (before ++ p' :: after))
      place := by
  obtain ⟨harranged, hlaid⟩ := laid_node.1 h
  obtain ⟨n, hn, hbare, hfunction, hwithin⟩ := hp.inner
  have hmem : p ∈ before ++ p :: after := List.mem_append_right _ List.mem_cons_self
  have hpart : (Syntax.Tree.node kind span (before ++ p :: after)).Contains n :=
    contains_iff.2 (.inr ⟨p, hmem, hn⟩)
  have halike : List.Forall₂ Alike (before ++ p :: after) (before ++ p' :: after) :=
    List.rel_append (List.forall₂_same.2 fun t _ => .refl t)
      (.cons hp.alike (List.forall₂_same.2 fun t _ => .refl t))
  have hpbare : p.isBare = false := by
    obtain rfl | ⟨part, hpart, -⟩ := contains_iff.1 hn
    · exact hbare
    · exact not_bare_of_mem hpart
  obtain ⟨-, hafter, hbetween⟩ := List.pairwise_append.1 harranged.2.1
  refine ⟨.node halike, laid_node.2 ⟨harranged.alike halike, fun q hq => ?_⟩,
    admits_node.2 ⟨fun _ => .inl (hwithin.trans (h.span_within hpart hbare)), fun q hq => ?_⟩,
    n, hpart, hbare, hfunction, hwithin⟩
  · obtain hbefore | hrest := List.mem_append.1 hq
    · exact hlaid q (List.mem_append_left _ hbefore)
    · obtain rfl | hafter := List.mem_cons.1 hrest
      · exact hp.laid
      · exact hlaid q (List.mem_append_right _ (List.mem_cons_of_mem _ hafter))
  · obtain hbefore | hrest := List.mem_append.1 hq
    · have hqlaid := hlaid q (List.mem_append_left _ hbefore)
      exact ((hbetween q hbefore p List.mem_cons_self).admits_inner hqlaid (hlaid p hmem) hn hbare
        hfunction).mono hwithin
    · obtain rfl | hq := List.mem_cons.1 hrest
      · exact hp.admits
      · have hqlaid := hlaid q (List.mem_append_right _ (List.mem_cons_of_mem _ hq))
        refine (((List.pairwise_cons.1 hafter).1 q hq).admits hqlaid hpbare).mono ?_
        exact hwithin.trans ((hlaid p hmem).span_within hn hbare)

/-- A tree is revised when a node somewhere in it is. -/
theorem Revised.replaceAt (h : t.Laid) {path : List Nat} (hv : t.partAt? path = some v)
    (hrevised : Revised v v' place) : Revised t (t.replaceAt path v') place := by
  induction path generalizing t with
  | nil =>
    obtain rfl := Option.some.inj hv
    exact hrevised
  | cons i path ih =>
    obtain ⟨kind, span, parts⟩ := t
    rw [partAt?, Option.bind_eq_some_iff] at hv
    obtain ⟨p, hp, hv⟩ := hv
    obtain ⟨hlt, rfl⟩ := List.getElem?_eq_some_iff.1 hp
    have hsplit : parts = parts.take i ++ parts[i] :: parts.drop (i + 1) := by
      rw [List.getElem_cons_drop, List.take_append_drop]
    have hpart : parts[i].Laid := (laid_node.1 h).2 _ (List.getElem_mem hlt)
    rw [Tree.replaceAt, List.modify_eq_take_cons_drop hlt]
    have hnode := Revised.ofPart (hsplit ▸ h) (ih hpart hv)
    rwa [← hsplit] at hnode

/-- A tree is revised when its second part is taken out. -/
theorem Revised.takeOut (h : (node kind span [a, b]).Laid) (hbare : kind.mayHoldBare = false)
    (hmethod : kind.isMethod = false) (hfunction : (node kind span [a, b]).isFunction = false)
    (hplace : place.Within b.span) : Revised (node kind span [a, b]) (node kind span [a]) place := by
  obtain ⟨⟨hplaced, hbeside, hcall, hbinding⟩, hlaid⟩ := laid_node.1 h
  have ha : a.Laid := hlaid a List.mem_cons_self
  have hb : b ∈ [a, b] := List.mem_cons_of_mem _ List.mem_cons_self
  obtain ⟨hbbare, -, hwithin⟩ := (hplaced b hb).of_not_mayHoldBare hbare
  have hab : Beside kind a b := (List.pairwise_cons.1 hbeside).1 b List.mem_cons_self
  refine ⟨⟨rfl, by rw [isBare_cons, isBare_cons], rfl, fun h => ?_⟩, laid_node.2 ⟨⟨?_, ?_, ?_, ?_⟩, ?_⟩,
    admits_node.2 ⟨fun _ => .inl (hplace.trans hwithin), ?_⟩,
    _, .refl _, isBare_cons _ _, hfunction, hplace.trans hwithin⟩
  · exact absurd (hfunction.symm.trans h) Bool.false_ne_true
  · exact List.forall_mem_singleton.2 (hplaced a List.mem_cons_self)
  · exact List.pairwise_singleton _ _
  · exact fun _ argument hargument => absurd hargument List.not_mem_nil
  · exact fun hkind => absurd (hbinding hkind) (List.cons_ne_nil _ _)
  · exact List.forall_mem_singleton.2 ha
  · exact List.forall_mem_singleton.2 ((hab.admits_before ha hbbare hmethod).mono hplace)

end Syntax.Tree

/-! ## The rules -/

namespace SpecialCase

open Syntax.Tree

variable {ctx : SpecialCaseContext} {d d' : Draft} {t t' : Tree} {place : Span}

/-- The place is that of a node below the tree. -/
def IsBelow (t : Tree) (place : Span) : Prop :=
  ∃ part ∈ t.parts, ∃ n, part.Contains n ∧ n.isBare = false ∧ n.span = place

theorem laid_leaf {kind : Kind} {span : Span} : (Syntax.Tree.node kind span []).Laid :=
  laid_node.2 ⟨⟨fun _ => nofun, .nil, fun _ _ => nofun, fun _ => rfl⟩, fun _ => nofun⟩

theorem laid_argumentExpression (h : t.Laid) :
    (argumentExpression t).Laid ∧ t.Contains (argumentExpression t) ∧
      (t.isBare = false → (argumentExpression t).isBare = false ∧
        (argumentExpression t).span.Within t.span) := by
  unfold argumentExpression
  split
  · rename_i span e
    obtain ⟨hbare, -, hwithin⟩ := (h.arranged.1 e List.mem_cons_self).of_not_mayHoldBare rfl
    exact ⟨h.part List.mem_cons_self, contains_iff.2 (.inr ⟨e, List.mem_cons_self, .refl _⟩),
      fun _ => ⟨hbare, hwithin⟩⟩
  · exact ⟨h, .refl _, fun hbare => ⟨hbare, .refl _⟩⟩

/-! ### A binary that is tried at several places -/

theorem takeProbeIn_some {s : Span} {ts : List Tree}
    (h : ∀ t ∈ ts, takeProbe (some s) t = (some s, t)) : takeProbeIn (some s) ts = (some s, ts) := by
  induction ts with
  | nil => rfl
  | cons t rest ih =>
    rw [takeProbeIn, h t List.mem_cons_self]
    dsimp only
    rw [ih fun t ht => h t (List.mem_cons_of_mem _ ht)]

theorem takeProbe_some (s : Span) (t : Tree) : takeProbe (some s) t = (some s, t) := by
  obtain ⟨kind, span, parts⟩ := t
  have hparts : ∀ part ∈ parts, takeProbe (some s) part = (some s, part) :=
    fun part _ => takeProbe_some s part
  rw [takeProbe, takeProbeIn_some hparts]
termination_by sizeOf t
decreasing_by
  have hlt := List.sizeOf_lt_of_mem ‹part ∈ parts›
  rw [Tree.node.sizeOf_spec]
  omega

/-- Among several trees, the first that has a probe is the one it is taken from. -/
theorem takeProbeIn_none {ts : List Tree}
    (h : ∀ t ∈ ts, ∀ t', takeProbe none t = (none, t') → t' = t) :
    takeProbeIn none ts = (none, ts) ∨ ∃ before t after place t', ts = before ++ t :: after ∧
      takeProbe none t = (some place, t') ∧
      takeProbeIn none ts = (some place, before ++ t' :: after) := by
  induction ts with
  | nil => exact .inl rfl
  | cons t rest ih =>
    rw [takeProbeIn]
    cases hfirst : takeProbe none t with
    | mk found t' =>
      cases found with
      | some place =>
        dsimp only
        rw [takeProbeIn_some fun t _ => takeProbe_some place t]
        exact .inr ⟨[], t, rest, place, t', rfl, hfirst, rfl⟩
      | none =>
        obtain rfl := h t List.mem_cons_self t' hfirst
        dsimp only
        obtain hnone | ⟨before, u, after, place, u', rfl, hu, hrest⟩ :=
          ih fun t ht => h t (List.mem_cons_of_mem _ ht)
        · rw [hnone]
          exact .inl rfl
        · rw [hrest]
          exact .inr ⟨t' :: before, u, after, place, u', rfl, hu, rfl⟩

/-- A tree without a probe stays as it is. -/
theorem takeProbe_none (t : Tree) : ∀ t', takeProbe none t = (none, t') → t' = t := by
  obtain ⟨kind, span, parts⟩ := t
  have hparts : ∀ part ∈ parts, ∀ t', takeProbe none part = (none, t') → t' = part :=
    fun part _ => takeProbe_none part
  intro t' h
  rw [takeProbe] at h
  obtain hnone | ⟨before, u, after, place, u', -, -, hsome⟩ := takeProbeIn_none hparts
  · rw [hnone] at h
    dsimp only at h
    split at h
    · cases h
    · cases h
      rfl
  · rw [hsome] at h
    cases h
termination_by sizeOf t
decreasing_by
  have hlt := List.sizeOf_lt_of_mem ‹part ∈ parts›
  rw [Tree.node.sizeOf_spec]
  omega

theorem revised_of_probe? (h : t.Laid) (hprobe : probe? t = some (place, t')) :
    Revised t t' place ∧ IsBelow t place := by
  unfold probe? at hprobe
  split at hprobe
  · rename_i span target called callee argument
    split at hprobe
    · split at hprobe
      · rename_i place' places index hargument _
        cases hprobe
        have hcall : (Syntax.Tree.node .call called [callee, argument]).Laid :=
          h.part (List.mem_cons_of_mem _ List.mem_cons_self)
        have hmem : argument ∈ [callee, argument] := List.mem_cons_of_mem _ List.mem_cons_self
        obtain ⟨-, hcontains, hwithin⟩ := laid_argumentExpression (hcall.part hmem)
        obtain ⟨hbare, hwithin⟩ :=
          hwithin ((hcall.arranged.1 argument hmem).of_not_mayHoldBare rfl).1
        rw [hargument] at hcontains hbare hwithin
        have hassign : (Syntax.Tree.node (.assign none) span
            ([target] ++ .node .call called [callee, argument] :: [])).Laid := h
        refine ⟨.ofPart hassign (.takeOut hcall rfl rfl rfl hwithin), _,
          List.mem_cons_of_mem _ List.mem_cons_self, _,
          contains_iff.2 (.inr ⟨argument, hmem, hcontains⟩), hbare, rfl⟩
      · cases hprobe
    · cases hprobe
  · cases hprobe

/-- **A tree from which a probe is taken is revised at its place.** -/
theorem revised_of_takeProbe (t : Tree) : t.Laid → ∀ place t',
    takeProbe none t = (some place, t') → Revised t t' place ∧ IsBelow t place := by
  obtain ⟨kind, span, parts⟩ := t
  intro h place t' htake
  have hparts : ∀ part ∈ parts, ∀ place part', takeProbe none part = (some place, part') →
      Revised part part' place ∧ IsBelow part place :=
    fun part hpart => revised_of_takeProbe part (h.part hpart)
  rw [takeProbe] at htake
  obtain hnone | ⟨before, u, after, found, u', rfl, hu, hsome⟩ :=
    takeProbeIn_none fun part (_ : part ∈ parts) => takeProbe_none part
  · rw [hnone] at htake
    dsimp only at htake
    split at htake
    · rename_i hprobe
      cases htake
      exact revised_of_probe? h hprobe
    · cases htake
  · rw [hsome] at htake
    cases htake
    have hu' : u ∈ before ++ u :: after := List.mem_append_right _ List.mem_cons_self
    obtain ⟨hrevised, part, hpart, n, hn, hbare, hspan⟩ := hparts u hu' _ u' hu
    exact ⟨hrevised.ofPart h, u, hu', n, contains_iff.2 (.inr ⟨part, hpart, hn⟩), hbare, hspan⟩
termination_by sizeOf t
decreasing_by
  have hlt := List.sizeOf_lt_of_mem ‹part ∈ parts›
  rw [Tree.node.sizeOf_spec]
  omega

/-! ### A directory of descriptions, and a binary that is checked -/

/-- What a rule that applies to a statement does: the statement is revised at a place,
and the draft is edited there at most. -/
def Revises (d : Draft) (t t' : Tree) (d' : Draft) : Prop :=
  ∃ place, Revised t t' place ∧ d.EditedIn [place] d'

theorem revises_googleGaxRule (h : d.Ready t) (hrule : googleGaxRule ctx t d = some (t', d')) :
    Revises d t t' d' := by
  unfold googleGaxRule at hrule
  split at hrule
  · cases hrule
  · rename_i protos _
    split at hrule
    · split at hrule
      · rename_i how span declared name value rest
        split at hrule
        · have hdeclaration : d.Ready (.node .declaration declared [name, value]) :=
            h.part List.mem_cons_self
          have hvalue : value ∈ [name, value] := List.mem_cons_of_mem _ List.mem_cons_self
          have hbare := ((hdeclaration.laid.arranged.1 value hvalue).of_not_mayHoldBare rfl).1
          have hadded : d.EditedIn [] (d.addDirectory ctx.naming protos).1 :=
            ⟨rfl, rfl, fun _ ho => .inl ho⟩
          have haccepts : (d.addDirectory ctx.naming protos).1.Accepts value.span :=
            ((hdeclaration.part hvalue).accepts hbare).of_nil hadded
          have hedited := (hadded.of_nil _).trans
            (haccepts.edited_overwrite (d.addDirectory ctx.naming protos).2)
          have hrevised : Revised (.node .declaration declared [name, value])
              (.node .declaration declared [name]) value.span :=
            .takeOut hdeclaration.laid rfl rfl rfl (.refl _)
          obtain ⟨patch, hpatch⟩ := Patch.exists_overwrite haccepts.covers haccepts.bounded
            haccepts.admits (d.addDirectory ctx.naming protos).2
          rw [Draft.overwrite, hpatch] at hedited
          dsimp only at hrule
          rw [hpatch] at hrule
          cases hrule
          have hlaid : (Syntax.Tree.node (.declarations how) span
              ([] ++ .node .declaration declared [name, value] :: rest)).Laid := h.laid
          exact ⟨value.span, .ofPart hlaid hrevised, hedited⟩
        · cases hrule
      · cases hrule
    · cases hrule

theorem revises_ffmpegRule (h : d.Ready t) (hrule : ffmpegRule ctx t d = some (t', d')) :
    Revises d t t' d' := by
  unfold ffmpegRule at hrule
  split at hrule
  · rename_i span tested callee arguments rest
    split at hrule
    · cases hrule
      have htest : d.Ready (.node .call tested (callee :: arguments)) :=
        h.part List.mem_cons_self
      have hbare : (Syntax.Tree.node .call tested (callee :: arguments)).isBare = false :=
        isBare_cons _ _
      have hrevised : Revised (.node .call tested (callee :: arguments))
          (.node (.boolean true) tested []) tested := by
        refine ⟨⟨rfl, hbare.symm, rfl, nofun⟩, laid_leaf, admits_node.2 ⟨fun _ => .refl _, ?_⟩,
          _, .refl _, hbare, rfl, .refl _⟩
        exact fun part hpart => absurd hpart List.not_mem_nil
      have hlaid : (Syntax.Tree.node .if_ span
          ([] ++ .node .call tested (callee :: arguments) :: rest)).Laid := h.laid
      exact ⟨tested, .ofPart hlaid hrevised, (htest.accepts hbare).edited_overwrite _⟩
    · cases hrule
  · cases hrule

/-! ### A file that is served -/

theorem everywhereIn_eq_map (change : Tree → Tree) (ts : List Tree) :
    everywhereIn change ts = ts.map (everywhere change) := by
  induction ts with
  | nil => rfl
  | cons t rest ih => rw [everywhereIn, ih, List.map_cons]

/-- A change of nodes to such of the same outline may be made everywhere. -/
theorem laid_everywhere {change : Tree → Tree}
    (hchange : ∀ t, t.Laid → (change t).Laid ∧ Alike t (change t)) (t : Tree) :
    t.Laid → (everywhere change t).Laid ∧ Alike t (everywhere change t) := by
  obtain ⟨kind, span, parts⟩ := t
  intro h
  have hparts : ∀ part ∈ parts,
      (everywhere change part).Laid ∧ Alike part (everywhere change part) :=
    fun part hpart => laid_everywhere hchange part (h.part hpart)
  have halike : List.Forall₂ Alike parts (parts.map (everywhere change)) :=
    List.forall₂_map_right_iff.2 (List.forall₂_same.2 fun part hpart => (hparts part hpart).2)
  have hnode : (Syntax.Tree.node kind span (parts.map (everywhere change))).Laid := by
    refine laid_of_alike h halike fun part hpart => ?_
    obtain ⟨old, hold, rfl⟩ := List.mem_map.1 hpart
    exact (hparts old hold).1
  rw [everywhere, everywhereIn_eq_map]
  exact ⟨(hchange _ hnode).1, (Alike.node halike).trans (hchange _ hnode).2⟩
termination_by sizeOf t
decreasing_by
  have hlt := List.sizeOf_lt_of_mem hpart
  rw [Tree.node.sizeOf_spec]
  omega

theorem laid_besides (place : Span) (relative : String) : (besides place relative).Laid := by
  have hbare : ∀ part ∈ (besides place relative).parts, part.isBare = true :=
    List.forall_mem_cons.2 ⟨rfl, List.forall_mem_singleton.2 rfl⟩
  refine laid_node.2 ⟨⟨fun part hpart => .inl ⟨rfl, hbare part hpart⟩, ?_, nofun, nofun⟩, ?_⟩
  · exact List.pairwise_cons.2 ⟨fun _ _ => .inl rfl, List.pairwise_singleton _ _⟩
  · exact List.forall_mem_cons.2 ⟨laid_leaf, List.forall_mem_singleton.2 laid_leaf⟩

/-- The path of a module stands where the call was that looked it up. -/
theorem alike_besides {argument : Tree} {place : Span} {specifier : String}
    (h : lookedUp? argument = some (place, specifier)) (relative : String) :
    (besides place relative).Laid ∧ Alike argument (besides place relative) := by
  unfold lookedUp? at h
  split at h
  · split at h
    · split at h
      · cases h
        exact ⟨laid_besides _ relative, rfl, rfl, rfl, nofun⟩
      · cases h
    · cases h
  · cases h

/-- An argument with an expression of the same outline has the same outline. -/
theorem alike_withExpression {argument expression : Tree} (h : argument.Laid)
    (hcall : (argumentExpression argument).kind = .call) (hexpression : expression.Laid)
    (halike : Alike (argumentExpression argument) expression) :
    (withExpression argument expression).Laid ∧
      Alike argument (withExpression argument expression) := by
  unfold argumentExpression at halike hcall
  split at halike
  · rename_i span e
    have hparts : List.Forall₂ Alike [e] [expression] := .cons halike .nil
    exact ⟨laid_of_alike h hparts (List.forall_mem_singleton.2 hexpression), .node hparts⟩
  · rename_i hspread
    split at hcall
    · exact (hspread _ _ rfl).elim
    · obtain ⟨kind, span, parts⟩ := argument
      obtain rfl : kind = .call := hcall
      exact ⟨hexpression, halike⟩

theorem kind_of_lookedUp? {place : Span} {specifier : String}
    (h : lookedUp? t = some (place, specifier)) : t.kind = .call := by
  unfold lookedUp? at h
  split at h
  · rfl
  · cases h

theorem alike_pinRead (ctx : SpecialCaseContext) (t : Tree) (h : t.Laid) :
    (pinRead ctx t).Laid ∧ Alike t (pinRead ctx t) := by
  have hsame : t.Laid ∧ Alike t t := ⟨h, .refl t⟩
  unfold pinRead
  split
  · rename_i span callee first rest
    split
    · have heither {pinned? : Option Tree} {t : Tree} (hnone : t.Laid ∧ Alike t t)
          (hsome : ∀ pinned, pinned? = some pinned → pinned.Laid ∧ Alike t pinned) :
          (pinned?.getD t).Laid ∧ Alike t (pinned?.getD t) := by
        cases pinned? with
        | none => exact hnone
        | some pinned => exact hsome pinned rfl
      refine heither hsame fun pinned hpinned => ?_
      obtain ⟨⟨place, specifier⟩, hlooked, hpinned⟩ := Option.bind_eq_some_iff.1 hpinned
      obtain ⟨resolved, -, hpinned⟩ := Option.bind_eq_some_iff.1 hpinned
      obtain ⟨relative, -, hpinned⟩ := Option.bind_eq_some_iff.1 hpinned
      obtain rfl := Option.some.inj hpinned
      have hfirst : first ∈ callee :: first :: rest :=
        List.mem_cons_of_mem _ List.mem_cons_self
      obtain ⟨hbesides, halike⟩ := alike_besides hlooked relative
      obtain ⟨hlaid, halike⟩ := alike_withExpression (h.part hfirst) (kind_of_lookedUp? hlooked)
        hbesides halike
      have hparts : List.Forall₂ Alike (callee :: first :: rest)
          (callee :: withExpression first (besides place relative) :: rest) :=
        .cons (.refl _) (.cons halike (List.forall₂_same.2 fun t _ => .refl t))
      refine ⟨laid_of_alike h hparts ?_, .node hparts⟩
      refine List.forall_mem_cons.2 ⟨h.part List.mem_cons_self, List.forall_mem_cons.2 ⟨hlaid, ?_⟩⟩
      exact fun part hpart => h.part (List.mem_cons_of_mem _ (List.mem_cons_of_mem _ hpart))
    · exact hsame
  · exact hsame

/-- Nothing is overwritten: the place is an empty one at the start of the statement. -/
theorem revises_socketIoRule (h : d.Ready t) (hrule : socketIoRule ctx t d = some (t', d')) :
    Revises d t t' d' := by
  unfold socketIoRule at hrule
  split at hrule
  · rename_i span assigned target value
    split at hrule
    · split at hrule
      · cases hrule
        have hassign : (Syntax.Tree.node (.assign none) assigned [target, value]).Laid :=
          h.laid.part List.mem_cons_self
        obtain ⟨hserved, halike⟩ := laid_everywhere (alike_pinRead ctx) value
          (hassign.part (List.mem_cons_of_mem _ List.mem_cons_self))
        have hparts : List.Forall₂ Alike [target, value]
            [target, everywhere (pinRead ctx) value] :=
          .cons (.refl _) (.cons halike .nil)
        have hassigned := laid_of_alike hassign hparts (List.forall_mem_cons.2
          ⟨hassign.part List.mem_cons_self, List.forall_mem_singleton.2 hserved⟩)
        have hstatement : List.Forall₂ Alike [.node (.assign none) assigned [target, value]]
            [.node (.assign none) assigned [target, everywhere (pinRead ctx) value]] :=
          .cons (.node hparts) .nil
        have hlaid := laid_of_alike h.laid hstatement (List.forall_mem_singleton.2 hassigned)
        refine ⟨Span.empty span.start, ⟨.node hstatement, hlaid, ?_, _, .refl _,
          isBare_cons _ _, rfl, Nat.le_refl _, ?_⟩, .refl _ d⟩
        · exact hlaid.admits_of_apart fun _ => .inr (Nat.le_refl _)
        · exact Nat.le_of_lt (h.covers (isBare_cons _ _)).1
      · cases hrule
    · cases hrule
  · cases hrule

/-! ### All rules -/

theorem onFirstStatement_cases (rule : Tree → Draft → Option (Tree × Draft)) (d : Draft)
    (statements : List Tree) :
    onFirstStatement rule d statements = (statements, d) ∨
      ∃ before statement after changed d', statements = before ++ statement :: after ∧
        rule statement d = some (changed, d') ∧
        onFirstStatement rule d statements = (before ++ changed :: after, d') := by
  induction statements with
  | nil => exact .inl rfl
  | cons statement rest ih =>
    rw [onFirstStatement]
    cases hrule : rule statement d with
    | some applied => exact .inr ⟨[], statement, rest, applied.1, applied.2, rfl, hrule, rfl⟩
    | none =>
      obtain hnone | ⟨before, t, after, changed, d', rfl, ht, hrest⟩ := ih
      · rw [hnone]
        exact .inl rfl
      · rw [hrest]
        exact .inr ⟨statement :: before, t, after, changed, d', rfl, ht, rfl⟩

end SpecialCase

/-! ## Programs -/

namespace Draft

open Syntax.Tree

variable {d d' : Draft} {program program' t n : Tree} {place : Span}

/-- The draft is ready for all parts of a program. -/
structure Open (d : Draft) (program : Tree) : Prop where
  laid : program.Laid
  bounded : program.span.stop ≤ d.patch.length
  admits : ∀ o ∈ d.patch.overwrites, program.Admits o.span

theorem Open.part (h : d.Open program) (ht : t ∈ program.parts) : d.Ready t where
  laid := h.laid.part ht
  covers hbare :=
    have hplaced := (h.laid.arranged.1 t ht).within hbare
    ⟨hplaced.1, Nat.le_trans hplaced.2.2 h.bounded⟩
  admits o ho := (h.admits o ho).part ht

theorem Ready.contains {t : Tree} (h : d.Ready t) (hn : t.Contains n) : d.Ready n := by
  obtain rfl | ⟨part, hpart, hn⟩ := contains_iff.1 hn
  · exact h
  · exact Ready.contains (h.part hpart) hn
termination_by sizeOf t
decreasing_by
  obtain ⟨kind, span, parts⟩ := t
  have hlt := List.sizeOf_lt_of_mem hpart
  rw [Tree.node.sizeOf_spec]
  exact Nat.lt_of_lt_of_le hlt (Nat.le_add_left _ _)

/-- A draft stays open for a program while it is edited where all of that may be. -/
theorem Open.edited (h : d.Open program) (hplace : program.Admits place)
    (hedited : d.EditedIn [place] d') : d'.Open program where
  laid := h.laid
  bounded := hedited.length ▸ h.bounded
  admits o ho := by
    obtain hold | ⟨region, hregion, hwithin⟩ := hedited.overwrites o ho
    · exact h.admits o hold
    · obtain rfl := List.mem_singleton.1 hregion
      exact hplace.mono hwithin

/-- **A draft stays open for a program that is revised where it is edited.** -/
theorem Open.revised (h : d.Open program) (hnone : d.patch.overwrites = [])
    (hrevised : Revised program program' place) (hedited : d.EditedIn [place] d') :
    d'.Open program' where
  laid := hrevised.laid
  bounded := by
    rw [hrevised.alike.span, hedited.length]
    exact h.bounded
  admits o ho := by
    obtain hold | ⟨region, hregion, hwithin⟩ := hedited.overwrites o ho
    · rw [hnone] at hold
      cases hold
    · obtain rfl := List.mem_singleton.1 hregion
      exact hrevised.admits.mono hwithin

end Draft

end ModuleAssets
