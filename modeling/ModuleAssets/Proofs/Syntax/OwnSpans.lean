import Mathlib.Data.List.Nodup
import Mathlib.Data.List.Perm.Subperm
import ModuleAssets.Proofs.Syntax.Place
/-!
# Syntax trees — nodes with a span of their own

A scope is found by the span of the node that opens it, so these nodes should
differ in their spans. `OwnSpans` says that they do, for trees that are read
from one offset up to another. Nodes are counted here as often as they stand in
the trees (`owners`), since a parser may turn an expression into a pattern and
keep the expression too: what is built anew draws its owners from what was read,
and none of them twice (`DrawsFrom`).

The rules here say how trees are put together. Nodes read one after another have
spans apart, and a node that starts before what is inside of it has a span of
its own.
-/

namespace ModuleAssets.Syntax.Tree

/-- A node of the kind has its span for itself. It opens a scope, or it is the body
of a function, which could be taken for a block. -/
def ownsSpan : Kind → Bool
  | .functionDeclaration _ | .function _ | .arrow | .functionBody | .block | .catch_ => true
  | _ => false

/-- A node of the kind writes to its first part. -/
def writes : Kind → Bool
  | .assign _ | .update | .declaration => true
  | _ => false

/-- A node of the kind restricts its parts: it is an import, or it writes to the
first of them. -/
def restrictsParts : Kind → Bool
  | .import_ .. => true
  | kind => writes kind

/-- Nothing stands in an import, and what is written to is no node with a span for
itself. -/
def Tidy (n : Tree) : Prop :=
  (∀ specifier imports, n.kind = .import_ specifier imports → n.parts = []) ∧
    (writes n.kind = true → ∀ t ∈ n.parts.head?, ownsSpan t.kind = false)

theorem tidy_of_not_restrictsParts {n : Tree} (h : restrictsParts n.kind = false) : n.Tidy := by
  obtain ⟨kind, span, parts⟩ := n
  refine ⟨fun specifier imports himport => ?_, fun hwrites => ?_⟩
  · obtain rfl : kind = .import_ specifier imports := himport
    exact absurd h.symm Bool.false_ne_true
  · cases kind
    case assign | update | declaration => exact absurd h.symm Bool.false_ne_true
    all_goals exact absurd hwrites Bool.false_ne_true

/-- Something is to be said of a node of the kind. -/
def isOwner (kind : Kind) : Bool :=
  ownsSpan kind || restrictsParts kind

theorem not_owns_of_not_isOwner {kind : Kind} (h : isOwner kind = false) :
    ownsSpan kind = false ∧ restrictsParts kind = false :=
  Bool.or_eq_false_iff.1 h

theorem isOwner_of_ownsSpan {kind : Kind} (h : ownsSpan kind = true) : isOwner kind = true := by
  rw [isOwner, h]
  rfl

/-! ## Owners -/

mutual

/-- The nodes of a tree of which something is to be said, each as often as it stands
there. -/
def owners : Tree → List Tree
  | node kind span parts => (if isOwner kind then [node kind span parts] else []) ++ ownersIn parts

/-- `owners` for trees one after another. -/
def ownersIn : List Tree → List Tree
  | [] => []
  | t :: rest => owners t ++ ownersIn rest

end

mutual

/-- The spans that nodes of a tree have for themselves. -/
def ownedSpans : Tree → List Span
  | node kind span parts => (if ownsSpan kind then [span] else []) ++ ownedSpansIn parts

/-- The spans that nodes of some trees have for themselves. -/
def ownedSpansIn : List Tree → List Span
  | [] => []
  | t :: rest => ownedSpans t ++ ownedSpansIn rest

end

section

variable {ts us vs : List Tree} {t t' n : Tree} {kind kind' : Kind} {span span' : Span}
  {parts parts' : List Tree}

theorem ownersIn_append (ts us : List Tree) : ownersIn (ts ++ us) = ownersIn ts ++ ownersIn us := by
  induction ts with
  | nil => rfl
  | cons t ts ih => rw [List.cons_append, ownersIn, ownersIn, ih, List.append_assoc]

theorem ownedSpansIn_append (ts us : List Tree) :
    ownedSpansIn (ts ++ us) = ownedSpansIn ts ++ ownedSpansIn us := by
  induction ts with
  | nil => rfl
  | cons t ts ih => rw [List.cons_append, ownedSpansIn, ownedSpansIn, ih, List.append_assoc]

theorem ownersIn_singleton (t : Tree) : ownersIn [t] = owners t :=
  List.append_nil _

theorem ownedSpansIn_singleton (t : Tree) : ownedSpansIn [t] = ownedSpans t :=
  List.append_nil _

/-- A node is an owner itself, or only its parts have owners. -/
theorem ownersIn_node (kind : Kind) (span : Span) (parts : List Tree) :
    ownersIn [node kind span parts] =
      (if isOwner kind then [node kind span parts] else []) ++ ownersIn parts := by
  rw [ownersIn_singleton, owners]

theorem ownersIn_plain (h : isOwner kind = false) :
    ownersIn [node kind span parts] = ownersIn parts := by
  rw [ownersIn_node, h]
  rfl

theorem mem_ownedSpansIn : span ∈ ownedSpansIn ts ↔ ∃ t ∈ ts, span ∈ t.ownedSpans := by
  induction ts with
  | nil => simp [ownedSpansIn]
  | cons t ts ih => simp [ownedSpansIn, ih]

theorem span_mem_ownedSpans (h : ownsSpan t.kind = true) : t.span ∈ t.ownedSpans := by
  obtain ⟨kind, span, parts⟩ := t
  rw [ownedSpans, if_pos (show ownsSpan kind = true from h)]
  exact List.mem_cons_self

mutual

/-- The spans are those of the owners. -/
theorem ownedSpans_eq (t : Tree) :
    t.ownedSpans = (t.owners.filter fun n => ownsSpan n.kind).map Tree.span := by
  obtain ⟨kind, span, parts⟩ := t
  rw [ownedSpans, owners, ownedSpansIn_eq parts, List.filter_append, List.map_append]
  cases howns : ownsSpan kind with
  | true =>
    rw [isOwner_of_ownsSpan howns, if_pos rfl, if_pos rfl,
      show [node kind span parts].filter (fun n : Tree => ownsSpan n.kind) = [node kind span parts] from
        List.filter_cons_of_pos (p := fun n : Tree => ownsSpan n.kind) howns]
    rfl
  | false =>
    have hnone : (if isOwner kind then [node kind span parts] else []).filter
        (fun n => ownsSpan n.kind) = [] := by
      split
      · exact List.filter_cons_of_neg (howns ▸ Bool.false_ne_true)
      · rfl
    rw [hnone, if_neg Bool.false_ne_true]
    rfl

theorem ownedSpansIn_eq (ts : List Tree) :
    ownedSpansIn ts = ((ownersIn ts).filter fun n => ownsSpan n.kind).map Tree.span :=
  match ts with
  | [] => rfl
  | t :: rest => by
    rw [ownedSpansIn, ownersIn, ownedSpans_eq t, ownedSpansIn_eq rest, List.filter_append,
      List.map_append]

end

/-- Fewer nodes have fewer spans for themselves. -/
theorem subperm_spans {ns ms : List Tree} (h : ns.Subperm ms) :
    ((ns.filter fun n => ownsSpan n.kind).map Tree.span).Subperm
      ((ms.filter fun n => ownsSpan n.kind).map Tree.span) := by
  obtain ⟨l, hperm, hsub⟩ := List.Subperm.filter (fun n => ownsSpan n.kind) h
  exact ⟨l.map Tree.span, hperm.map _, hsub.map _⟩

/-! ## Trees with owners of others -/

/-- The first trees have no owners but those of the second, and none more often. -/
def DrawsFrom (us ts : List Tree) : Prop :=
  (ownersIn us).Subperm (ownersIn ts)

namespace DrawsFrom

theorem refl (ts : List Tree) : DrawsFrom ts ts :=
  List.Subperm.refl _

theorem trans (h : DrawsFrom us ts) (h' : DrawsFrom ts vs) : DrawsFrom us vs :=
  List.Subperm.trans h h'

theorem of_eq (h : ownersIn us = ownersIn ts) : DrawsFrom us ts := by
  rw [DrawsFrom, h]

theorem of_nil (h : ownersIn us = []) (ts : List Tree) : DrawsFrom us ts := by
  rw [DrawsFrom, h]
  exact List.nil_subperm

theorem append {us' ts' : List Tree} (h : DrawsFrom us ts) (h' : DrawsFrom us' ts') :
    DrawsFrom (us ++ us') (ts ++ ts') := by
  rw [DrawsFrom, ownersIn_append, ownersIn_append]
  exact List.Subperm.append h h'

theorem right (ts us : List Tree) : DrawsFrom us (ts ++ us) := by
  rw [DrawsFrom, ownersIn_append]
  exact (List.sublist_append_right _ _).subperm

theorem left (ts us : List Tree) : DrawsFrom ts (ts ++ us) := by
  rw [DrawsFrom, ownersIn_append]
  exact (List.sublist_append_left _ _).subperm

theorem swap (ts us : List Tree) : DrawsFrom (us ++ ts) (ts ++ us) := by
  rw [DrawsFrom, ownersIn_append, ownersIn_append]
  exact List.perm_append_comm.subperm

/-- A list draws from another with its first tree and with the others. -/
theorem cons (h : DrawsFrom [t'] [t]) (hrest : DrawsFrom us vs) : DrawsFrom (t' :: us) (t :: vs) :=
  h.append hrest

/-- A node gets a kind that makes it no owner. -/
theorem plain (hkind' : isOwner kind' = false) (h : DrawsFrom parts' parts) :
    DrawsFrom [.node kind' span' parts'] [.node kind span parts] := by
  rw [DrawsFrom, ownersIn_plain hkind', ownersIn_node]
  exact List.Subperm.trans h (List.sublist_append_right _ _).subperm

/-- The parts of a node. -/
theorem of_parts (kind : Kind) (span : Span) (parts : List Tree) :
    DrawsFrom parts [.node kind span parts] := by
  rw [DrawsFrom, ownersIn_node]
  exact (List.sublist_append_right _ _).subperm

/-- A node that is no owner adds none to its parts. -/
theorem node (hkind : isOwner kind = false) (span : Span) (parts : List Tree) :
    DrawsFrom [.node kind span parts] parts := by
  rw [DrawsFrom, ownersIn_plain hkind]

theorem subset (h : DrawsFrom us ts) : ownersIn us ⊆ ownersIn ts :=
  List.Subperm.subset h

theorem spans (h : DrawsFrom us ts) : (ownedSpansIn us).Subperm (ownedSpansIn ts) := by
  rw [ownedSpansIn_eq, ownedSpansIn_eq]
  exact subperm_spans h

end DrawsFrom

end

/-! ## Trees that are read -/

/-- The nodes with a span for themselves lie between two offsets and have their spans
apart, and all owners are tidy if all was `quiet` when they were read. -/
structure OwnSpans (quiet : Prop) (lo hi : Nat) (ts : List Tree) : Prop where
  le : lo ≤ hi
  within : ∀ span ∈ ownedSpansIn ts, lo ≤ span.start ∧ span.start < span.stop ∧ span.stop ≤ hi
  nodup : (ownedSpansIn ts).Nodup
  tidy : quiet → ∀ n ∈ ownersIn ts, n.Tidy

namespace OwnSpans

variable {quiet : Prop} {lo hi mid top start : Nat} {ts us parts params : List Tree} {kind : Kind}
  {span : Span} {body : Tree}

theorem nodup_of_subperm {spans spans' : List Span} (h : spans.Subperm spans')
    (hspans : spans'.Nodup) : spans.Nodup := by
  obtain ⟨l, hperm, hsub⟩ := h
  exact hperm.nodup_iff.1 (hsub.nodup hspans)

theorem nil (h : lo ≤ hi) : OwnSpans quiet lo hi [] :=
  ⟨h, fun _ => nofun, List.nodup_nil, fun _ _ => nofun⟩

theorem of_draws (h : OwnSpans quiet lo hi ts) (hdraws : DrawsFrom us ts) :
    OwnSpans quiet lo hi us :=
  ⟨h.le, fun span hspan => h.within span (hdraws.spans.subset hspan),
    nodup_of_subperm hdraws.spans h.nodup, fun hq n hn => h.tidy hq n (hdraws.subset hn)⟩

theorem widen {lo' hi' : Nat} (h : OwnSpans quiet lo hi ts) (hlo : lo' ≤ lo) (hhi : hi ≤ hi') :
    OwnSpans quiet lo' hi' ts := by
  refine ⟨Nat.le_trans hlo (Nat.le_trans h.le hhi), fun span hspan => ?_, h.nodup, h.tidy⟩
  have hwithin := h.within span hspan
  omega

theorem weaken {quiet' : Prop} (h : OwnSpans quiet lo hi ts) (hquiet : quiet' → quiet) :
    OwnSpans quiet' lo hi ts :=
  ⟨h.le, h.within, h.nodup, fun hq => h.tidy (hquiet hq)⟩

theorem upTo {hi' : Nat} (h : OwnSpans quiet lo hi ts) (hhi : hi ≤ hi') :
    OwnSpans quiet lo hi' ts :=
  h.widen (Nat.le_refl _) hhi

/-- Trees that are read one after another. -/
theorem append (h : OwnSpans quiet lo mid ts) (h' : OwnSpans quiet mid hi us) :
    OwnSpans quiet lo hi (ts ++ us) := by
  have hle := h.le
  have hle' := h'.le
  refine ⟨Nat.le_trans hle hle', fun span hspan => ?_, ?_, fun hq n hn => ?_⟩
  · rw [ownedSpansIn_append, List.mem_append] at hspan
    obtain hspan | hspan := hspan
    · have hwithin := h.within span hspan
      omega
    · have hwithin := h'.within span hspan
      omega
  · rw [ownedSpansIn_append, List.nodup_append']
    refine ⟨h.nodup, h'.nodup, fun span hspan hspan' => ?_⟩
    -- the first ends where the second has not begun
    have hwithin := h.within span hspan
    have hwithin' := h'.within span hspan'
    omega
  · rw [ownersIn_append, List.mem_append] at hn
    exact hn.elim (h.tidy hq n) (h'.tidy hq n)

theorem plain (hkind : isOwner kind = false) (h : OwnSpans quiet lo hi parts) :
    OwnSpans quiet lo hi [node kind span parts] :=
  h.of_draws (.node hkind span parts)

/-- A node without a span for itself, which is tidy. -/
theorem tidied (hkind : ownsSpan kind = false) (htidy : quiet → (node kind span parts).Tidy)
    (h : OwnSpans quiet lo hi parts) : OwnSpans quiet lo hi [node kind span parts] := by
  have hspans : ownedSpansIn [node kind span parts] = ownedSpansIn parts := by
    rw [ownedSpansIn_singleton, ownedSpans, hkind]
    rfl
  refine ⟨h.le, hspans ▸ h.within, hspans ▸ h.nodup, fun hq n hn => ?_⟩
  rw [ownersIn_node, List.mem_append] at hn
  obtain hn | hn := hn
  · split at hn
    · obtain rfl := List.mem_singleton.1 hn
      exact htidy hq
    · cases hn
  · exact h.tidy hq n hn

/-- A node that writes to its first part. -/
theorem writing {target : Tree} (hkind : writes kind = true)
    (htarget : quiet → ownsSpan target.kind = false) (h : OwnSpans quiet lo hi (target :: ts)) :
    OwnSpans quiet lo hi [.node kind span (target :: ts)] := by
  have hplain : ownsSpan kind = false ∧ ∀ specifier imports, kind ≠ .import_ specifier imports := by
    cases kind
    case assign | update | declaration => exact ⟨rfl, fun _ _ => Kind.noConfusion⟩
    all_goals exact absurd hkind Bool.false_ne_true
  refine h.tidied hplain.1 fun hq => ⟨fun specifier imports himport => ?_, fun _ t ht => ?_⟩
  · exact absurd himport (hplain.2 specifier imports)
  · obtain rfl := Option.mem_some.1 ht
    exact htarget hq

/-- An import. -/
theorem ofImport (specifier : Option String) (imports : List Import) (h : lo ≤ hi) :
    OwnSpans quiet lo hi [.node (.import_ specifier imports) span []] :=
  (nil h).tidied rfl fun _ => ⟨fun _ _ _ => rfl, fun hwrites => absurd hwrites Bool.false_ne_true⟩

/-- A new node around or beside trees in which none has its span. -/
theorem insert (body : Tree) (h : OwnSpans quiet lo hi ts)
    (hsub : (ownersIn us).Subperm (body :: ownersIn ts))
    (hbody : lo ≤ body.span.start ∧ body.span.start < body.span.stop ∧ body.span.stop ≤ hi)
    (hne : body.span ∉ ownedSpansIn ts) (hkind : restrictsParts body.kind = false) :
    OwnSpans quiet lo hi us := by
  have hspans : (ownedSpansIn us).Subperm (body.span :: ownedSpansIn ts) := by
    rw [ownedSpansIn_eq, ownedSpansIn_eq]
    refine (subperm_spans hsub).trans (List.Sublist.subperm ?_)
    rw [List.filter_cons]
    split
    · exact List.Sublist.refl _
    · exact List.sublist_cons_self _ _
  refine ⟨h.le, fun span hspan => ?_, nodup_of_subperm hspans (List.nodup_cons.2 ⟨hne, h.nodup⟩),
    fun hq n hn => ?_⟩
  · obtain rfl | hspan := List.mem_cons.1 (hspans.subset hspan)
    · exact hbody
    · exact h.within span hspan
  · obtain rfl | hn := List.mem_cons.1 (hsub.subset hn)
    · exact tidy_of_not_restrictsParts hkind
    · exact h.tidy hq n hn

/-- A node draws from its parts, but for itself. -/
theorem subperm_node (kind : Kind) (span : Span) (ts parts : List Tree) :
    (ownersIn (ts ++ [.node kind span parts])).Subperm
      (.node kind span parts :: ownersIn (ts ++ parts)) := by
  rw [ownersIn_append, ownersIn_append, ownersIn_node]
  refine (List.Sublist.subperm ?_).trans List.perm_middle.subperm
  refine List.Sublist.append (List.Sublist.refl _) ?_
  split
  · exact List.Sublist.refl _
  · exact List.sublist_cons_self _ _

/-- A node that begins before its parts and before what stands beside it has a span of
its own. -/
theorem beside (h : OwnSpans quiet (start + 1) hi (ts ++ parts))
    (hkind : restrictsParts kind = false) :
    OwnSpans quiet start hi (ts ++ [.node kind ⟨start, hi⟩ parts]) := by
  refine insert (.node kind ⟨start, hi⟩ parts) (h.widen (Nat.le_succ start) (Nat.le_refl hi))
    (subperm_node _ _ _ _) ⟨Nat.le_refl _, h.le, Nat.le_refl _⟩ (fun hspan => ?_) hkind
  exact absurd (h.within _ hspan).1 (Nat.not_succ_le_self start)

theorem node (h : OwnSpans quiet (start + 1) hi parts) (hkind : restrictsParts kind = false) :
    OwnSpans quiet start hi [.node kind ⟨start, hi⟩ parts] := by
  have halone : OwnSpans quiet (start + 1) hi ([] ++ parts) := h
  exact halone.beside hkind

/-- An arrow function whose parameters were read as items before. It ends after the
items, and it begins before its body. -/
theorem arrow (h : OwnSpans quiet lo hi ts) (hparams : DrawsFrom params ts)
    (hbody : OwnSpans quiet mid top [body]) (hlo : lo ≤ start) (hstart : start < mid)
    (hhi : hi < mid) : OwnSpans quiet lo top [.node .arrow ⟨start, top⟩ (params ++ [body])] := by
  have hle := hbody.le
  have hboth := ((h.of_draws hparams).upTo (Nat.le_of_lt hhi)).append hbody
  refine insert (.node .arrow ⟨start, top⟩ (params ++ [body])) hboth
    (subperm_node _ _ [] _) ⟨hlo, Nat.lt_of_lt_of_le hstart hle, Nat.le_refl _⟩ (fun hspan => ?_) rfl
  rw [ownedSpansIn_append, List.mem_append] at hspan
  obtain hspan | hspan := hspan
  · have hwithin := (h.within _ (hparams.spans.subset hspan)).2.2
    change top ≤ hi at hwithin
    omega
  · have hwithin := (hbody.within _ hspan).1
    change mid ≤ start at hwithin
    omega

end OwnSpans

end ModuleAssets.Syntax.Tree
