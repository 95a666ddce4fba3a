import ModuleAssets.Proofs.Syntax.Collected
/-!
# Scopes — names belong where the language has them

A name that is read or written at some place is looked up from the scope that
the collecting stands in there, `reach`, along the parents to the nearest scope
that declares it. That scope is the one of the node of `Tree.binder?`, unless
the name is one of the `strays`: this is carried from node to node on the way
to the place. Different nodes open different scopes, so two places have the
same scope for the name exactly if they have the same binder.
-/

namespace ModuleAssets.Syntax

open ModuleAssets.Syntax.Tree

namespace ScopeTree

/-! ## Looking up -/

/-- The nearest scope that declares the name, on a way up of at most `fuel`
scopes. -/
def nearestWithin (t : ScopeTree) (name : String) : Nat → Nat → Option Nat
  | 0, _ => none
  | fuel + 1, id =>
    (t.get? id).bind fun s =>
      if s.declares name then some id else s.parent.bind (t.nearestWithin name fuel)

/-- The nearest scope at or around a scope that declares the name. -/
def nearest? (t : ScopeTree) (name : String) (id : Nat) : Option Nat :=
  t.nearestWithin name t.scopes.length id

/-- The scope that the collecting of trees one after another stands in at a
place, and all that was collected before. -/
def reach (current : Nat) (t : ScopeTree) : List Tree → List Nat → Nat × ScopeTree
  | parts, i :: place =>
    match parts[i]? with
    | none => (current, t)
    | some (node kind span inner) =>
      let before := collectAll current t (parts.take i)
      match place with
      | [] => (current, before)
      | _ :: _ =>
        let inside := opened current before kind span inner
        reach inside.2 inside.1 (visited kind inner) place
  | _, [] => (current, t)

/-- The program's own scope, before anything is collected. -/
def start (program : Tree) : ScopeTree :=
  openScope ⟨[]⟩ .program program.span none

/-- The scope of a program that a place stands in. -/
def scopeAt (program : Tree) (place : List Nat) : Nat :=
  (reach root (start program) program.parts place).1

/-! ## Nodes that open a scope -/

/-- The node opens a scope. -/
def opens : Kind → Bool
  | .functionDeclaration _ | .function _ | .arrow | .block | .catch_ => true
  | _ => false

/-- The names that the scope of a node has from its opening on. -/
def headNames (kind : Kind) (parts : List Tree) : List String :=
  match kind with
  | .functionDeclaration _ => boundNamesIn parts.dropLast
  | .function name => name.toList ++ boundNamesIn parts.dropLast
  | .arrow => boundNamesIn parts.dropLast
  | .catch_ => boundNamesIn parts.dropLast
  | _ => []

/-- The names of the scope that a node opens. -/
def namesOf (kind : Kind) (parts : List Tree) : List String :=
  headNames kind parts ++
    if isFunction kind then declaredIn parts else if opens kind then lexicalIn parts else []

section

variable {t : ScopeTree} {current top : Nat} {kind : Kind} {span : Span} {parts : List Tree}
  {n : String} {isExported : Bool}

theorem opened_of_opens (current : Nat) (t : ScopeTree) (span : Span) (parts : List Tree)
    (h : opens kind = true) :
    (opened current t kind span parts).2 = t.scopes.length ∧
      (opened current t kind span parts).1.scopes.length = t.scopes.length + 1 := by
  cases kind
  case functionDeclaration name =>
    refine ⟨rfl, ?_⟩
    rw [opened, length_declareAll, length_openScope, length_declare]
  case function name =>
    refine ⟨rfl, ?_⟩
    rw [opened, length_declareAll, length_declareAll, length_openScope]
  case arrow =>
    refine ⟨rfl, ?_⟩
    rw [opened, length_declareAll, length_openScope]
  case block => exact ⟨rfl, length_openScope⟩
  case catch_ =>
    refine ⟨rfl, ?_⟩
    rw [opened, length_declareAll, length_openScope]
  all_goals exact absurd h Bool.false_ne_true

theorem opened_of_not_opens (h : opens kind = false) :
    (opened current t kind span parts).2 = current := by
  cases kind
  case functionDeclaration | function | arrow | block | catch_ =>
    exact absurd h.symm Bool.false_ne_true
  all_goals rfl

/-- What surrounds a new scope is the scope that its node stands in. -/
theorem parent_opened (current : Nat) (t : ScopeTree) (span : Span) (parts : List Tree)
    (h : opens kind = true) :
    ∃ s, (opened current t kind span parts).1.get? t.scopes.length = some s ∧
      s.parent = some current := by
  have hnew (t : ScopeTree) (kind : ScopeKind) :
      (t.openScope kind span (some current)).get? t.scopes.length =
        some ⟨some current, kind, span, []⟩ := by
    rw [get?, openScope, List.getElem?_concat_length]
  cases kind
  case functionDeclaration name =>
    have hopen := hnew (t.declare current name) .function
    rw [length_declare] at hopen
    obtain ⟨s, hs, -, hparent⟩ := (Grows.declareAll _ _ _).kept _ _ hopen
    exact ⟨s, hs, hparent⟩
  case function name =>
    obtain ⟨s, hs, -, hparent⟩ :=
      ((Grows.declareAll _ _ _).trans (.declareAll _ _ _)).kept _ _ (hnew t .function)
    exact ⟨s, hs, hparent⟩
  case arrow =>
    obtain ⟨s, hs, -, hparent⟩ := (Grows.declareAll _ _ _).kept _ _ (hnew t .function)
    exact ⟨s, hs, hparent⟩
  case block => exact ⟨_, hnew t .block, rfl⟩
  case catch_ =>
    obtain ⟨s, hs, -, hparent⟩ := (Grows.declareAll _ _ _).kept _ _ (hnew t .catch_)
    exact ⟨s, hs, hparent⟩
  all_goals exact absurd h Bool.false_ne_true

theorem declares_length : t.declares t.scopes.length n = false := by
  rw [declares, get?, List.getElem?_eq_none (Nat.le_refl _), Option.any_none]

/-- The new scope begins with the names of the head. -/
theorem declares_new (h : opens kind = true) :
    (opened current t kind span parts).1.declares t.scopes.length n = true ↔
      n ∈ headNames kind parts := by
  have hnone := declares_length (t := t) (n := n)
  have hlt (kind : ScopeKind) :
      t.scopes.length < (t.openScope kind span (some current)).scopes.length := by
    rw [length_openScope]
    exact Nat.lt_succ_self _
  cases kind
  case functionDeclaration name =>
    have hbefore := declares_length (t := t.declare current name) (n := n)
    rw [length_declare] at hbefore
    rw [opened, declares_declareAll (by rw [length_openScope, length_declare]; omega),
      declares_openScope, hbefore]
    simp [headNames]
  case function name =>
    rw [opened, declares_declareAll (by rw [length_declareAll]; exact hlt _),
      declares_declareAll (hlt _), declares_openScope, hnone]
    simp [headNames]
  case arrow =>
    rw [opened, declares_declareAll (hlt _), declares_openScope, hnone]
    simp [headNames]
  case block =>
    rw [opened, declares_openScope, hnone]
    simp [headNames]
  case catch_ =>
    rw [opened, declares_declareAll (hlt _), declares_openScope, hnone]
    simp [headNames]
  all_goals exact absurd h Bool.false_ne_true

/-- And the parts of the node add the others. -/
theorem declares_parts (h : HoistsTo t current top) (hopens : opens kind = true)
    (hn : n ∉ straysIn parts) :
    (collectAll (opened current t kind span parts).2 (opened current t kind span parts).1
      (visited kind parts)).declares t.scopes.length n = true ↔ n ∈ namesOf kind parts := by
  obtain ⟨hid, hlength⟩ := opened_of_opens current t span parts hopens
  have hvisited : visited kind parts = parts := by
    cases kind
    case import_ => exact absurd hopens Bool.false_ne_true
    all_goals rfl
  have htop : top ≠ t.scopes.length := Nat.ne_of_lt (Nat.lt_of_le_of_lt h.le h.lt_length)
  rw [hvisited, declares_collectAll (h.opened kind span parts) (by omega) parts hn,
    declares_new hopens, namesOf, List.mem_append, declaredIn, hid]
  cases isFunction kind with
  | true => simp [or_comm]
  | false => simp [hopens, htop.symm]

/-- The names of functions, whether their bodies are a scope apart or not. -/
theorem mem_functionScopes {implicit : List String} (himplicit : n ∉ implicit)
    (hseparate : n ∉ if isComputedIn parts.dropLast then declaredIn parts else []) (i : Nat) :
    (∃ s ∈ functionScopes implicit parts i, n ∈ s.2) ↔
      n ∈ boundNamesIn parts.dropLast ++ declaredIn parts := by
  rw [functionScopes]
  split
  · rename_i hcomputed
    rw [if_pos hcomputed] at hseparate
    split
    · simp [himplicit, hseparate]
    · simp [himplicit, hseparate]
  · simp [himplicit]

/-- The scopes of a node and its new scope have the same names, of those that
are not strays. -/
theorem isSome_slot? (span : Span) (hn : n ∉ ownStrays kind parts)
    (hhidden : n ∉ hiddenNames kind parts)
    (hexported : isExported = true → n ∉ exportedName (node kind span parts)) (i : Nat) :
    (slot? n isExported kind parts i).isSome = true ↔ n ∈ namesOf kind parts := by
  rw [slot?, Option.isSome_map, List.find?_isSome]
  simp only [List.contains_iff_mem]
  cases kind
  case functionDeclaration name =>
    rw [hiddenNames, List.mem_cons, not_or] at hhidden
    exact mem_functionScopes (List.mem_singleton.not.2 hhidden.1) hhidden.2 i
  case function name =>
    rw [hiddenNames, List.mem_cons, not_or] at hhidden
    have hinner := mem_functionScopes (List.mem_singleton.not.2 hhidden.1) hhidden.2 i
    rw [List.mem_append] at hinner
    have hsplit : n ∈ namesOf (.function name) parts ↔
        (n ∈ boundNamesIn parts.dropLast ∨ n ∈ declaredIn parts) ∨ n ∈ name.toList := by
      simp only [namesOf, headNames, isFunction, if_true, List.mem_append]
      tauto
    rw [hsplit, ← hinner, Tree.scopes]
    cases isExported with
    | true => simp [show n ∉ name.toList from hexported rfl]
    | false => simp [or_and_right, exists_or]
  case arrow => exact mem_functionScopes List.not_mem_nil hhidden i
  case switch =>
    rw [Tree.scopes]
    split
    · simp [namesOf, headNames, isFunction, opens]
    · simp_all [namesOf, headNames, isFunction, opens, ownStrays]
  all_goals simp_all [namesOf, headNames, isFunction, opens, ownStrays, hiddenNames, Tree.scopes]

/-- A body that is a scope apart has no name that is no stray. -/
theorem find?_functionScopes {implicit : List String}
    (hseparate : n ∉ if isComputedIn parts.dropLast then declaredIn parts else []) (i j : Nat) :
    (functionScopes implicit parts i).find? (fun s => s.2.contains n) =
      (functionScopes implicit parts j).find? (fun s => s.2.contains n) := by
  by_cases hcomputed : isComputedIn parts.dropLast
  · have hbody : (declaredIn parts).contains n = false := by simpa [hcomputed] using hseparate
    have hall (i : Nat) : (functionScopes implicit parts i).find? (fun s => s.2.contains n) =
        [(.parameters, implicit ++ boundNamesIn parts.dropLast)].find?
          (fun s => s.2.contains n) := by
      rw [functionScopes, if_pos hcomputed]
      split
      · rfl
      · rw [List.find?_cons, hbody]
    rw [hall i, hall j]
  · rw [functionScopes, functionScopes, if_neg hcomputed, if_neg hcomputed]

/-- A name that is no stray is in the same scope of a node from all its parts. -/
theorem slot?_eq_slot? (hn : n ∉ ownStrays kind parts) (hhidden : n ∉ hiddenNames kind parts)
    (i j : Nat) :
    slot? n isExported kind parts i = slot? n isExported kind parts j := by
  cases kind
  case functionDeclaration name =>
    rw [hiddenNames, List.mem_cons, not_or] at hhidden
    rw [slot?, slot?, Tree.scopes, Tree.scopes, find?_functionScopes hhidden.2 i j]
  case function name =>
    rw [hiddenNames, List.mem_cons, not_or] at hhidden
    rw [slot?, slot?, Tree.scopes, Tree.scopes, List.find?_append, List.find?_append,
      find?_functionScopes hhidden.2 i j]
  case arrow =>
    rw [hiddenNames] at hhidden
    rw [slot?, slot?, Tree.scopes, Tree.scopes, find?_functionScopes hhidden i j]
  case switch =>
    have hcases : (lexicalIn parts).contains n = false := by simpa [ownStrays] using hn
    have hnone (i : Nat) : slot? n isExported .switch parts i = none := by
      rw [slot?, Tree.scopes]
      split
      · rfl
      · rw [List.find?_cons, hcases, List.find?_nil, Option.map_none]
    rw [hnone i, hnone j]
  all_goals rfl

end

/-! ## On the way to a place -/

section

variable {t T : ScopeTree} {current top i : Nat} {parts : List Tree} {part : Tree} {n : String}

theorem collectAll_append (before after : List Tree) :
    collectAll current t (before ++ after) =
      collectAll current (collectAll current t before) after := by
  induction before generalizing t with
  | nil => rfl
  | cons tree before ih =>
    rw [List.cons_append, collectAll, collectAll]
    exact ih

theorem eq_take_append (h : parts[i]? = some part) :
    parts = parts.take i ++ part :: parts.drop (i + 1) := by
  obtain ⟨hlt, rfl⟩ := List.getElem?_eq_some_iff.1 h
  rw [← List.drop_eq_getElem_cons hlt, List.take_append_drop]

/-- The trees up to a part, the part, and those after it. -/
theorem collectAll_part (h : parts[i]? = some part) :
    collectAll current t parts =
      collectAll current (collect current (collectAll current t (parts.take i)) part)
        (parts.drop (i + 1)) := by
  conv_lhs => rw [eq_take_append h, collectAll_append, collectAll]

theorem grows_part (current : Nat) (t : ScopeTree) (h : parts[i]? = some part) :
    Grows (collect current (collectAll current t (parts.take i)) part)
      (collectAll current t parts) := by
  rw [collectAll_part h]
  exact .collectAll _ _ _

/-- A part comes before a later one. -/
theorem grows_part_take (current : Nat) (t : ScopeTree) {j : Nat} (h : parts[i]? = some part)
    (hij : i < j) :
    Grows (collect current (collectAll current t (parts.take i)) part)
      (collectAll current t (parts.take j)) := by
  have hpart : (parts.take j)[i]? = some part := by rw [List.getElem?_take_of_lt hij, h]
  have hgrows := grows_part current t hpart
  rwa [List.take_take, Nat.min_eq_left (Nat.le_of_lt hij)] at hgrows

theorem not_mem_strays (hn : n ∉ straysIn parts) (hpart : part ∈ parts) : n ∉ strays part := by
  induction parts with
  | nil => exact absurd hpart List.not_mem_nil
  | cons tree rest ih =>
    rw [straysIn, List.mem_append, not_or] at hn
    obtain rfl | hrest := List.mem_cons.1 hpart
    · exact hn.1
    · exact ih hn.2 hrest

theorem not_mem_straysIn (hn : n ∉ straysIn parts) {rest : List Tree} (hrest : rest ⊆ parts) :
    n ∉ straysIn rest := by
  induction rest with
  | nil => exact List.not_mem_nil
  | cons tree rest ih =>
    rw [straysIn, List.mem_append, not_or]
    exact ⟨not_mem_strays hn (hrest List.mem_cons_self),
      ih fun _ h => hrest (List.mem_cons_of_mem _ h)⟩

theorem visited_subset (kind : Kind) (parts : List Tree) : visited kind parts ⊆ parts := by
  cases kind
  case import_ => exact List.nil_subset _
  all_goals exact List.Subset.refl _

/-- All scopes opened from one tree of scopes to another have the name at last
if they have it in the second. -/
structure Settled (t t' T : ScopeTree) (n : String) : Prop where
  grows : Grows t' T
  same : ∀ id, t.scopes.length ≤ id → id < t'.scopes.length →
    (T.declares id n = true ↔ t'.declares id n = true)

/-- What comes after a part declares nothing in the scopes of the part. -/
theorem settled_part (h : Settled t (collectAll current t parts) T n) (hto : HoistsTo t current top)
    (hn : n ∉ straysIn parts) (hpart : parts[i]? = some part) :
    Settled (collectAll current t (parts.take i))
      (collect current (collectAll current t (parts.take i)) part) T n := by
  have hbefore := Grows.collectAll current t (parts.take i)
  have hgrows := grows_part current t hpart
  have hhere := hto.grows (hbefore.trans (.collect current _ part))
  refine ⟨hgrows.trans h.grows, fun id hle hlt => ?_⟩
  have hlength := hbefore.length_le
  have hcurrent := hto.lt_length
  have htop := hto.le
  rw [h.same id (by omega) (Nat.lt_of_lt_of_le hlt hgrows.length_le), collectAll_part hpart,
    declares_collectAll hhere hlt _ (not_mem_straysIn hn (List.drop_subset _ _))]
  constructor
  · rintro (h | ⟨rfl, -⟩ | ⟨rfl, -⟩)
    · exact h
    · omega
    · omega
  · exact .inl

theorem settled_opened {kind : Kind} {span : Span}
    (h : Settled t (collect current t (node kind span parts)) T n) :
    Settled (opened current t kind span parts).1
      (collectAll (opened current t kind span parts).2 (opened current t kind span parts).1
        (visited kind parts)) T n := by
  rw [collect_node] at h
  have hlength := (Grows.opened current t kind span parts).length_le
  exact ⟨h.grows, fun id hle hlt => h.same id (Nat.le_trans hlength hle) hlt⟩

/-- From a scope of a node the next with the name is the node's own, if that
has it. -/
theorem nearestWithin_opened {kind : Kind} {span : Span} {isExported : Bool} {found : Option Nat}
    (hto : HoistsTo t current top)
    (hsettled : Settled t (collect current t (node kind span parts)) T n)
    (hn : n ∉ strays (node kind span parts)) (hhidden : n ∉ hiddenNames kind parts)
    (hexported : isExported = true → n ∉ exportedName (node kind span parts))
    (hup : ∀ fuel, current < fuel → T.nearestWithin n fuel current = found) (j : Nat)
    {fuel : Nat} (hfuel : (opened current t kind span parts).2 < fuel) :
    T.nearestWithin n fuel (opened current t kind span parts).2 =
      ((slot? n isExported kind parts j).map fun _ => t.scopes.length).or found := by
  rw [strays, List.mem_append, not_or] at hn
  have hslot := isSome_slot? span hn.1 hhidden hexported j
  cases hopens : opens kind with
  | false =>
    have hnot : n ∉ namesOf kind parts := by
      cases kind
      case functionDeclaration | function | arrow | block | catch_ =>
        exact absurd hopens.symm Bool.false_ne_true
      all_goals exact List.not_mem_nil
    have hnone : slot? n isExported kind parts j = none := by
      rw [← Option.not_isSome_iff_eq_none, hslot]
      exact hnot
    rw [opened_of_not_opens hopens] at hfuel ⊢
    rw [hup fuel hfuel, hnone, Option.map_none, Option.none_or]
  | true =>
    obtain ⟨hid, hlength⟩ := opened_of_opens current t span parts hopens
    obtain ⟨s, hs, hparent⟩ := parent_opened current t span parts hopens
    have hinside : Grows (opened current t kind span parts).1
        (collect current t (node kind span parts)) := by
      rw [collect_node]
      exact .collectAll _ _ _
    obtain ⟨s', hs', -, hparent'⟩ := (hinside.trans hsettled.grows).kept _ _ hs
    have hdeclares : s'.declares n = true ↔ n ∈ namesOf kind parts := by
      have hsame := hsettled.same t.scopes.length (Nat.le_refl _)
        (Nat.lt_of_lt_of_le (by omega) hinside.length_le)
      rw [collect_node, declares_parts hto hopens hn.2, declares, hs', Option.any_some] at hsame
      exact hsame
    have hcurrent := hto.lt_length
    rw [hid] at hfuel ⊢
    obtain ⟨fuel, rfl⟩ := Nat.exists_eq_add_one.2 (Nat.zero_lt_of_lt hfuel)
    rw [nearestWithin, hs', Option.bind_some]
    by_cases hmem : n ∈ namesOf kind parts
    · obtain ⟨slot, hslot⟩ := Option.isSome_iff_exists.1 (hslot.2 hmem)
      rw [if_pos (hdeclares.2 hmem), hslot, Option.map_some, Option.some_or]
    · have hnone : slot? n isExported kind parts j = none := by
        rw [← Option.not_isSome_iff_eq_none, hslot]
        exact hmem
      rw [if_neg (fun h => hmem (hdeclares.1 h)), hparent', hparent, Option.bind_some,
        hup fuel (by omega), hnone, Option.map_none, Option.none_or]

theorem reach_node {kind : Kind} {span : Span} {inner : List Tree} {j : Nat} {place : List Nat}
    (h : parts[i]? = some (node kind span inner)) :
    reach current t parts (i :: j :: place) =
      reach (opened current (collectAll current t (parts.take i)) kind span inner).2
        (opened current (collectAll current t (parts.take i)) kind span inner).1
        (visited kind inner) (j :: place) := by
  rw [reach, h]

theorem reach_singleton (h : parts[i]? = some part) :
    reach current t parts [i] = (current, collectAll current t (parts.take i)) := by
  obtain ⟨kind, span, inner⟩ := part
  rw [reach, h]

theorem binderIn?_node {kind : Kind} {span : Span} {inner : List Tree} {j : Nat}
    {place : List Nat} {isExported : Bool} (h : parts[i]? = some (node kind span inner)) :
    binderIn? n isExported parts (i :: j :: place) =
      ((binderIn? n (kind == .exportDefault) (visited kind inner) (j :: place)).map
        (outward i)).or ((slot? n isExported kind inner j).map fun s => ([i], s)) := by
  rw [binderIn?, h, Option.bind_some]

theorem binderIn?_of_none {isExported : Bool} {place : List Nat} (h : parts[i]? = none) :
    binderIn? n isExported parts (i :: place) = none := by
  cases place with
  | nil => rfl
  | cons j place => rw [binderIn?, h, Option.bind_none]

/-- What binds a name is a node. -/
theorem ne_nil_of_binderIn? {isExported : Bool} {place : List Nat} {b : List Nat × Slot}
    (h : binderIn? n isExported parts place = some b) : b.1 ≠ [] := by
  match place with
  | [] | [_] => exact absurd h (Option.some_ne_none b).symm
  | i :: j :: place =>
    cases hpart : parts[i]? with
    | none => exact absurd (h.symm.trans (binderIn?_of_none hpart)) (Option.some_ne_none b)
    | some part =>
      obtain ⟨kind, span, inner⟩ := part
      rw [binderIn?_node hpart, Option.or_eq_some_iff] at h
      obtain h | ⟨-, h⟩ := h
      · obtain ⟨c, -, rfl⟩ := Option.map_eq_some_iff.1 h
        exact List.cons_ne_nil _ _
      · obtain ⟨slot, -, rfl⟩ := Option.map_eq_some_iff.1 h
        exact List.cons_ne_nil _ _

theorem hiddenAround_node {kind : Kind} {span : Span} {inner : List Tree} {j : Nat}
    {place : List Nat} (h : parts[i]? = some (node kind span inner)) :
    hiddenAround parts (i :: j :: place) =
      hiddenNames kind inner ++ hiddenAround (visited kind inner) (j :: place) := by
  rw [hiddenAround, h]

/-- No scope with the name is missing from what is collected of some trees. -/
structure Plain (isExported : Bool) (parts : List Tree) (n : String) : Prop where
  noStray : n ∉ straysIn parts
  noExport : isExported = true → ∀ part ∈ parts, n ∉ exportedName part

theorem Plain.inner {isExported : Bool} {kind : Kind} {span : Span} {inner : List Tree}
    (h : Plain isExported parts n) (hpart : parts[i]? = some (node kind span inner)) :
    Plain (kind == .exportDefault) (visited kind inner) n := by
  have hn := not_mem_strays h.noStray (List.mem_of_getElem? hpart)
  rw [strays, List.mem_append, not_or] at hn
  refine ⟨not_mem_straysIn hn.2 (visited_subset kind inner), fun hkind part hmem hname => ?_⟩
  rw [eq_of_beq hkind] at hn
  exact hn.1 (List.mem_flatMap.2 ⟨part, visited_subset kind inner hmem, hname⟩)

/-- The scope that the binder of a name opens. -/
def scopeOf (current : Nat) (t : ScopeTree) (parts : List Tree) (binder : List Nat × Slot) : Nat :=
  (reach current t parts binder.1).2.scopes.length

theorem scopeOf_outward {kind : Kind} {span : Span} {inner : List Tree} {c : List Nat × Slot}
    (h : parts[i]? = some (node kind span inner)) (hc : c.1 ≠ []) :
    scopeOf current t parts (outward i c) =
      scopeOf (opened current (collectAll current t (parts.take i)) kind span inner).2
        (opened current (collectAll current t (parts.take i)) kind span inner).1
        (visited kind inner) c := by
  obtain ⟨j, place, hplace⟩ := List.exists_cons_of_ne_nil hc
  rw [scopeOf, scopeOf, outward, hplace, reach_node h]

theorem scopeOf_singleton {slot : Slot} (h : parts[i]? = some part) :
    scopeOf current t parts ([i], slot) =
      (collectAll current t (parts.take i)).scopes.length := by
  rw [scopeOf, reach_singleton h]

theorem reach_lt (hto : HoistsTo t current top) (place : List Nat) :
    (reach current t parts place).1 < (collectAll current t parts).scopes.length := by
  induction place generalizing t current top parts with
  | nil => exact Nat.lt_of_lt_of_le hto.lt_length (Grows.collectAll _ _ _).length_le
  | cons i place ih =>
    have hcurrent := Nat.lt_of_lt_of_le hto.lt_length (Grows.collectAll current t parts).length_le
    cases hpart : parts[i]? with
    | none =>
      rw [reach, hpart]
      exact hcurrent
    | some part =>
      obtain ⟨kind, span, inner⟩ := part
      cases place with
      | nil =>
        rw [reach_singleton hpart]
        exact hcurrent
      | cons j place =>
        have hinside := (hto.grows (.collectAll current t (parts.take i))).opened kind span inner
        have hlt := @ih _ _ _ (visited kind inner) hinside
        rw [← collect_node] at hlt
        rw [reach_node hpart]
        exact Nat.lt_of_lt_of_le hlt (grows_part _ _ hpart).length_le

/-- **A name is found in the scope of its binder**, from each place in some
trees, or where it is found from around them. -/
theorem nearestWithin_reach {isExported : Bool} {found : Option Nat} (place : List Nat)
    (hto : HoistsTo t current top) (hsettled : Settled t (collectAll current t parts) T n)
    (hplain : Plain isExported parts n) (hclear : n ∉ hiddenAround parts place)
    (hup : ∀ fuel, current < fuel → T.nearestWithin n fuel current = found)
    {fuel : Nat} (hfuel : (reach current t parts place).1 < fuel) :
    T.nearestWithin n fuel (reach current t parts place).1 =
      ((binderIn? n isExported parts place).map (scopeOf current t parts)).or found := by
  induction place generalizing t current top parts isExported found with
  | nil => exact hup fuel hfuel
  | cons i place ih =>
    cases hpart : parts[i]? with
    | none =>
      rw [binderIn?_of_none hpart, Option.map_none, Option.none_or]
      rw [reach, hpart] at hfuel ⊢
      exact hup fuel hfuel
    | some part =>
      obtain ⟨kind, span, inner⟩ := part
      cases place with
      | nil =>
        rw [reach_singleton hpart] at hfuel ⊢
        exact hup fuel hfuel
      | cons j place =>
        have hbefore := hto.grows (.collectAll current t (parts.take i))
        rw [hiddenAround_node hpart, List.mem_append, not_or] at hclear
        have hmem := List.mem_of_getElem? hpart
        have hnode := settled_part hsettled hto hplain.noStray hpart
        -- from inside the node on, the name is found in the node's scope or around
        have hout (fuel : Nat) (h : _ < fuel) := nearestWithin_opened hbefore hnode
          (not_mem_strays hplain.noStray hmem) hclear.1 (fun h => hplain.noExport h _ hmem) hup j h
        rw [reach_node hpart] at hfuel ⊢
        rw [ih (hbefore.opened kind span inner) (settled_opened hnode) (hplain.inner hpart) hclear.2
          hout hfuel, binderIn?_node hpart, Option.map_or, Option.or_assoc, Option.map_map,
          Option.map_map]
        congr 1
        · refine Option.map_congr fun c hc => ?_
          exact (scopeOf_outward hpart (ne_nil_of_binderIn? hc)).symm
        · congr 2
          funext slot
          exact (scopeOf_singleton hpart).symm

/-! ## Different binders, different scopes -/

/-- A node opens a scope if it binds a name. -/
theorem opens_of_slot? {kind : Kind} {span : Span} {inner : List Tree} {isExported : Bool}
    {slot : Slot} {j : Nat} (hplain : Plain isExported parts n)
    (hpart : parts[i]? = some (node kind span inner)) (hhidden : n ∉ hiddenNames kind inner)
    (h : slot? n isExported kind inner j = some slot) : opens kind = true := by
  have hmem := List.mem_of_getElem? hpart
  have hn := not_mem_strays hplain.noStray hmem
  rw [strays, List.mem_append, not_or] at hn
  have hname := (isSome_slot? span hn.1 hhidden (fun h => hplain.noExport h _ hmem) j).1
    (Option.isSome_of_eq_some h)
  cases kind
  case functionDeclaration | function | arrow | block | catch_ => rfl
  all_goals exact absurd hname List.not_mem_nil

/-- The scopes of binders are opened with the part they stand in. -/
theorem scopeOf_bounds (current : Nat) (t : ScopeTree) {isExported : Bool} {place : List Nat}
    {b : List Nat × Slot}
    (hplain : Plain isExported parts n) (hclear : n ∉ hiddenAround parts (i :: place))
    (h : binderIn? n isExported parts (i :: place) = some b) :
    ∃ part, parts[i]? = some part ∧
      (collectAll current t (parts.take i)).scopes.length ≤ scopeOf current t parts b ∧
      scopeOf current t parts b <
        (collect current (collectAll current t (parts.take i)) part).scopes.length := by
  induction place generalizing i current t parts isExported b with
  | nil => exact absurd h.symm (Option.some_ne_none b)
  | cons j place ih =>
    cases hpart : parts[i]? with
    | none => exact absurd (h.symm.trans (binderIn?_of_none hpart)) (Option.some_ne_none b)
    | some part =>
      obtain ⟨kind, span, inner⟩ := part
      refine ⟨_, rfl, ?_⟩
      have hopened := Grows.opened current (collectAll current t (parts.take i)) kind span inner
      rw [hiddenAround_node hpart, List.mem_append, not_or] at hclear
      rw [binderIn?_node hpart, Option.or_eq_some_iff] at h
      rw [collect_node]
      obtain h | ⟨-, h⟩ := h
      · obtain ⟨c, hc, rfl⟩ := Option.map_eq_some_iff.1 h
        obtain ⟨part, hpart', hle, hlt⟩ := ih _ _ (hplain.inner hpart) hclear.2 hc
        rw [scopeOf_outward hpart (ne_nil_of_binderIn? hc)]
        exact ⟨Nat.le_trans (hopened.trans (.collectAll _ _ _)).length_le hle,
          Nat.lt_of_lt_of_le hlt (grows_part _ _ hpart').length_le⟩
      · obtain ⟨slot, hslot, rfl⟩ := Option.map_eq_some_iff.1 h
        have hlength := (opened_of_opens current (collectAll current t (parts.take i)) span inner
          (opens_of_slot? hplain hpart hclear.1 hslot)).2
        rw [scopeOf_singleton hpart]
        exact ⟨Nat.le_refl _, Nat.lt_of_lt_of_le (by omega) (Grows.collectAll _ _ _).length_le⟩

/-- The scope of a node comes before those inside. -/
theorem length_lt_scopeOf (current : Nat) (t : ScopeTree) {kind : Kind} {span : Span}
    {inner : List Tree} {isExported : Bool}
    {slot : Slot} {j : Nat} {place : List Nat} {c : List Nat × Slot}
    (hplain : Plain isExported parts n) (hpart : parts[i]? = some (node kind span inner))
    (hhidden : n ∉ hiddenNames kind inner) (hclear : n ∉ hiddenAround (visited kind inner) place)
    (hslot : slot? n isExported kind inner j = some slot)
    (hc : binderIn? n (kind == .exportDefault) (visited kind inner) place = some c) :
    (collectAll current t (parts.take i)).scopes.length <
      scopeOf current t parts (outward i c) := by
  cases place with
  | nil => exact absurd hc.symm (Option.some_ne_none c)
  | cons k place =>
    obtain ⟨part, -, hle, -⟩ := scopeOf_bounds
      (opened current (collectAll current t (parts.take i)) kind span inner).2
      (opened current (collectAll current t (parts.take i)) kind span inner).1
      (hplain.inner hpart) hclear hc
    have hlength := (opened_of_opens current (collectAll current t (parts.take i)) span inner
      (opens_of_slot? hplain hpart hhidden hslot)).2
    have hgrows := (Grows.collectAll
      (opened current (collectAll current t (parts.take i)) kind span inner).2
      (opened current (collectAll current t (parts.take i)) kind span inner).1
      ((visited kind inner).take k)).length_le
    rw [scopeOf_outward hpart (ne_nil_of_binderIn? hc)]
    omega

/-- **Different binders of a name have different scopes.** -/
theorem eq_of_scopeOf_eq {isExported : Bool} {p q : List Nat} {b c : List Nat × Slot}
    (hplain : Plain isExported parts n) (hp : n ∉ hiddenAround parts p)
    (hq : n ∉ hiddenAround parts q) (hb : binderIn? n isExported parts p = some b)
    (hc : binderIn? n isExported parts q = some c)
    (heq : scopeOf current t parts b = scopeOf current t parts c) : b = c := by
  induction p generalizing q current t parts isExported b c with
  | nil => exact absurd hb.symm (Option.some_ne_none b)
  | cons i p ih =>
    cases q with
    | nil => exact absurd hc.symm (Option.some_ne_none c)
    | cons k q =>
      obtain ⟨part, hpart, hle, hlt⟩ := scopeOf_bounds current t hplain hp hb
      obtain ⟨part', hpart', hle', hlt'⟩ := scopeOf_bounds current t hplain hq hc
      -- scopes of different parts are opened one part after the other
      obtain hik | rfl | hki := Nat.lt_trichotomy i k
      · have := (grows_part_take current t hpart hik).length_le
        omega
      · obtain ⟨kind, span, inner⟩ := part
        match p, q with
        | [], _ => exact absurd hb.symm (Option.some_ne_none b)
        | _ :: _, [] => exact absurd hc.symm (Option.some_ne_none c)
        | j :: p, l :: q =>
          have hn := not_mem_strays hplain.noStray (List.mem_of_getElem? hpart)
          rw [strays, List.mem_append, not_or] at hn
          rw [hiddenAround_node hpart, List.mem_append, not_or] at hp hq
          rw [binderIn?_node hpart, Option.or_eq_some_iff] at hb hc
          obtain hb | ⟨-, hb⟩ := hb
          · obtain ⟨b', hb', rfl⟩ := Option.map_eq_some_iff.1 hb
            obtain hc | ⟨-, hc⟩ := hc
            · obtain ⟨c', hc', rfl⟩ := Option.map_eq_some_iff.1 hc
              rw [scopeOf_outward hpart (ne_nil_of_binderIn? hb'),
                scopeOf_outward hpart (ne_nil_of_binderIn? hc')] at heq
              rw [ih (hplain.inner hpart) hp.2 hq.2 hb' hc' heq]
            · obtain ⟨slot, hslot, rfl⟩ := Option.map_eq_some_iff.1 hc
              have hlt := length_lt_scopeOf current t hplain hpart hp.1 hp.2
                hslot hb'
              rw [scopeOf_singleton hpart] at heq
              omega
          · obtain ⟨slot, hslot, rfl⟩ := Option.map_eq_some_iff.1 hb
            obtain hc | ⟨-, hc⟩ := hc
            · obtain ⟨c', hc', rfl⟩ := Option.map_eq_some_iff.1 hc
              have hlt := length_lt_scopeOf current t hplain hpart hq.1 hq.2
                hslot hc'
              rw [scopeOf_singleton hpart] at heq
              omega
            · obtain ⟨slot', hslot', rfl⟩ := Option.map_eq_some_iff.1 hc
              rw [slot?_eq_slot? hn.1 hp.1 j l, hslot', Option.some_inj] at hslot
              rw [hslot]
      · have := (grows_part_take current t hpart' hki).length_le
        omega

end

/-! ## Programs -/

section

variable {program : Tree} {name : String}

theorem hoistsTo_start (program : Tree) : HoistsTo (start program) root root :=
  .here rfl rfl

theorem plain_of_not_mem (h : name ∉ straysIn program.parts) : Plain false program.parts name :=
  ⟨h, fun hfalse => absurd hfalse Bool.false_ne_true⟩

/-- Outside all nodes a name is the program's own, or no scope has it. -/
theorem nearestWithin_root (h : name ∉ straysIn program.parts) {fuel : Nat} (hfuel : root < fuel) :
    (ofTree program).nearestWithin name fuel root =
      if (declaredIn program.parts).contains name then some root else none := by
  have hto := hoistsTo_start program
  obtain ⟨s, hs, -, hparent⟩ := (Grows.collectAll root (start program) program.parts).kept root _
    rfl
  have hdeclares : s.declares name = true ↔ name ∈ declaredIn program.parts := by
    have hroot := declares_collectAll (i := root) hto hto.lt_length program.parts h
    rw [declares, hs, Option.any_some] at hroot
    rw [hroot, declaredIn, List.mem_append]
    simp [declares, get?, start, openScope, root, Scope.declares, or_comm]
  obtain ⟨fuel, rfl⟩ := Nat.exists_eq_add_one.2 hfuel
  rw [nearestWithin, show ofTree program = collectAll root (start program) program.parts from rfl,
    hs, Option.bind_some, hparent]
  simp only [hdeclares, List.contains_iff_mem, Option.bind_none]

/-- The scope of a place for a name is that of the binder in the program, or
the program's own. -/
theorem nearest?_scopeAt (h : name ∉ straysIn program.parts) {place : List Nat}
    (hclear : name ∉ hiddenAround program.parts place) :
    (ofTree program).nearest? name (scopeAt program place) =
      ((binderIn? name false program.parts place).map
        (scopeOf root (start program) program.parts)).or
          (if (declaredIn program.parts).contains name then some root else none) :=
  nearestWithin_reach place (hoistsTo_start program) ⟨.refl _, fun _ _ _ => Iff.rfl⟩
    (plain_of_not_mem h) hclear (fun _ hfuel => nearestWithin_root h hfuel)
    (reach_lt (hoistsTo_start program) place)

/-- The scope of a binder in the program is not the program's own. -/
theorem root_lt_scopeOf {place : List Nat} {b : List Nat × Slot}
    (h : name ∉ straysIn program.parts) (hclear : name ∉ hiddenAround program.parts place)
    (hb : binderIn? name false program.parts place = some b) :
    root < scopeOf root (start program) program.parts b := by
  cases place with
  | nil => exact absurd hb.symm (Option.some_ne_none b)
  | cons i place =>
    obtain ⟨part, -, hle, -⟩ := scopeOf_bounds root (start program)
      (plain_of_not_mem h) hclear hb
    have hbegin := (Grows.collectAll root (start program) (program.parts.take i)).length_le
    rw [start, length_openScope] at hbegin
    exact Nat.lt_of_lt_of_le (Nat.lt_of_lt_of_le (Nat.succ_pos _) hbegin) hle

/-- **Places have the same scope for a name exactly if they have the same
binder**, unless a scope that is left out has the name. -/
theorem nearest?_eq_nearest?_iff (program : Tree) (name : String)
    (h : name ∉ straysIn program.parts) (p q : List Nat)
    (hp : name ∉ hiddenAround program.parts p) (hq : name ∉ hiddenAround program.parts q) :
    (ofTree program).nearest? name (scopeAt program p) =
        (ofTree program).nearest? name (scopeAt program q) ↔
      binder? program name p = binder? program name q := by
  -- a binder in the program differs from the program, and so do their scopes
  have houter (place : List Nat) (hclear : name ∉ hiddenAround program.parts place)
      (b : List Nat × Slot) (hb : binderIn? name false program.parts place = some b) :
      (if (declaredIn program.parts).contains name then some root else none) ≠
          some (scopeOf root (start program) program.parts b) ∧
        (if (declaredIn program.parts).contains name then some ([], Slot.statements) else none) ≠
          some b := by
    have hroot := root_lt_scopeOf h hclear hb
    have hnode := ne_nil_of_binderIn? hb
    split
    · rw [Ne, Ne, Option.some_inj, Option.some_inj]
      exact ⟨Nat.ne_of_lt hroot, fun heq => hnode (heq ▸ rfl)⟩
    · exact ⟨(Option.some_ne_none _).symm, (Option.some_ne_none _).symm⟩
  rw [nearest?_scopeAt h hp, nearest?_scopeAt h hq, binder?, binder?]
  cases hb : binderIn? name false program.parts p with
  | none =>
    cases hc : binderIn? name false program.parts q with
    | none => simp only [Option.map_none, Option.none_or]
    | some c =>
      simp only [Option.map_none, Option.none_or, Option.map_some, Option.some_or]
      exact iff_of_false (houter q hq c hc).1 (houter q hq c hc).2
  | some b =>
    cases hc : binderIn? name false program.parts q with
    | none =>
      simp only [Option.map_none, Option.none_or, Option.map_some, Option.some_or]
      exact iff_of_false (houter p hp b hb).1.symm (houter p hp b hb).2.symm
    | some c =>
      simp only [Option.map_some, Option.some_or, Option.some_inj]
      exact ⟨eq_of_scopeOf_eq (plain_of_not_mem h) hp hq hb hc, fun heq => heq ▸ rfl⟩

/-- A name that a class and a clause declare anew. -/
theorem nearest?_eq_nearest?_iff_redeclared :
    ∃ parsed, parse "let p; { class p { } p; } try { } catch (p) { p; }" = .ok parsed ∧
      "p" ∉ straysIn parsed.tree.parts ∧
      "p" ∉ hiddenAround parsed.tree.parts [1, 1, 0] ∧
      "p" ∉ hiddenAround parsed.tree.parts [2, 1, 1, 0, 0] ∧
      ((ofTree parsed.tree).nearest? "p" (scopeAt parsed.tree [1, 1, 0]) =
          (ofTree parsed.tree).nearest? "p" (scopeAt parsed.tree [2, 1, 1, 0, 0]) ↔
        binder? parsed.tree "p" [1, 1, 0] = binder? parsed.tree "p" [2, 1, 1, 0, 0]) := by
  have hkept : (parse "let p; { class p { } p; } try { } catch (p) { p; }").toOption.any
      (fun parsed => decide ("p" ∉ straysIn parsed.tree.parts ∧
        "p" ∉ hiddenAround parsed.tree.parts [1, 1, 0] ∧
        "p" ∉ hiddenAround parsed.tree.parts [2, 1, 1, 0, 0])) = true := by decide +kernel
  cases h : parse "let p; { class p { } p; } try { } catch (p) { p; }" with
  | error e =>
    rw [h] at hkept
    exact absurd hkept Bool.false_ne_true
  | ok parsed =>
    rw [h] at hkept
    obtain ⟨hstray, hp, hq⟩ := of_decide_eq_true hkept
    exact ⟨parsed, rfl, hstray, hp, hq, nearest?_eq_nearest?_iff _ _ hstray _ _ hp hq⟩

/-- The scopes that are left out do make a difference: heads of loops, cases,
own names of classes, static blocks, bodies after computed parameters, the
default export and `arguments`. -/
theorem nearest?_of_strays :
    [("let p; for (let p of []) { p; } p;", "p", [1, 2, 0, 0], [2, 0]),
      ("let p; switch (p) { case 1: let p; p; }", "p", [1, 0], [1, 1, 2, 0]),
      ("let p; (class p { m() { return p; } }); p;", "p", [1, 0, 0, 0, 0, 0, 0, 0], [2, 0]),
      ("class p { m() { return p; } } p;", "p", [0, 0, 0, 0, 0, 0], [1, 0]),
      ("let p; class A { static { var p; p; } } p;", "p", [1, 0, 0, 1, 0], [2, 0]),
      ("function f(a = p) { var p; return p; } var p;", "p", [0, 0, 1], [0, 1, 1, 0]),
      ("export default function p() { p; } p;", "p", [0, 0, 0, 0, 0], [1, 0]),
      ("function f() { return arguments; } arguments;", "arguments", [0, 0, 0, 0], [1, 0])].all
      (fun (source, name, p, q) => (parse source).toOption.any fun parsed =>
        !decide ((ofTree parsed.tree).nearest? name (scopeAt parsed.tree p) =
            (ofTree parsed.tree).nearest? name (scopeAt parsed.tree q) ↔
          binder? parsed.tree name p = binder? parsed.tree name q)) = true := by
  decide +kernel

end

end ScopeTree

end ModuleAssets.Syntax
