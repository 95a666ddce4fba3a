import ModuleAssets.Proofs.Syntax.Place
import ModuleAssets.Proofs.Syntax.Resolution
/-!
# Scopes — what the scope of a node is in the end

A scope gets its names while the parts of its node are collected, and none of them
later. So it is told by the node and by the scope around it: `openedScope` is what
becomes of it, and all scopes but that of the program itself are of this form.
-/

namespace ModuleAssets.Syntax

open ModuleAssets.Syntax.Tree

/-! ## Names that are declared one after another -/

/-- Adds names to a scope. -/
def Scope.declareAll (names : List String) (s : Scope) : Scope :=
  names.foldl (fun s name => s.declare name) s

theorem Scope.declareAll_nil : Scope.declareAll [] = id := rfl

theorem Scope.declareAll_append (before after : List String) (s : Scope) :
    s.declareAll (before ++ after) = (s.declareAll before).declareAll after :=
  List.foldl_append

namespace Tree

/-- How the scope of a node that opens one is looked up. -/
def scopeKind : Kind → ScopeKind
  | .block => .block
  | .catch_ => .catch_
  | _ => .function

/-- The names that a node itself declares for scopes around it. Those that `var`
declares are marked. -/
def ownSpilled (kind : Kind) (parts : List Tree) : List (Bool × String) :=
  match kind with
  | .functionDeclaration name => [(false, name)]
  | .classDeclaration name => [(false, name)]
  | .declarations how => (boundNamesIn (ScopeTree.declaredPatterns parts)).map (how == .var, ·)
  | .import_ _ imports => (ScopeTree.importedNames imports).map (false, ·)
  | _ => []

/-- A name that is declared in the parts of a node is declared around the node. -/
def passes (kind : Kind) (name : Bool × String) : Bool :=
  match kind with
  | .functionDeclaration _ | .function _ | .arrow | .import_ .. => false
  | .block | .catch_ => name.1
  | _ => true

mutual

/-- The names that a tree declares for the scopes around it, in their order. -/
def spilled : Tree → List (Bool × String)
  | node kind _ parts => ownSpilled kind parts ++ (spilledIn parts).filter (passes kind)

/-- `spilled` for trees one after another. -/
def spilledIn : List Tree → List (Bool × String)
  | [] => []
  | t :: rest => spilled t ++ spilledIn rest

end

/-- The names of the scope that a node opens. -/
def heldNames (kind : Kind) (parts : List Tree) : List String :=
  ScopeTree.headNames kind parts ++ ((spilledIn parts).filter fun n => !passes kind n).map (·.2)

/-- The scope that a node opens where it stands in the scope `parent`. -/
def openedScope (parent : Nat) : Tree → Scope
  | node kind span parts =>
    Scope.declareAll (heldNames kind parts) ⟨some parent, scopeKind kind, span, []⟩

end Tree

namespace ScopeTree

section

variable {t : ScopeTree} {current top id i : Nat} {names : List String} {kind : Kind} {span : Span}
  {parts : List Tree}

theorem get?_declare (t : ScopeTree) (id : Nat) (name : String) (i : Nat) :
    (t.declare id name).get? i =
      (t.get? i).map (Scope.declareAll (if i = id then [name] else [])) := by
  rw [declare, get?, get?, List.getElem?_modify, Option.map_eq_map]
  by_cases h : i = id
  · simp only [h, if_true]
    rfl
  · simp only [if_neg h, if_neg (Ne.symm h)]
    rfl

theorem get?_declareAll (t : ScopeTree) (id : Nat) (names : List String) (i : Nat) :
    (t.declareAll id names).get? i =
      (t.get? i).map (Scope.declareAll (if i = id then names else [])) := by
  induction names generalizing t with
  | nil => simp [declareAll, Scope.declareAll_nil]
  | cons name names ih =>
    have hlater := ih (t.declare id name)
    rw [get?_declare, Option.map_map] at hlater
    rw [declareAll, List.foldl_cons, ← declareAll, hlater]
    split
    · rfl
    · rfl

theorem get?_openScope_of_lt {kind : ScopeKind} {parent : Option Nat} (h : i < t.scopes.length) :
    (t.openScope kind span parent).get? i = t.get? i :=
  List.getElem?_append_left h

theorem get?_openScope_length (t : ScopeTree) (kind : ScopeKind) (span : Span)
    (parent : Option Nat) :
    (t.openScope kind span parent).get? t.scopes.length = some ⟨parent, kind, span, []⟩ :=
  List.getElem?_concat_length

/-! ## Scopes that were there -/

/-- Of some names, those that a scope gets: the marked ones belong to `top`, the others
to `current`. -/
def received (current top id : Nat) (names : List (Bool × String)) : List String :=
  (names.filter fun n => (if n.1 then top else current) == id).map (·.2)

theorem received_append (current top id : Nat) (before after : List (Bool × String)) :
    received current top id (before ++ after) =
      received current top id before ++ received current top id after := by
  simp only [received, List.filter_append, List.map_append]

theorem received_map (current top id : Nat) (marked : Bool) (names : List String) :
    received current top id (names.map (marked, ·)) =
      if id = (if marked then top else current) then names else [] := by
  have hfilter (home : Nat) :
      (names.filter fun _ => home == id) = if id = home then names else [] := by
    by_cases h : id = home
    · simp [h]
    · simp [h, Ne.symm h]
  simp only [received, List.filter_map, List.map_map, Function.comp_def]
  cases marked with
  | true => simpa using hfilter top
  | false => simpa using hfilter current

theorem received_of_ne (hcurrent : id ≠ current) (htop : id ≠ top) (names : List (Bool × String)) :
    received current top id names = [] := by
  rw [received, List.map_eq_nil_iff, List.filter_eq_nil_iff]
  intro n _
  split
  · simpa using htop.symm
  · simpa using hcurrent.symm

/-- What a node declares itself, the scopes around it get. -/
theorem get?_opened (h : HoistsTo t current top) (hid : id < t.scopes.length) (kind : Kind)
    (span : Span) (parts : List Tree) :
    (opened current t kind span parts).1.get? id =
      (t.get? id).map (Scope.declareAll (received current top id (ownSpilled kind parts))) := by
  have hne : id ≠ t.scopes.length := Nat.ne_of_lt hid
  have hkept : t.get? id = (t.get? id).map (Scope.declareAll []) :=
    (Option.map_id_apply ..).symm
  cases kind
  case functionDeclaration name =>
    have hown := received_map current top id false [name]
    rw [List.map_singleton] at hown
    rw [opened, get?_declareAll, if_neg hne, Scope.declareAll_nil, Option.map_id_apply,
      get?_openScope_of_lt (length_declare.symm ▸ hid), get?_declare, ownSpilled, hown]
    rfl
  case classDeclaration name =>
    have hown := received_map current top id false [name]
    rw [List.map_singleton] at hown
    rw [opened, get?_declare, ownSpilled, hown]
    rfl
  case function name =>
    rw [opened, get?_declareAll, if_neg hne, Scope.declareAll_nil, Option.map_id_apply,
      get?_declareAll, if_neg hne, Scope.declareAll_nil, Option.map_id_apply,
      get?_openScope_of_lt hid]
    exact hkept
  case arrow | catch_ =>
    rw [opened, get?_declareAll, if_neg hne, Scope.declareAll_nil, Option.map_id_apply,
      get?_openScope_of_lt hid]
    exact hkept
  case block =>
    rw [opened, get?_openScope_of_lt hid]
    exact hkept
  case declarations how =>
    rw [opened, get?_declareAll, ownSpilled, received_map]
    cases how with
    | var => rw [h.target_var]; rfl
    | let_ => rfl
    | const => rfl
  case import_ specifier imports =>
    rw [opened, get?_declareAll, ownSpilled, received_map]
    rfl
  all_goals exact hkept

/-- What the parts of a node declare, the scopes around it get unless the node keeps it. -/
theorem received_parts (hid : id < t.scopes.length) (current top : Nat) (kind : Kind) (span : Span)
    (parts : List Tree) :
    received (opened current t kind span parts).2 (if isFunction kind then t.scopes.length else top)
        id (spilledIn (visited kind parts)) =
      received current top id ((spilledIn parts).filter (passes kind)) := by
  have hne : id ≠ t.scopes.length := Nat.ne_of_lt hid
  have hnone : received current top id ((spilledIn parts).filter fun _ => false) = [] := by
    rw [received, List.filter_filter]
    simp
  have hinner : received t.scopes.length top id (spilledIn parts) =
      received current top id ((spilledIn parts).filter (·.1)) := by
    rw [received, received, List.filter_filter]
    congr 1
    refine List.filter_congr fun n _ => ?_
    cases n.1 with
    | true => simp
    | false => simpa using hne.symm
  have hall : received current top id (spilledIn parts) =
      received current top id ((spilledIn parts).filter fun _ => true) := by
    rw [List.filter_eq_self.2 fun _ _ => rfl]
  cases kind
  case functionDeclaration | function | arrow => exact (received_of_ne hne hne _).trans hnone.symm
  case import_ => exact hnone.symm
  case block | catch_ => exact hinner
  all_goals exact hall

theorem visited_eq (kind : Kind) (parts : List Tree) :
    visited kind parts = parts ∨ visited kind parts = [] := by
  cases kind
  case import_ => exact .inr rfl
  all_goals exact .inl rfl

mutual

/-- **Scopes that were there get the names that a tree declares for them**, and nothing
else becomes of them. -/
theorem get?_collect {t : ScopeTree} {current top id : Nat} (h : HoistsTo t current top)
    (hid : id < t.scopes.length) : ∀ tree : Tree, (collect current t tree).get? id =
      (t.get? id).map (Scope.declareAll (received current top id (spilled tree)))
  | node kind span parts => by
    have hlt := Nat.lt_of_lt_of_le hid (Grows.opened current t kind span parts).length_le
    have hparts : (collectAll (opened current t kind span parts).2
        (opened current t kind span parts).1 (visited kind parts)).get? id =
        ((opened current t kind span parts).1.get? id).map (Scope.declareAll
          (received (opened current t kind span parts).2
            (if isFunction kind then t.scopes.length else top) id
            (spilledIn (visited kind parts)))) := by
      rcases visited_eq kind parts with hvisited | hvisited
      · rw [hvisited]
        exact get?_collectAll (h.opened kind span parts) hlt parts
      · rw [hvisited]
        exact (Option.map_id_apply ..).symm
    rw [collect_node, hparts, received_parts hid, get?_opened h hid, Option.map_map, spilled,
      received_append]
    congr 1
    funext s
    exact (Scope.declareAll_append _ _ s).symm

theorem get?_collectAll {t : ScopeTree} {current top id : Nat} (h : HoistsTo t current top)
    (hid : id < t.scopes.length) : ∀ parts : List Tree, (collectAll current t parts).get? id =
      (t.get? id).map (Scope.declareAll (received current top id (spilledIn parts)))
  | [] => (Option.map_id_apply ..).symm
  | tree :: rest => by
    have hgrows := Grows.collect current t tree
    rw [collectAll, get?_collectAll (h.grows hgrows) (Nat.lt_of_lt_of_le hid hgrows.length_le) rest,
      get?_collect h hid tree, Option.map_map, spilledIn, received_append]
    congr 1
    funext s
    exact (Scope.declareAll_append _ _ s).symm

end

end

/-! ## New scopes -/

section

variable {t : ScopeTree} {current top id : Nat} {kind : Kind} {span : Span} {parts : List Tree}
  {tree : Tree} {s : Scope}

theorem not_isImport_of_opens (h : opens kind = true) (parts : List Tree) :
    visited kind parts = parts := by
  cases kind
  case import_ => exact absurd h Bool.false_ne_true
  all_goals rfl

/-- A new scope begins with the names of the head. -/
theorem get?_opened_length (h : opens kind = true) (current : Nat) (t : ScopeTree) (span : Span)
    (parts : List Tree) :
    (opened current t kind span parts).1.get? t.scopes.length =
      some (Scope.declareAll (headNames kind parts) ⟨some current, scopeKind kind, span, []⟩) := by
  cases kind
  case functionDeclaration name =>
    have hopen := get?_openScope_length (t.declare current name) .function span (some current)
    rw [length_declare] at hopen
    rw [opened, get?_declareAll, if_pos rfl, hopen]
    rfl
  case function name =>
    rw [opened, get?_declareAll, if_pos rfl, get?_declareAll, if_pos rfl, get?_openScope_length,
      headNames, Option.map_some, Option.map_some, Scope.declareAll_append]
    rfl
  case arrow | catch_ =>
    rw [opened, get?_declareAll, if_pos rfl, get?_openScope_length]
    rfl
  case block => exact get?_openScope_length t .block span (some current)
  all_goals exact absurd h Bool.false_ne_true

/-- And the parts of the node add those that do not pass it. -/
theorem received_new (h : opens kind = true) (htop : top < t.scopes.length) (current : Nat)
    (span : Span) (parts : List Tree) (names : List (Bool × String)) :
    received (opened current t kind span parts).2 (if isFunction kind then t.scopes.length else top)
        t.scopes.length names =
      (names.filter fun n => !passes kind n).map (·.2) := by
  rw [(opened_of_opens current t span parts h).1, received]
  congr 1
  refine List.filter_congr fun n _ => ?_
  have hne : top ≠ t.scopes.length := Nat.ne_of_lt htop
  cases kind
  case functionDeclaration | function | arrow => simp [isFunction, passes]
  case block | catch_ => cases hn : n.1 <;> simp [isFunction, passes, hn, hne]
  all_goals exact absurd h Bool.false_ne_true

/-- **What becomes of the scope that a node opens.** -/
theorem get?_collect_length (h : HoistsTo t current top) (hopens : opens kind = true) (span : Span)
    (parts : List Tree) :
    (collect current t (node kind span parts)).get? t.scopes.length =
      some (openedScope current (node kind span parts)) := by
  obtain ⟨-, hlength⟩ := opened_of_opens current t span parts hopens
  have htop : top < t.scopes.length := Nat.lt_of_le_of_lt h.le h.lt_length
  rw [collect_node, not_isImport_of_opens hopens,
    get?_collectAll (h.opened kind span parts) (by omega), get?_opened_length hopens,
    received_new hopens htop, Option.map_some, ← Scope.declareAll_append]
  rfl

/-- A tree changes nothing in scopes other than the one it stands in and the one that
`var` declares in. -/
theorem get?_collectAll_of_lt (h : HoistsTo t current top) (hid : id < t.scopes.length)
    (hcurrent : current < id) (parts : List Tree) :
    (collectAll current t parts).get? id = t.get? id := by
  rw [get?_collectAll h hid, received_of_ne (Nat.ne_of_gt hcurrent)
    (Nat.ne_of_gt (Nat.lt_of_le_of_lt h.le hcurrent)), Scope.declareAll_nil, Option.map_id_apply]

/-- The scope is what becomes of one that a node in the tree opens. -/
def OpenedIn (tree : Tree) (s : Scope) : Prop :=
  ∃ n parent, tree.Contains n ∧ opens n.kind = true ∧ s = openedScope parent n

theorem OpenedIn.of_part {part : Tree} (h : OpenedIn part s) (hpart : part ∈ tree.parts) :
    OpenedIn tree s := by
  obtain ⟨n, parent, hn, hopens, hs⟩ := h
  exact ⟨n, parent, contains_iff.2 (.inr ⟨part, hpart, hn⟩), hopens, hs⟩

theorem length_opened_of_not_opens (h : opens kind = false) (current : Nat) (t : ScopeTree)
    (span : Span) (parts : List Tree) :
    (opened current t kind span parts).1.scopes.length = t.scopes.length := by
  cases kind
  case functionDeclaration | function | arrow | block | catch_ =>
    exact absurd h.symm Bool.false_ne_true
  case classDeclaration => exact length_declare
  case declarations | import_ => exact length_declareAll
  all_goals rfl

theorem lt_length_of_get? (h : t.get? id = some s) : id < t.scopes.length :=
  (List.getElem?_eq_some_iff.1 h).1

mutual

/-- **All new scopes are opened by nodes.** -/
theorem openedIn_of_get?_collect {t : ScopeTree} {current top id : Nat} {s : Scope}
    (h : HoistsTo t current top) (hid : t.scopes.length ≤ id) :
    ∀ tree : Tree, (collect current t tree).get? id = some s → OpenedIn tree s
  | node kind span parts, hs => by
    have hinner (hid : (opened current t kind span parts).1.scopes.length ≤ id) :
        OpenedIn (node kind span parts) s := by
      rw [collect_node] at hs
      rcases visited_eq kind parts with hvisited | hvisited
      · rw [hvisited] at hs
        obtain ⟨part, hpart, hopened⟩ :=
          openedIn_of_get?_collectAll (h.opened kind span parts) hid parts hs
        exact hopened.of_part hpart
      · rw [hvisited] at hs
        exact absurd (lt_length_of_get? hs) (Nat.not_lt.2 hid)
    cases hopens : opens kind with
    | false =>
      rw [length_opened_of_not_opens hopens] at hinner
      exact hinner hid
    | true =>
      obtain ⟨-, hlength⟩ := opened_of_opens current t span parts hopens
      by_cases hnew : id = t.scopes.length
      · rw [hnew, get?_collect_length h hopens] at hs
        exact ⟨_, current, .refl _, hopens, (Option.some.inj hs).symm⟩
      · exact hinner (by omega)

theorem openedIn_of_get?_collectAll {t : ScopeTree} {current top id : Nat} {s : Scope}
    (h : HoistsTo t current top) (hid : t.scopes.length ≤ id) :
    ∀ parts : List Tree, (collectAll current t parts).get? id = some s →
      ∃ part ∈ parts, OpenedIn part s
  | [], hs => absurd (lt_length_of_get? hs) (Nat.not_lt.2 hid)
  | tree :: rest, hs => by
    rw [collectAll] at hs
    have hgrows := Grows.collect current t tree
    by_cases hlt : id < (collect current t tree).scopes.length
    · have hcurrent := Nat.lt_of_lt_of_le h.lt_length hid
      rw [get?_collectAll_of_lt (h.grows hgrows) hlt hcurrent] at hs
      exact ⟨tree, List.mem_cons_self, openedIn_of_get?_collect h hid tree hs⟩
    · obtain ⟨part, hpart, hopened⟩ :=
        openedIn_of_get?_collectAll (h.grows hgrows) (Nat.not_lt.1 hlt) rest hs
      exact ⟨part, List.mem_cons_of_mem _ hpart, hopened⟩

end

end

/-! ## On the way to a place -/

/-- The node at a place in trees one after another. Nothing is looked for in an import. -/
def partIn? : List Tree → List Nat → Option Tree
  | parts, i :: place =>
    match place with
    | [] => parts[i]?
    | _ :: _ => parts[i]?.bind fun part => partIn? (visited part.kind part.parts) place
  | _, [] => none

/-- The nodes around a place that open scopes, the innermost first. -/
def openersIn : List Tree → List Nat → List Tree
  | parts, i :: place =>
    match place with
    | [] => []
    | _ :: _ =>
      match parts[i]? with
      | none => []
      | some part =>
        openersIn (visited part.kind part.parts) place ++ if opens part.kind then [part] else []
  | _, [] => []

section

variable {t : ScopeTree} {current top id i j : Nat} {parts : List Tree} {place : List Nat}
  {n part : Tree} {s : Scope}

theorem partIn?_cons (h : parts[i]? = some part) :
    partIn? parts (i :: j :: place) = partIn? (visited part.kind part.parts) (j :: place) := by
  rw [partIn?, h, Option.bind_some]

/-- The first step on the way to a node. -/
theorem exists_part_of_partIn? (h : partIn? parts (i :: place) = some n) :
    ∃ part, parts[i]? = some part ∧
      (place = [] ∧ part = n ∨
        place ≠ [] ∧ partIn? (visited part.kind part.parts) place = some n) := by
  cases place with
  | nil => exact ⟨n, h, .inl ⟨rfl, rfl⟩⟩
  | cons j place =>
    rw [partIn?, Option.bind_eq_some_iff] at h
    obtain ⟨part, hpart, hn⟩ := h
    exact ⟨part, hpart, .inr ⟨List.cons_ne_nil _ _, hn⟩⟩

theorem partIn?_snoc (h : partIn? parts place = some n) (j : Nat) :
    partIn? parts (place ++ [j]) = (visited n.kind n.parts)[j]? := by
  induction place generalizing parts with
  | nil => cases h
  | cons i place ih =>
    obtain ⟨part, hpart, ⟨rfl, rfl⟩ | ⟨hplace, hn⟩⟩ := exists_part_of_partIn? h
    · exact partIn?_cons hpart
    · obtain ⟨k, place, rfl⟩ := List.exists_cons_of_ne_nil hplace
      exact (partIn?_cons hpart).trans (ih hn)

theorem openersIn_cons (h : parts[i]? = some part) :
    openersIn parts (i :: j :: place) = openersIn (visited part.kind part.parts) (j :: place) ++
      if opens part.kind then [part] else [] := by
  rw [openersIn, h]

theorem openersIn_snoc (h : partIn? parts place = some n) (j : Nat) :
    openersIn parts (place ++ [j]) =
      (if opens n.kind then [n] else []) ++ openersIn parts place := by
  induction place generalizing parts with
  | nil => cases h
  | cons i place ih =>
    obtain ⟨part, hpart, ⟨rfl, rfl⟩ | ⟨hplace, hn⟩⟩ := exists_part_of_partIn? h
    · rw [List.cons_append, List.nil_append, openersIn_cons hpart]
      exact (List.append_nil _).symm
    · obtain ⟨k, place, rfl⟩ := List.exists_cons_of_ne_nil hplace
      have hinner := ih hn
      rw [List.cons_append] at hinner
      rw [List.cons_append, List.cons_append, openersIn_cons hpart, openersIn_cons hpart, hinner,
        List.append_assoc]

theorem reach_cons (current : Nat) (t : ScopeTree) (h : parts[i]? = some part) :
    reach current t parts (i :: j :: place) =
      reach (opened current (collectAll current t (parts.take i)) part.kind part.span part.parts).2
        (opened current (collectAll current t (parts.take i)) part.kind part.span part.parts).1
        (visited part.kind part.parts) (j :: place) := by
  obtain ⟨kind, span, inner⟩ := part
  exact reach_node h

/-- Below a node the scope is the node's own, if it opens one. -/
theorem reach_snoc (current : Nat) (t : ScopeTree) (h : partIn? parts place = some n) (j : Nat) :
    reach current t parts (place ++ [j]) =
      reach (opened (reach current t parts place).1 (reach current t parts place).2 n.kind n.span
          n.parts).2
        (opened (reach current t parts place).1 (reach current t parts place).2 n.kind n.span
          n.parts).1 (visited n.kind n.parts) [j] := by
  induction place generalizing current t parts with
  | nil => cases h
  | cons i place ih =>
    obtain ⟨part, hpart, ⟨rfl, rfl⟩ | ⟨hplace, hn⟩⟩ := exists_part_of_partIn? h
    · rw [reach_singleton hpart]
      exact reach_cons current t hpart
    · obtain ⟨k, place, rfl⟩ := List.exists_cons_of_ne_nil hplace
      rw [reach_cons current t hpart]
      exact (reach_cons current t hpart).trans (ih _ _ hn)

theorem reach_one (current : Nat) (t : ScopeTree) (parts : List Tree) (j : Nat) :
    (reach current t parts [j]).1 = current := by
  cases h : parts[j]? with
  | none => rw [reach, h]
  | some part => rw [reach_singleton h]

theorem grows_reach (current : Nat) (t : ScopeTree) (h : partIn? parts place = some n) :
    Grows t (reach current t parts place).2 := by
  induction place generalizing current t parts with
  | nil => cases h
  | cons i place ih =>
    have hbefore := Grows.collectAll current t (parts.take i)
    obtain ⟨part, hpart, ⟨rfl, rfl⟩ | ⟨hplace, hn⟩⟩ := exists_part_of_partIn? h
    · rw [reach_singleton hpart]
      exact hbefore
    · obtain ⟨k, place, rfl⟩ := List.exists_cons_of_ne_nil hplace
      rw [reach_cons current t hpart]
      exact (hbefore.trans (.opened _ _ _ _ _)).trans (ih _ _ hn)

/-- The collecting stands in a scope at each place. -/
theorem hoistsTo_reach (h : HoistsTo t current top) (hn : partIn? parts place = some n) :
    ∃ top, HoistsTo (reach current t parts place).2 (reach current t parts place).1 top := by
  induction place generalizing current t top parts with
  | nil => cases hn
  | cons i place ih =>
    obtain ⟨part, hpart, ⟨rfl, rfl⟩ | ⟨hplace, hn⟩⟩ := exists_part_of_partIn? hn
    · rw [reach_singleton hpart]
      exact ⟨top, h.grows (.collectAll _ _ _)⟩
    · obtain ⟨k, place, rfl⟩ := List.exists_cons_of_ne_nil hplace
      rw [reach_cons current t hpart]
      exact ih ((h.grows (.collectAll _ _ _)).opened _ _ _) hn

/-- **What is collected of a node stays as it is**: what comes after changes no scope that
the node or a node inside opens. -/
theorem get?_of_reach (h : HoistsTo t current top) (hn : partIn? parts place = some n)
    (hid : (reach current t parts place).2.scopes.length ≤ id)
    (hs : (collect (reach current t parts place).1 (reach current t parts place).2 n).get? id =
      some s) : (collectAll current t parts).get? id = some s := by
  induction place generalizing current t top parts with
  | nil => cases hn
  | cons i place ih =>
    obtain ⟨part, hpart, hn⟩ := exists_part_of_partIn? hn
    have hbefore := h.grows (.collectAll current t (parts.take i))
    -- what is collected of the part stays as it is
    have hpartKept (hid : (collectAll current t (parts.take i)).scopes.length ≤ id)
        (hs : (collect current (collectAll current t (parts.take i)) part).get? id = some s) :
        (collectAll current t parts).get? id = some s := by
      rw [collectAll_part hpart, get?_collectAll_of_lt (hbefore.grows (.collect _ _ part))
        (lt_length_of_get? hs) (Nat.lt_of_lt_of_le hbefore.lt_length hid)]
      exact hs
    obtain ⟨rfl, rfl⟩ | ⟨hplace, hn⟩ := hn
    · rw [reach_singleton hpart] at hid hs
      exact hpartKept hid hs
    · obtain ⟨k, place, rfl⟩ := List.exists_cons_of_ne_nil hplace
      rw [reach_cons current t hpart] at hid hs
      have hinner := ih (hbefore.opened part.kind part.span part.parts) hn hid hs
      have hle := (Grows.opened current (collectAll current t (parts.take i)) part.kind part.span
        part.parts).length_le
      have hlater := Nat.le_trans hle (Nat.le_trans (grows_reach _ _ hn).length_le hid)
      obtain ⟨kind, span, inner⟩ := part
      rw [← collect_node] at hinner
      exact hpartKept hlater hinner

end

end ScopeTree

end ModuleAssets.Syntax
