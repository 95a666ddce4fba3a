import ModuleAssets.Proofs.Environment.Knowledge
import ModuleAssets.Proofs.Evaluate.Monotone
import ModuleAssets.Proofs.Syntax.Place
import ModuleAssets.Relocation.Walk
/-!
# Control flow — modules of statements and their runs

The modules considered here are made of declarations, assignments, branches,
loops and expressions that write to no name. A run goes through such a module
with a store, which is an environment that tells what every name holds. Where
an expression has a known value by the store, it has this value, and else any.
A branch goes the way of its test, or either way if this is not known. A loop
runs its parts in any order and as often as it likes, so that the runs of the
language are among those considered.

`Runs` takes a run to its end, and `ComesTo` to the node at a place. A run
writes to no more names than `writes` tells of its tree.
-/

namespace ModuleAssets.Flow

open Syntax Syntax.Tree

/-! ## The modules -/

/-- What a kind of node is to control flow. -/
inductive Role where
  /-- An expression without effect on names, or a part of one. -/
  | value
  /-- A part of a pattern. -/
  | pattern
  /-- Its parts run one after another. -/
  | list
  /-- As a list, in a scope of its own. -/
  | block
  | branch
  | loop
  /-- It writes to names. -/
  | writing
  | other
deriving DecidableEq

/-- The role of each kind. -/
def role : Kind → Role
  | .identifier _ | .this | .null | .boolean _ | .number _ | .text _ | .bigint | .regex
  | .template _ | .array | .hole | .spread | .object | .property _ | .shorthand _ | .member _
  | .hiddenMember _ | .computedMember | .call | .new | .unary _ | .binary _ | .conditional
  | .paren => .value
  | .binding _ | .arrayPattern | .objectPattern | .propertyPattern _ | .shorthandPattern _
  | .restPattern => .pattern
  | .program _ | .expressionStatement | .declarations _ | .empty | .sequence => .list
  | .block => .block
  | .if_ => .branch
  | .while_ | .doWhile | .for_ | .forEach _ => .loop
  | .assign _ | .update | .declaration => .writing
  | _ => .other

mutual

/-- The tree is an expression that writes to no name. -/
def isValue : Tree → Bool
  | node kind _ parts => role kind == .value && isValueIn parts

/-- `isValue` for trees one after another. -/
def isValueIn : List Tree → Bool
  | [] => true
  | t :: rest => isValue t && isValueIn rest

end

/-- A key that is written out and has a value. -/
def isFixedKey : Key → Bool
  | .computed | .text none => false
  | _ => true

mutual

/-- The tree is a pattern without expressions, which does not bind the
loader. -/
def isPattern : Tree → Bool
  | node (.binding name) _ [] => name != Environment.loaderName
  | node .hole _ [] => true
  | node .arrayPattern _ items => isPatternIn items
  | node .objectPattern _ members => isPatternIn members
  | node (.propertyPattern key) _ [inner] => isFixedKey key && isPattern inner
  | node (.shorthandPattern name) _ [] => name != Environment.loaderName
  | node .restPattern _ [inner] => isPattern inner
  | _ => false

/-- `isPattern` for trees one after another. -/
def isPatternIn : List Tree → Bool
  | [] => true
  | t :: rest => isPattern t && isPatternIn rest

end

/-- The pattern may be assigned to. -/
def isTarget (t : Tree) : Bool :=
  match t.kind with
  | .binding _ | .arrayPattern | .objectPattern => isPattern t
  | _ => false

/-- The modules considered here, and their parts. -/
inductive Simple : Tree → Prop
  | value {t : Tree} (ht : isValue t = true) : Simple t
  /-- A target of a loop over an object. -/
  | pattern {t : Tree} (ht : isPattern t = true) : Simple t
  | declared {span : Span} {pattern : Tree} (hpattern : isPattern pattern = true) :
    Simple (node .declaration span [pattern])
  | defined {span : Span} {pattern value : Tree} (hpattern : isPattern pattern = true)
      (hvalue : isValue value = true) : Simple (node .declaration span [pattern, value])
  | assigned {op : Option BinaryOp} {span : Span} {target value : Tree}
      (htarget : isTarget target = true) (hvalue : isValue value = true) :
    Simple (node (.assign op) span [target, value])
  | updated {span place : Span} {name : String} (hname : name ≠ Environment.loaderName) :
    Simple (node .update span [node (.identifier name) place []])
  | list {kind : Kind} {span : Span} {parts : List Tree} (hkind : role kind = .list)
      (hparts : ∀ part ∈ parts, Simple part) : Simple (node kind span parts)
  | block {span : Span} {parts : List Tree} (hparts : ∀ part ∈ parts, Simple part) :
    Simple (node .block span parts)
  | branch {span : Span} {test yes : Tree} {no : List Tree} (htest : Simple test)
      (hyes : Simple yes) (hno : ∀ part ∈ no, Simple part) :
    Simple (node .if_ span (test :: yes :: no))
  | loop {kind : Kind} {span : Span} {parts : List Tree} (hkind : role kind = .loop)
      (hparts : ∀ part ∈ parts, Simple part) : Simple (node kind span parts)

/-! ## Names that are written -/

section

variable (w : WalkSetting)

/-- Inside of a block. -/
def inside (span : Span) (env : Environment) : Environment :=
  match w.scopes.lookup .block span with
  | some scope => env.enter scope
  | none => env

/-- Outside again. -/
def outside (span : Span) (env : Environment) : Environment :=
  match w.scopes.lookup .block span with
  | some scope => env.leave scope
  | none => env

/-- Those of some names that a block does not declare. -/
def outerNames (span : Span) (names : List String) : List String :=
  match w.scopes.lookup .block span with
  | some scope => names.filter fun name => !scope.declares name
  | none => names

mutual

/-- The names that a tree writes, without those that belong to its blocks. -/
def writes : Tree → List String
  | node .block span parts => outerNames w span (writesIn parts)
  | node .update _ [node (.identifier name) _ _] => [name]
  | node .declaration _ (pattern :: _) => pattern.boundNames
  | node (.assign _) _ (target :: _) => target.boundNames
  | node kind span parts => (node kind span parts).boundNames ++ writesIn parts

/-- The names that some trees write. -/
def writesIn : List Tree → List String
  | [] => []
  | t :: rest => writes t ++ writesIn rest

end

/-! ## What is written -/

/-- The names get something unknown. -/
def unknown (names : List String) : List (String × Option Value) :=
  names.map (·, none)

/-- What is known of a value: the value as a whole, and its members. -/
structure Given where
  whole : Option Value
  member? : String → Option Value

/-- What is known of the members of an object. -/
def memberOf? : Option Value → String → Option Value
  | some (.object members), key => (Value.object members).member? key
  | _, _ => none

/-- What is known of the value of an expression. A module that is loaded is
its default export, and its members are its exports. -/
def given (env : Environment) (value : Tree) : Given :=
  match Loader.requiredModule? w.grammar env value with
  | some m => ⟨m.defaultExport, m.export?⟩
  | none =>
    let known := (value.evaluate w.ctx env).single.value
    ⟨known, memberOf? known⟩

/-- What the names of one member of a pattern get. -/
def giveMember (member? : String → Option Value) : Tree → List (String × Option Value)
  | node (.propertyPattern (.name key)) _ [node (.binding name) _ _] => [(name, member? key)]
  | node (.propertyPattern (.text (some key))) _ [node (.binding name) _ _] =>
    [(name, member? key)]
  | node (.shorthandPattern name) _ [] => [(name, member? name)]
  | t => unknown t.boundNames

/-- What the names of a pattern get. -/
def Given.give (g : Given) : Tree → List (String × Option Value)
  | node (.binding name) _ _ => [(name, g.whole)]
  | node .objectPattern _ members => members.flatMap (giveMember g.member?)
  | t => unknown t.boundNames

/-- What the names that a single node writes get. -/
def effects? (env : Environment) : Tree → Option (List (String × Option Value))
  | node .declaration _ [pattern] => some (unknown pattern.boundNames)
  | node .declaration _ [pattern, value] => some ((given w env value).give pattern)
  | node (.assign none) _ [node (.binding name) _ _, value] =>
    some [(name, (given w env value).whole)]
  | node (.assign _) _ [target, _] => some (unknown target.boundNames)
  | node .update _ [node (.identifier name) _ _] => some [(name, none)]
  | t => if isPattern t then some (unknown t.boundNames) else none

/-! ## Runs -/

/-- What is run. -/
inductive Task where
  | one (t : Tree)
  /-- One after another. -/
  | all (ts : List Tree)
  /-- In any order, each as often as it likes. -/
  | rounds (ts : List Tree)

/-- How many parts of a loop run once, before the others: a `for` loop may
declare variables. -/
def headLength : Kind → List Tree → Nat
  | .for_, node (.declarations _) _ _ :: _ => 1
  | _, _ => 0

/-- By the store a test may turn out this way. -/
def MayBe (σ : Environment) (test : Tree) (holds : Bool) : Prop :=
  ∀ v, Gives w.ctx σ test (.single v) → v.truthy = holds

/-- A run from one store to another. -/
inductive Runs : Task → Environment → Environment → Prop
  | nil {σ : Environment} : Runs (.all []) σ σ
  | cons {t : Tree} {rest : List Tree} {σ σ' σ'' : Environment} (h : Runs (.one t) σ σ')
      (hrest : Runs (.all rest) σ' σ'') : Runs (.all (t :: rest)) σ σ''
  | stop {parts : List Tree} {σ : Environment} : Runs (.rounds parts) σ σ
  | round {parts : List Tree} {t : Tree} {σ σ' σ'' : Environment} (ht : t ∈ parts)
      (h : Runs (.one t) σ σ') (hrest : Runs (.rounds parts) σ' σ'') : Runs (.rounds parts) σ σ''
  | value {t : Tree} {σ : Environment} (ht : isValue t = true) : Runs (.one t) σ σ
  | write {t : Tree} {known : List (String × Option Value)} {σ σ' : Environment}
      (ht : effects? w σ t = some known) (h : Environment.Stores known σ σ') : Runs (.one t) σ σ'
  | list {kind : Kind} {span : Span} {parts : List Tree} {σ σ' : Environment}
      (hkind : role kind = .list) (h : Runs (.all parts) σ σ') :
    Runs (.one (node kind span parts)) σ σ'
  | block {span : Span} {parts : List Tree} {σ σ' : Environment}
      (h : Runs (.all parts) (inside w span σ) σ') :
    Runs (.one (node .block span parts)) σ (outside w span σ')
  | yes {span : Span} {test yes : Tree} {no : List Tree} {σ σ' σ'' : Environment}
      (htest : Runs (.one test) σ σ') (hguard : MayBe w σ test true) (h : Runs (.one yes) σ' σ'') :
    Runs (.one (node .if_ span (test :: yes :: no))) σ σ''
  | no {span : Span} {test yes : Tree} {no : List Tree} {σ σ' σ'' : Environment}
      (htest : Runs (.one test) σ σ') (hguard : MayBe w σ test false) (h : Runs (.all no) σ' σ'') :
    Runs (.one (node .if_ span (test :: yes :: no))) σ σ''
  | loop {kind : Kind} {span : Span} {parts : List Tree} {σ σ' σ'' : Environment}
      (hkind : role kind = .loop) (hhead : Runs (.all (parts.take (headLength kind parts))) σ σ')
      (h : Runs (.rounds (parts.drop (headLength kind parts))) σ' σ'') :
    Runs (.one (node kind span parts)) σ σ''

/-- A run from a store comes to the node at a place of a tree, with another
store. -/
inductive ComesTo : Tree → Environment → List Nat → Environment → Prop
  | here {t : Tree} {σ : Environment} : ComesTo t σ [] σ
  /-- All of an expression is read with one store. -/
  | value {t u : Tree} {σ : Environment} {place : List Nat} (ht : isValue t = true)
      (hplace : t.partAt? place = some u) : ComesTo t σ place σ
  /-- A value is read before it is written. -/
  | written {kind : Kind} {span : Span} {target value u : Tree} {σ : Environment}
      {place : List Nat} (hkind : role kind = .writing) (hvalue : isValue value = true)
      (hplace : value.partAt? place = some u) :
    ComesTo (node kind span [target, value]) σ (1 :: place) σ
  | list {kind : Kind} {span : Span} {parts : List Tree} {part : Tree} {i : Nat}
      {σ σ' σ'' : Environment} {place : List Nat} (hkind : role kind = .list)
      (hpart : parts[i]? = some part) (hbefore : Runs w (.all (parts.take i)) σ σ')
      (h : ComesTo part σ' place σ'') : ComesTo (node kind span parts) σ (i :: place) σ''
  | block {span : Span} {parts : List Tree} {part : Tree} {i : Nat} {σ σ' σ'' : Environment}
      {place : List Nat} (hpart : parts[i]? = some part)
      (hbefore : Runs w (.all (parts.take i)) (inside w span σ) σ')
      (h : ComesTo part σ' place σ'') :
    ComesTo (node .block span parts) σ (i :: place) σ''
  | test {span : Span} {test yes : Tree} {no : List Tree} {σ σ' : Environment}
      {place : List Nat} (h : ComesTo test σ place σ') :
    ComesTo (node .if_ span (test :: yes :: no)) σ (0 :: place) σ'
  | yes {span : Span} {test yes : Tree} {no : List Tree} {σ σ' σ'' : Environment}
      {place : List Nat} (htest : Runs w (.one test) σ σ') (hguard : MayBe w σ test true)
      (h : ComesTo yes σ' place σ'') :
    ComesTo (node .if_ span (test :: yes :: no)) σ (1 :: place) σ''
  | no {span : Span} {test yes part : Tree} {no : List Tree} {i : Nat}
      {σ σ' σ'' σ''' : Environment} {place : List Nat} (hpart : no[i]? = some part)
      (htest : Runs w (.one test) σ σ') (hguard : MayBe w σ test false)
      (hbefore : Runs w (.all (no.take i)) σ' σ'') (h : ComesTo part σ'' place σ''') :
    ComesTo (node .if_ span (test :: yes :: no)) σ ((i + 2) :: place) σ'''
  | head {kind : Kind} {span : Span} {parts : List Tree} {part : Tree} {i : Nat}
      {σ σ' σ'' : Environment} {place : List Nat} (hkind : role kind = .loop)
      (hi : i < headLength kind parts) (hpart : parts[i]? = some part)
      (hbefore : Runs w (.all (parts.take i)) σ σ') (h : ComesTo part σ' place σ'') :
    ComesTo (node kind span parts) σ (i :: place) σ''
  /-- Some rounds, and then once more. -/
  | round {kind : Kind} {span : Span} {parts : List Tree} {part : Tree} {i : Nat}
      {σ σ' σ'' σ''' : Environment} {place : List Nat} (hkind : role kind = .loop)
      (hi : headLength kind parts ≤ i) (hpart : parts[i]? = some part)
      (hhead : Runs w (.all (parts.take (headLength kind parts))) σ σ')
      (hrounds : Runs w (.rounds (parts.drop (headLength kind parts))) σ' σ'')
      (h : ComesTo part σ'' place σ''') : ComesTo (node kind span parts) σ (i :: place) σ'''

end

/-! ## What a run changes -/

section

variable {w : WalkSetting} {σ σ' : Environment}

/-- The names that a task writes. -/
def Task.writes (w : WalkSetting) : Task → List String
  | one t => Flow.writes w t
  | all ts | rounds ts => writesIn w ts

theorem map_fst_unknown (names : List String) : (unknown names).map Prod.fst = names := by
  rw [unknown, List.map_map]
  exact List.map_id names

theorem map_fst_giveMember (member? : String → Option Value) (t : Tree) :
    (giveMember member? t).map Prod.fst = t.boundNames := by
  unfold giveMember
  split
  · simp [boundNames, boundNamesIn]
  · simp [boundNames, boundNamesIn]
  · simp [boundNames]
  · exact map_fst_unknown _

theorem map_fst_give (g : Given) (t : Tree) : (g.give t).map Prod.fst = t.boundNames := by
  unfold Given.give
  split
  · simp [boundNames]
  · rename_i members
    rw [boundNames]
    induction members with
    | nil => rfl
    | cons t rest ih =>
      rw [List.flatMap_cons, List.map_append, map_fst_giveMember, ih, boundNamesIn]
  · exact map_fst_unknown _

theorem exists_effects?_assigned (env : Environment) (op : Option BinaryOp) (span : Span)
    (target value : Tree) :
    ∃ known, effects? w env (node (.assign op) span [target, value]) = some known := by
  unfold effects?
  split
  · exact ⟨_, rfl⟩
  · exact ⟨_, rfl⟩
  · exact ⟨_, rfl⟩
  · exact ⟨_, rfl⟩
  · exact ⟨_, rfl⟩
  · rename_i hassigned _
    exact (hassigned op span target value rfl).elim

theorem writes_subset_of_effects? {t : Tree} {known : List (String × Option Value)}
    (h : effects? w σ t = some known) : known.map Prod.fst ⊆ writes w t := by
  unfold effects? at h
  split at h
  · obtain rfl := Option.some.inj h
    rw [map_fst_unknown, writes]
    exact List.Subset.refl _
  · obtain rfl := Option.some.inj h
    rw [map_fst_give, writes]
    exact List.Subset.refl _
  · obtain rfl := Option.some.inj h
    rw [writes, boundNames]
    exact List.Subset.refl _
  · obtain rfl := Option.some.inj h
    rw [map_fst_unknown, writes]
    exact List.Subset.refl _
  · obtain rfl := Option.some.inj h
    rw [writes]
    exact List.Subset.refl _
  · split at h
    · obtain rfl := Option.some.inj h
      rw [map_fst_unknown]
      unfold writes
      split
      all_goals simp [boundNames]
    · cases h

theorem writes_subset_of_mem {parts : List Tree} {t : Tree} (ht : t ∈ parts) :
    writes w t ⊆ writesIn w parts := by
  induction parts with
  | nil => cases ht
  | cons part rest ih =>
    rw [writesIn]
    obtain rfl | hrest := List.mem_cons.1 ht
    · exact List.subset_append_left _ _
    · exact List.Subset.trans (ih hrest) (List.subset_append_right _ _)

theorem writesIn_subset {parts parts' : List Tree} (h : parts ⊆ parts') :
    writesIn w parts ⊆ writesIn w parts' := by
  induction parts with
  | nil => exact List.nil_subset _
  | cons part rest ih =>
    rw [writesIn, List.append_subset]
    exact ⟨writes_subset_of_mem (h List.mem_cons_self),
      ih fun t ht => h (List.mem_cons_of_mem _ ht)⟩

/-- What the parts write the whole writes, unless it has a scope. -/
theorem writesIn_subset_writes (kind : Kind) (span : Span) (parts : List Tree)
    (hkind : role kind = .list ∨ role kind = .branch ∨ role kind = .loop) :
    writesIn w parts ⊆ writes w (node kind span parts) := by
  have hnot (other : Kind) (hother : role other = .block ∨ role other = .writing) :
      kind ≠ other := by
    rintro rfl
    obtain hother | hother := hother <;> simp [hother] at hkind
  unfold writes
  split
  · rename_i heq
    exact absurd (node.inj heq).1 (hnot _ (.inl rfl))
  · rename_i heq
    exact absurd (node.inj heq).1 (hnot _ (.inr rfl))
  · rename_i heq
    exact absurd (node.inj heq).1 (hnot _ (.inr rfl))
  · rename_i heq
    exact absurd (node.inj heq).1 (hnot _ (.inr rfl))
  · rename_i heq
    obtain ⟨rfl, rfl, rfl⟩ := node.inj heq
    exact List.subset_append_right _ _

theorem inside_changes {span : Span} {names : List String}
    (h : Environment.Changes names (inside w span σ) σ') :
    Environment.Changes (outerNames w span names) σ (outside w span σ') := by
  rw [inside] at h
  rw [outerNames, outside]
  cases hscope : w.scopes.lookup .block span with
  | none =>
    rw [hscope] at h
    exact h
  | some scope =>
    rw [hscope] at h
    exact h.leave

/-- **A run writes to no more names than its tree tells.** -/
theorem changes_of_runs {task : Task} (h : Runs w task σ σ') :
    Environment.Changes (task.writes w) σ σ' := by
  induction h with
  | nil => exact .refl _ _
  | cons _ _ ih ihrest =>
    rw [Task.writes, writesIn]
    exact (ih.mono (List.subset_append_left _ _)).trans
      (ihrest.mono (List.subset_append_right _ _))
  | stop => exact .refl _ _
  | round ht _ _ ih ihrest => exact (ih.mono (writes_subset_of_mem ht)).trans ihrest
  | value => exact .refl _ _
  | write ht hstores =>
    exact (Environment.Changes.stores hstores).mono (writes_subset_of_effects? ht)
  | list hkind _ ih => exact ih.mono (writesIn_subset_writes _ _ _ (.inl hkind))
  | block _ ih =>
    rw [Task.writes, writes]
    exact inside_changes ih
  | yes _ _ _ ihtest ih =>
    refine Environment.Changes.mono ?_ (writesIn_subset_writes .if_ _ _ (.inr (.inl rfl)))
    exact (ihtest.mono (writes_subset_of_mem List.mem_cons_self)).trans
      (ih.mono (writes_subset_of_mem (List.mem_cons_of_mem _ List.mem_cons_self)))
  | no _ _ _ ihtest ih =>
    refine Environment.Changes.mono ?_ (writesIn_subset_writes .if_ _ _ (.inr (.inl rfl)))
    exact (ihtest.mono (writes_subset_of_mem List.mem_cons_self)).trans
      (ih.mono (writesIn_subset fun t ht => List.mem_cons_of_mem _ (List.mem_cons_of_mem _ ht)))
  | loop hkind _ _ ihhead ih =>
    refine Environment.Changes.mono ?_ (writesIn_subset_writes _ _ _ (.inr (.inr hkind)))
    exact (ihhead.mono (writesIn_subset (List.take_subset _ _))).trans
      (ih.mono (writesIn_subset (List.drop_subset _ _)))

end

end ModuleAssets.Flow
