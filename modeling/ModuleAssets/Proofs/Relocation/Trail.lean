import ModuleAssets.Build
import ModuleAssets.Proofs.Relocation.Steps
/-!
# The walk — the scopes it enters and leaves

A walk enters the scope that a node opens and leaves it again. `Trail.walk` is the walk
with a record of what it comes by: the scopes that it enters and leaves, and the places
of the nodes it walks. It does what the walk does, and its record is `Nested`: what is
entered is left, in turn.
-/

namespace ModuleAssets

open Syntax

namespace Trail

/-- What a walk comes by. -/
inductive Event where
  | enter (scope : Scope)
  | leave (scope : Scope)
  /-- The node at the place is walked. -/
  | visit (place : List Nat)
deriving DecidableEq

/-- A step of a walk that is recorded. -/
abbrev Traced (α : Type) := StateT (List Event) Walk α

/-! ## The recorded walk -/

/-- Adds to the record. -/
def log (e : Event) : Traced Unit :=
  modify (· ++ [e])

/-- A scope begins. -/
def enter (scope : Scope) : Traced Unit := do
  log (.enter scope)
  Walk.modifyEnv (·.enter scope)

/-- A scope ends. -/
def leave (scope : Scope) : Traced Unit := do
  log (.leave scope)
  Walk.modifyEnv (·.leave scope)

/-- Runs a step inside the scope that a node opens. -/
def withScope {α : Type} (w : WalkSetting) (kind : ScopeKind) (span : Span) (step : Traced α) :
    Traced α := do
  match w.scopes.lookup kind span with
  | some scope =>
    enter scope
    let answer ← step
    leave scope
    return answer
  | none => step

/-- A candidate that a walk gives grows no more. -/
def settle (w : WalkSetting) (step : Traced (Option Candidate)) : Traced Unit := do
  match ← step with
  | some c => Walk.relocate w c
  | none => pure ()

mutual

/-- Walks the node at a place, and gives the candidate that it is. -/
def walk (w : WalkSetting) (site : Site) (place : List Nat) (t : Tree) :
    Traced (Option Candidate) := do
  log (.visit place)
  match t with
  | .node (.identifier name) span _ => Walk.identifier w site name span
  | .node (.shorthand name) span _ => do
    Walk.shorthand w name span
    return none
  | .node .call span (callee :: arguments) => do
    match ← Walk.call w (.node .call span (callee :: arguments)) callee arguments with
    | .done => return none
    | .leaf c => return some c
    | .visitArguments =>
      visitAll w place 1 arguments
      return none
    | .visitLast =>
      visitLast w place 1 arguments
      return none
    | .descend =>
      let candidate ← walk w .callee (place ++ [0]) callee
      descend w place (.node .call span (callee :: arguments)) false candidate 1 arguments
  | .node (.member name) span [object] => do
    if ← Walk.isLoaderMember w "ensure" (.node (.member name) span [object]) then return none
    else descend w place (.node (.member name) span [object]) false none 0 [object]
  | .node (.binary op) span [left, right] => do
    match Walk.entryCheck? w (← Walk.env) op left right with
    | some mainIsLeft =>
      Walk.entryCheck w span (if mainIsLeft then right else left)
      if w.isEntry then
        if mainIsLeft then visitParts w (place ++ [0]) left
        else visitParts w (place ++ [1]) right
      return none
    | none => descend w place (.node (.binary op) span [left, right]) false none 0 [left, right]
  | .node .conditional span [test, first, second] => do
    if ← Walk.conditionalLoad w span test first second then return none
    else
      descend w place (.node .conditional span [test, first, second]) false none 0
        [test, first, second]
  | .node (.assign op) span [target, value] => do
    match target.kind, op with
    | .binding name, none =>
      if name = Environment.loaderName then
        if ← Walk.isGrammarBridge w value then
          Walk.overwrite span ""
          return none
      match ← Walk.requiredModule? w value with
      | some m => Walk.assign name m.defaultExport
      | none =>
        let known ← Walk.known? w value
        settle w (walk w .value (place ++ [1]) value)
        Walk.assign name known
    | .binding name, some _ =>
      Walk.modifyEnv (·.invalidate name)
      settle w (walk w .value (place ++ [1]) value)
    | _, _ =>
      Walk.invalidateAll (Walk.assignedNames target)
      visitParts w (place ++ [0]) target
      settle w (walk w .value (place ++ [1]) value)
    return none
  | .node .update _ [operand] => do
    match operand.kind with
    | .identifier name => Walk.modifyEnv (·.invalidate name)
    | _ => visitParts w (place ++ [0]) operand
    return none
  | .node (.unary op) span [operand] => do
    let candidate ← walk w .operand (place ++ [0]) operand
    descend w place (.node (.unary op) span [operand]) false candidate 1 []
  | .node (.hiddenMember name) span parts =>
    descend w place (.node (.hiddenMember name) span parts) false none 0 parts
  | .node .computedMember span parts =>
    descend w place (.node .computedMember span parts) false none 0 parts
  | .node .paren span parts => descend w place (.node .paren span parts) false none 0 parts
  | .node (.template pieces) span parts =>
    descend w place (.node (.template pieces) span parts) false none 0 parts
  | .node (.function _) span parts => do
    withScope w .function span (visitAll w place 0 parts)
    return none
  | .node (.functionDeclaration _) span parts => do
    withScope w .function span (visitAll w place 0 parts)
    return none
  | .node .arrow span parts => do
    withScope w .function span (visitAll w place 0 parts)
    return none
  | .node .block span parts => do
    withScope w .block span (visitAll w place 0 parts)
    return none
  | .node .catch_ span parts => do
    withScope w .catch_ span (visitAll w place 0 parts)
    return none
  | .node .declaration _ [pattern, value] => do
    match ← Walk.requiredModule? w value with
    | some m => Walk.assignModule m pattern
    | none =>
      match pattern.kind with
      | .binding name =>
        let known ← Walk.known? w value
        settle w (walk w .value (place ++ [1]) value)
        Walk.assign name known
      | .objectPattern =>
        let object ← Walk.known? w value
        settle w (walk w .value (place ++ [1]) value)
        match object with
        | some (.object members) =>
          Walk.assignMembers (Value.object members).member? pattern.parts
        | _ => Walk.invalidateAll pattern.boundNames
        visitParts w (place ++ [0]) pattern
      | _ =>
        Walk.invalidateAll pattern.boundNames
        visitParts w (place ++ [0]) pattern
        settle w (walk w .value (place ++ [1]) value)
    return none
  | .node _ _ parts => do
    visitAll w place 0 parts
    return none

/-- Goes on with an expression, given the candidate that the part before `i` is. -/
def descend (w : WalkSetting) (place : List Nat) (whole : Tree) (tried : Bool)
    (candidate : Option Candidate) (i : Nat) : List Tree → Traced (Option Candidate)
  | [] => Walk.grow w whole tried candidate
  | part :: rest => do
    match ← Walk.grow w whole tried candidate with
    | some c => return some c
    | none =>
      let next ← walk w .value (place ++ [i]) part
      descend w place whole (tried || candidate.isSome) next (i + 1) rest

/-- Visits parts one after another, the first of them being the part `i`. -/
def visitAll (w : WalkSetting) (place : List Nat) (i : Nat) : List Tree → Traced Unit
  | [] => pure ()
  | t :: rest => do
    settle w (walk w .value (place ++ [i]) t)
    visitAll w place (i + 1) rest

/-- Visits the last of some parts. -/
def visitLast (w : WalkSetting) (place : List Nat) (i : Nat) : List Tree → Traced Unit
  | [] => pure ()
  | [t] => settle w (walk w .value (place ++ [i]) t)
  | _ :: t :: rest => visitLast w place (i + 1) (t :: rest)

/-- Visits what a node is made of. -/
def visitParts (w : WalkSetting) (place : List Nat) : Tree → Traced Unit
  | .node _ _ parts => visitAll w place 0 parts

end

/-! ## Records -/

/-- In a record that starts within the scopes `around`, the innermost first, all scopes
that are entered are left, in turn, and what is said of the places and the scopes
around them holds. -/
inductive Nested (ok : List Nat → List Scope → Prop) : List Scope → List Event → Prop
  | nil {around : List Scope} : Nested ok around []
  | visit {around : List Scope} {place : List Nat} {rest : List Event}
      (hplace : ok place around) (hrest : Nested ok around rest) :
      Nested ok around (.visit place :: rest)
  | scope {around : List Scope} {scope : Scope} {inner rest : List Event}
      (hinner : Nested ok (scope :: around) inner) (hrest : Nested ok around rest) :
      Nested ok around (.enter scope :: inner ++ .leave scope :: rest)

section

variable {ok : List Nat → List Scope → Prop} {around : List Scope} {record record' : List Event}

theorem Nested.append (h : Nested ok around record) (h' : Nested ok around record') :
    Nested ok around (record ++ record') := by
  induction h with
  | nil => exact h'
  | visit hplace _ ih => exact .visit hplace (ih h')
  | scope hinner _ _ ih =>
    rw [List.append_assoc, List.cons_append]
    exact .scope hinner (ih h')

end

/-! ## Recorded steps -/

/-- The recorded step does what the step does, and what it adds to the record is
nested. -/
def Follows (ok : List Nat → List Scope → Prop) (around : List Scope) {α : Type}
    (traced : Traced α) (step : Walk α) : Prop :=
  ∀ record s, ∃ more, Nested ok around more ∧
    (traced.run record).run s = (((step.run s).1, record ++ more), (step.run s).2)

section

variable {ok : List Nat → List Scope → Prop} {around : List Scope} {α β : Type}
  {traced : Traced α} {step : Walk α} {w : WalkSetting}

/-- A step that walks no node. -/
theorem follows_step (step : Walk α) : Follows ok around (liftM step : Traced α) step :=
  fun record s => ⟨[], .nil, by rw [List.append_nil]; rfl⟩

theorem follows_pure (a : α) : Follows ok around (pure a : Traced α) (pure a) :=
  fun record s => ⟨[], .nil, by rw [List.append_nil]; rfl⟩

theorem follows_bind {traced' : α → Traced β} {step' : α → Walk β}
    (h : Follows ok around traced step) (h' : ∀ a, Follows ok around (traced' a) (step' a)) :
    Follows ok around (traced >>= traced') (step >>= step') := by
  intro record s
  obtain ⟨more, hmore, heq⟩ := h record s
  obtain ⟨more', hmore', heq'⟩ := h' (step.run s).1 (record ++ more) (step.run s).2
  refine ⟨more ++ more', hmore.append hmore', ?_⟩
  have hrun : ((traced >>= traced').run record).run s =
      (((traced' ((traced.run record).run s).1.1).run ((traced.run record).run s).1.2).run
        ((traced.run record).run s).2) := rfl
  rw [hrun, heq, ← List.append_assoc]
  exact heq'

/-- A node is walked. -/
theorem follows_visit {place : List Nat} (hplace : ok place around)
    (h : Follows ok around traced step) :
    Follows ok around (log (.visit place) >>= fun _ => traced) step := by
  intro record s
  obtain ⟨more, hmore, heq⟩ := h (record ++ [.visit place]) s
  rw [List.append_assoc] at heq
  exact ⟨_, .visit hplace hmore, heq⟩

theorem follows_withScope {kind : ScopeKind} {span : Span} {scope : Scope}
    (hscope : w.scopes.lookup kind span = some scope)
    (h : Follows ok (scope :: around) traced step) :
    Follows ok around (withScope w kind span traced) (Walk.withScope w kind span step) := by
  intro record s
  obtain ⟨more, hmore, heq⟩ := h (record ++ [.enter scope]) { s with env := s.env.enter scope }
  refine ⟨_, .scope hmore .nil, ?_⟩
  have hrun : ((withScope w kind span traced).run record).run s =
      ((((traced.run (record ++ [.enter scope])).run { s with env := s.env.enter scope }).1.1,
        ((traced.run (record ++ [.enter scope])).run { s with env := s.env.enter scope }).1.2 ++
          [.leave scope]),
        { ((traced.run (record ++ [.enter scope])).run { s with env := s.env.enter scope }).2 with
          env := ((traced.run (record ++ [.enter scope])).run
            { s with env := s.env.enter scope }).2.env.leave scope }) := by
    rw [withScope, hscope]
    rfl
  have hstep : (Walk.withScope w kind span step).run s =
      ((step.run { s with env := s.env.enter scope }).1,
        { (step.run { s with env := s.env.enter scope }).2 with
          env := (step.run { s with env := s.env.enter scope }).2.env.leave scope }) := by
    rw [Walk.withScope, hscope]
    rfl
  rw [hrun, hstep, heq]
  simp only [List.append_assoc, List.cons_append, List.nil_append]

theorem follows_settle {traced : Traced (Option Candidate)} {step : Walk (Option Candidate)}
    (h : Follows ok around traced step) :
    Follows ok around (settle w traced) (Walk.settle w step) := by
  refine follows_bind h fun candidate => ?_
  cases candidate with
  | none => exact follows_pure ()
  | some c => exact follows_step (Walk.relocate w c)

end

/-! ## Whole walks -/

/-- What is to be shown of the node at a place within some scopes. It is not opened up where
it opens a scope. -/
structure Followed (ok : List Nat → List Scope → Prop) (w : WalkSetting) (around : List Scope)
    (place : List Nat) (t : Tree) : Prop where
  walk : ∀ site, Follows ok around (walk w site place t) (Walk.walk w site t)
  visitParts : ScopeTree.opens t.kind = false →
    Follows ok around (visitParts w place t) (Walk.visitParts w t)

section

variable {ok : List Nat → List Scope → Prop} {around : List Scope} {w : WalkSetting}
  {place : List Nat}

theorem follows_visitAll {parts : List Tree} {i : Nat}
    (hparts : ∀ j part, parts[j]? = some part → Followed ok w around (place ++ [i + j]) part) :
    Follows ok around (visitAll w place i parts) (Walk.visitAll w parts) := by
  induction parts generalizing i with
  | nil => exact follows_pure ()
  | cons t rest ih =>
    rw [visitAll, Walk.visitAll]
    refine follows_bind (follows_settle ((hparts 0 t rfl).walk .value)) fun _ => ih fun j part h => ?_
    have hpart := hparts (j + 1) part h
    rwa [Nat.add_left_comm, Nat.add_comm] at hpart

theorem follows_visitLast {parts : List Tree} {i : Nat}
    (hparts : ∀ j part, parts[j]? = some part → Followed ok w around (place ++ [i + j]) part) :
    Follows ok around (visitLast w place i parts) (Walk.visitLast w parts) := by
  induction parts generalizing i with
  | nil => exact follows_pure ()
  | cons t rest ih =>
    cases rest with
    | nil =>
      rw [visitLast, Walk.visitLast]
      exact follows_settle ((hparts 0 t rfl).walk .value)
    | cons next rest =>
      rw [visitLast, Walk.visitLast]
      refine ih fun j part h => ?_
      have hpart := hparts (j + 1) part h
      rwa [Nat.add_left_comm, Nat.add_comm] at hpart

theorem follows_descend {whole : Tree} {tried : Bool} {candidate : Option Candidate}
    {parts : List Tree} {i : Nat}
    (hparts : ∀ j part, parts[j]? = some part → Followed ok w around (place ++ [i + j]) part) :
    Follows ok around (descend w place whole tried candidate i parts)
      (Walk.descend w whole tried candidate parts) := by
  induction parts generalizing i tried candidate with
  | nil =>
    rw [descend, Walk.descend]
    exact follows_step _
  | cons part rest ih =>
    rw [descend, Walk.descend]
    refine follows_bind (follows_step _) fun grown => ?_
    cases grown with
    | some c => exact follows_pure _
    | none =>
      refine follows_bind ((hparts 0 part rfl).walk .value) fun next => ih fun j part h => ?_
      have hpart := hparts (j + 1) part h
      rwa [Nat.add_left_comm, Nat.add_comm] at hpart

theorem follows_none {traced : Traced Unit} {step : Walk Unit} (h : Follows ok around traced step) :
    Follows ok around (traced >>= fun _ => pure (none : Option Candidate))
      (step >>= fun _ => pure none) :=
  follows_bind h fun _ => follows_pure none

/-- The parts of a node from the first on. -/
theorem followed_from_zero {parts : List Tree}
    (hparts : ∀ i part, parts[i]? = some part → Followed ok w around (place ++ [i]) part) :
    ∀ j part, parts[j]? = some part → Followed ok w around (place ++ [0 + j]) part :=
  fun j part h => (Nat.zero_add j).symm ▸ hparts j part h

/-- A call whose callee and arguments are followed. -/
theorem follows_call (hplace : ok place around) (span : Span) {callee : Tree}
    {arguments : List Tree}
    (hparts : ∀ i part, (callee :: arguments)[i]? = some part →
      Followed ok w around (place ++ [i]) part) (site : Site) :
    Follows ok around (walk w site place (.node .call span (callee :: arguments)))
      (Walk.walk w site (.node .call span (callee :: arguments))) := by
  have hcallee := hparts 0 callee rfl
  have harguments : ∀ j part, arguments[j]? = some part →
      Followed ok w around (place ++ [1 + j]) part := fun j part h =>
    Nat.add_comm j 1 ▸ hparts (j + 1) part h
  rw [walk, Walk.walk]
  refine follows_visit hplace (follows_bind (follows_step _) fun step => ?_)
  cases step with
  | done => exact follows_pure none
  | leaf c => exact follows_pure (some c)
  | visitArguments => exact follows_none (follows_visitAll harguments)
  | visitLast => exact follows_none (follows_visitLast harguments)
  | descend => exact follows_bind (hcallee.walk .callee) fun _ => follows_descend harguments

/-- A binary operation, which may ask for the main module. -/
theorem follows_binary (hplace : ok place around) (op : BinaryOp) (span : Span)
    {left right : Tree}
    (hparts : ∀ i part, [left, right][i]? = some part → Followed ok w around (place ++ [i]) part)
    (site : Site) :
    Follows ok around (walk w site place (.node (.binary op) span [left, right]))
      (Walk.walk w site (.node (.binary op) span [left, right])) := by
  rw [walk, Walk.walk]
  refine follows_visit hplace (follows_bind (follows_step _) fun env => ?_)
  generalize hentry : Walk.entryCheck? w env op left right = entry
  cases entry with
  | some mainIsLeft =>
    refine follows_bind (follows_step _) fun _ => ?_
    have hside := Walk.not_opens_of_entryCheck? hentry
    dsimp only
    -- only the parts of the main module's side are walked
    split
    · cases mainIsLeft with
      | true => exact follows_none ((hparts 0 left rfl).visitParts hside)
      | false => exact follows_none ((hparts 1 right rfl).visitParts hside)
    · exact follows_pure none
  | none => exact follows_descend (followed_from_zero hparts)

/-- An assignment. -/
theorem follows_assign (hplace : ok place around) (op : Option BinaryOp) (span : Span)
    {target value : Tree}
    (htarget : Follows ok around (visitParts w (place ++ [0]) target) (Walk.visitParts w target))
    (hvalue : Followed ok w around (place ++ [1]) value) (site : Site) :
    Follows ok around (walk w site place (.node (.assign op) span [target, value]))
      (Walk.walk w site (.node (.assign op) span [target, value])) := by
  have hsettled : Follows ok around (settle w (walk w .value (place ++ [1]) value))
      (Walk.settle w (Walk.walk w .value value)) :=
    follows_settle (hvalue.walk .value)
  have hknown (name : String) : Follows ok around
      (do
        match ← Walk.requiredModule? w value with
        | some m => Walk.assign name m.defaultExport
        | none =>
          let known ← Walk.known? w value
          settle w (walk w .value (place ++ [1]) value)
          Walk.assign name known
        return none)
      (do
        match ← Walk.requiredModule? w value with
        | some m => Walk.assign name m.defaultExport
        | none =>
          let known ← Walk.known? w value
          Walk.settle w (Walk.walk w .value value)
          Walk.assign name known
        return (none : Option Candidate)) := by
    refine follows_bind (follows_step _) fun m => ?_
    cases m with
    | some m => exact follows_none (follows_step _)
    | none =>
      exact follows_bind (follows_step _) fun _ => follows_bind hsettled fun _ =>
        follows_none (follows_step _)
  unfold walk Walk.walk
  refine follows_visit hplace ?_
  dsimp only
  generalize target.kind = kind
  cases kind
  case binding name =>
    cases op with
    | none =>
      dsimp only
      -- a loader may be bridged first; the rest is the same
      split
      · refine follows_bind (follows_step _) fun isBridge => ?_
        split
        · exact follows_none (follows_step _)
        · exact hknown name
      · exact hknown name
    | some op => exact follows_bind (follows_step _) fun _ => follows_none hsettled
  all_goals
    exact follows_bind (follows_step _) fun _ => follows_bind htarget fun _ => follows_none hsettled

/-- A declaration with a value. -/
theorem follows_declaration (hplace : ok place around) (span : Span) {pattern value : Tree}
    (hpattern : Follows ok around (visitParts w (place ++ [0]) pattern) (Walk.visitParts w pattern))
    (hvalue : Followed ok w around (place ++ [1]) value) (site : Site) :
    Follows ok around (walk w site place (.node .declaration span [pattern, value]))
      (Walk.walk w site (.node .declaration span [pattern, value])) := by
  have hsettled : Follows ok around (settle w (walk w .value (place ++ [1]) value))
      (Walk.settle w (Walk.walk w .value value)) :=
    follows_settle (hvalue.walk .value)
  rw [walk, Walk.walk]
  refine follows_visit hplace (follows_bind (follows_step _) fun m => ?_)
  cases m with
  | some m => exact follows_none (follows_step _)
  | none =>
    generalize pattern.kind = kind
    cases kind
    case binding name =>
      exact follows_bind (follows_step _) fun _ => follows_bind hsettled fun _ =>
        follows_none (follows_step _)
    case objectPattern =>
      refine follows_bind (follows_step _) fun object => follows_bind hsettled fun _ => ?_
      have hpattern (step : Walk Unit) :=
        follows_bind (follows_step step) fun _ => follows_none hpattern
      cases object with
      | none => exact hpattern _
      | some v =>
        cases v
        all_goals exact hpattern _
    all_goals
      exact follows_bind (follows_step _) fun _ => follows_bind hpattern fun _ => follows_none hsettled

/-- A node whose parts are followed is followed, where a scope that it opens is found
and the parts are followed within it. -/
theorem follows_walk {t : Tree} (htidy : t.Tidy) (hplace : ok place around)
    (hparts : ScopeTree.opens t.kind = false →
      ∀ i part, t.parts[i]? = some part → Followed ok w around (place ++ [i]) part)
    (hinner : ScopeTree.opens t.kind = true →
      ∃ scope, w.scopes.lookup (Tree.scopeKind t.kind) t.span = some scope ∧
        ∀ i part, t.parts[i]? = some part → Followed ok w (scope :: around) (place ++ [i]) part)
    (site : Site) : Follows ok around (walk w site place t) (Walk.walk w site t) := by
  have hall (hopens : ScopeTree.opens t.kind = false) : ∀ j part, t.parts[j]? = some part →
      Followed ok w around (place ++ [0 + j]) part :=
    followed_from_zero (hparts hopens)
  have hopened (hopens : ScopeTree.opens t.kind = true) :
      Follows ok around
        (log (.visit place) >>= fun _ =>
          withScope w (Tree.scopeKind t.kind) t.span (visitAll w place 0 t.parts) >>= fun _ =>
            pure (none : Option Candidate))
        (Walk.withScope w (Tree.scopeKind t.kind) t.span (Walk.visitAll w t.parts) >>= fun _ =>
          pure none) := by
    obtain ⟨scope, hscope, hin⟩ := hinner hopens
    exact follows_visit hplace (follows_none (follows_withScope hscope
      (follows_visitAll (followed_from_zero hin))))
  -- the parts that are assigned to are looked through, and open no scope
  have hwritten (hwrites : Tree.writes t.kind = true) {target : Tree}
      (htarget : target ∈ t.parts.head?) : ScopeTree.opens target.kind = false :=
    ScopeTree.not_opens_of_not_ownsSpan (htidy.2 hwrites target htarget)
  unfold walk
  split
  · rw [Walk.walk]
    exact follows_visit hplace (follows_step _)
  · rw [Walk.walk]
    exact follows_visit hplace (follows_none (follows_step _))
  · rename_i span callee arguments
    have hcall := follows_call hplace span (hparts rfl) site
    rwa [walk] at hcall
  · rw [Walk.walk]
    refine follows_visit hplace (follows_bind (follows_step _) fun isMember => ?_)
    cases isMember with
    | true => exact follows_pure none
    | false => exact follows_descend (hall rfl)
  · rename_i op span left right
    have hbinary := follows_binary hplace op span (hparts rfl) site
    rwa [walk] at hbinary
  · rw [Walk.walk]
    refine follows_visit hplace (follows_bind (follows_step _) fun isLoad => ?_)
    cases isLoad with
    | true => exact follows_pure none
    | false => exact follows_descend (hall rfl)
  · rename_i op span target value
    have hassign := follows_assign hplace op span
      ((hparts rfl 0 target rfl).visitParts (hwritten rfl rfl)) (hparts rfl 1 value rfl) site
    unfold walk at hassign
    exact hassign
  · rename_i span operand
    have hoperand := (hparts rfl 0 operand rfl).visitParts (hwritten rfl rfl)
    refine follows_visit hplace ?_
    unfold Walk.walk
    generalize operand.kind = kind
    cases kind
    case identifier name => exact follows_none (follows_step _)
    all_goals exact follows_none hoperand
  · rw [Walk.walk]
    exact follows_visit hplace (follows_bind ((hparts rfl 0 _ rfl).walk .operand) fun _ =>
      follows_descend fun _ _ h => by cases h)
  · rw [Walk.walk]
    exact follows_visit hplace (follows_descend (hall rfl))
  · rw [Walk.walk]
    exact follows_visit hplace (follows_descend (hall rfl))
  · rw [Walk.walk]
    exact follows_visit hplace (follows_descend (hall rfl))
  · rw [Walk.walk]
    exact follows_visit hplace (follows_descend (hall rfl))
  · rw [Walk.walk]
    exact hopened rfl
  · rw [Walk.walk]
    exact hopened rfl
  · rw [Walk.walk]
    exact hopened rfl
  · rw [Walk.walk]
    exact hopened rfl
  · rw [Walk.walk]
    exact hopened rfl
  · rename_i span pattern value
    have hdeclaration := follows_declaration hplace span
      ((hparts rfl 0 pattern rfl).visitParts (hwritten rfl rfl)) (hparts rfl 1 value rfl) site
    rwa [walk] at hdeclaration
  · rename_i kind span parts _ _ _ _ _ _ _ _ _ _ _ _ _ hfunction hdeclaration harrow hblock hcatch _
    have hopens : ScopeTree.opens kind = false := by
      unfold ScopeTree.opens
      split
      · exact (hdeclaration _ rfl).elim
      · exact (hfunction _ rfl).elim
      · exact (harrow rfl).elim
      · exact (hblock rfl).elim
      · exact (hcatch rfl).elim
      · rfl
    rw [Walk.walk]
    · exact follows_visit hplace (follows_none (follows_visitAll (hall hopens)))
    all_goals assumption

end

end Trail

end ModuleAssets
