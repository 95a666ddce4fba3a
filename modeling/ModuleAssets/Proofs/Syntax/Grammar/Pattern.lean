import ModuleAssets.Proofs.Syntax.Grammar.Reading
import ModuleAssets.Syntax.Grammar.Pattern
/-!
# Parsing — patterns keep the owners of their expressions

An expression that is turned into a pattern is taken apart no further than its
defaults and computed keys, in which all owners stand. So no owner is new in the
pattern. A pattern that is read directly is like other trees.
-/

namespace ModuleAssets.Syntax.Parse

open ModuleAssets.Syntax.Tree

/-! ## Expressions as patterns -/

/-- The trees `g a` have no owners but those of the trees `us`. -/
def Keeps {α : Type} (us : List Tree) (g : α → List Tree) (p : Parse α) : Prop :=
  ∀ s, Goes s p fun a _ => DrawsFrom (g a) us

section

variable {α β : Type} {p : Parse α} {f : α → Parse β} {us vs rest : List Tree}
  {g : α → List Tree} {g' : β → List Tree}

theorem keeps_pure {a : α} (h : DrawsFrom (g a) us) : Keeps us g (pure a) :=
  fun _ => goes_pure fun _ => h

theorem keeps_bind (hp : Keeps vs g p)
    (hf : ∀ a, DrawsFrom (g a) vs → Keeps us g' (f a)) : Keeps us g' (p >>= f) :=
  fun s => goes_bind (hp s) fun a s' _ ha => hf a ha s'

theorem keeps_move (hp : Moves p) (hf : ∀ a, Keeps us g' (f a)) : Keeps us g' (p >>= f) :=
  fun _ => hp.goes fun a s' _ => hf a s'

theorem keeps_ite {c : Prop} [Decidable c] {q : Parse α} (hp : Keeps us g p) (hq : Keeps us g q) :
    Keeps us g (if c then p else q) := by
  split
  · exact hp
  · exact hq

theorem keeps_when {c : Prop} [Decidable c] (hp : Moves p) (hf : ∀ a, Keeps us g' (f a)) (a : α) :
    Keeps us g' (if c then p >>= f else f a) := by
  split
  · exact keeps_move hp hf
  · exact hf a

theorem keeps_unless {c : Prop} [Decidable c] (hp : Moves p) (hf : ∀ a, Keeps us g' (f a)) (a : α) :
    Keeps us g' (if c then f a else p >>= f) := by
  split
  · exact hf a
  · exact keeps_move hp hf

theorem Fails.keeps (h : Fails p) : Keeps us g p :=
  fun _ => h.goes

theorem Keeps.moves (h : Keeps us g p) : Moves p :=
  fun s => (h s).mono fun _ _ _ _ => trivial

/-- What only has owners that were read before is read. -/
theorem Keeps.reads (h : Keeps us g p) : Reads us g p :=
  fun _ s hus => (h s).mono fun _ _ hpast ha => (hus.past hpast).of_draws ha

theorem Keeps.of_draws (h : Keeps us g p) (hdraws : DrawsFrom us vs) : Keeps vs g p :=
  fun s => (h s).mono fun _ _ _ ha => ha.trans hdraws

end

mutual

theorem keeps_toPattern (names : Bool) (t : Tree) :
    Keeps [t] (fun t => [t]) (toPattern names t) := by
  unfold toPattern
  split
  · have hname (n : String) (s : Span) (parts : List Tree) :
        Keeps [.node (.identifier n) s parts] (fun t => [t])
          (pure (.node (.binding n) s []) : Parse Tree) :=
      keeps_pure (.plain rfl (.of_nil rfl _))
    split
    · exact hname _ _ _
    · exact keeps_move (by simp) fun _ => hname _ _ _
  · rename_i s items
    refine keeps_bind (keeps_itemsToPatterns names s.start items) fun items' hitems => ?_
    exact keeps_pure (.plain rfl hitems)
  · rename_i s members
    refine keeps_bind (keeps_membersToPatterns names s.start members) fun members' hmembers => ?_
    exact keeps_pure (.plain rfl hmembers)
  · refine keeps_when (by simp) (fun _ => ?_) ()
    exact keeps_pure (.plain rfl (.refl _))
  · exact keeps_pure (.refl _)
  · exact keeps_move (by simp) fun _ => keeps_when (by simp) (fun _ => keeps_pure (.refl _)) ()
termination_by sizeOf t

theorem keeps_itemsToPatterns (names : Bool) (array : Nat) (items : List Tree) :
    Keeps items id (itemsToPatterns names array items) := by
  unfold itemsToPatterns
  split
  · exact keeps_pure (.refl _)
  · rename_i s inner
    have hinner : Keeps [.node .spread s [inner]] id (do
        complainOfTrailing array
        let inner ← toPattern names inner
        return [.node .restPattern s [inner]]) :=
      keeps_move (by simp) fun _ => keeps_bind (keeps_toPattern names inner) fun _ h =>
        keeps_pure (.plain rfl h)
    exact keeps_when (by simp) (fun _ => hinner) ()
  · rename_i s inner rest _
    refine keeps_move (by simp) fun _ => ?_
    refine keeps_bind (keeps_itemsToPatterns names array rest) fun rest' hrest => keeps_pure ?_
    exact .cons (.plain rfl (.refl _)) hrest
  · rename_i t rest _ _
    refine keeps_bind (keeps_toPattern names t) fun t' ht => ?_
    refine keeps_bind (keeps_itemsToPatterns names array rest) fun rest' hrest => keeps_pure ?_
    exact .cons ht hrest
termination_by sizeOf items

theorem keeps_membersToPatterns (names : Bool) (object : Nat) (members : List Tree) :
    Keeps members id (membersToPatterns names object members) := by
  unfold membersToPatterns
  split
  · exact keeps_pure (.refl _)
  · rename_i key s parts rest
    refine keeps_bind (keeps_lastToPattern names parts) fun parts' hparts => ?_
    refine keeps_bind (keeps_membersToPatterns names object rest) fun rest' hrest => keeps_pure ?_
    exact .cons (.plain rfl hparts) hrest
  · rename_i n s parts rest
    refine keeps_bind (keeps_membersToPatterns names object rest) fun rest' hrest => keeps_pure ?_
    exact .cons (.plain rfl (.of_nil rfl _)) hrest
  · rename_i n s parts rest
    refine keeps_bind (keeps_membersToPatterns names object rest) fun rest' hrest => keeps_pure ?_
    exact .cons (.plain rfl (.refl _)) hrest
  · rename_i s inner rest
    have hrest (inner' : Tree) (hinner : DrawsFrom [inner'] [inner]) :
        Keeps (.node .spread s [inner] :: rest) id (do
          let rest ← membersToPatterns names object rest
          return .node .restPattern s [inner'] :: rest) :=
      keeps_bind (keeps_membersToPatterns names object rest) fun rest' hrest =>
        keeps_pure (.cons (.plain rfl hinner) hrest)
    have hboth : Keeps (.node .spread s [inner] :: rest) id (do
        complainOfTrailing object
        if names && !(inner.kind matches .identifier _) then
          complain s.start
          let rest ← membersToPatterns names object rest
          return .node .restPattern s [inner] :: rest
        else
          let inner ← toPattern names inner
          if inner.kind == .defaultPattern then complain s.start
          let rest ← membersToPatterns names object rest
          return .node .restPattern s [inner] :: rest) := by
      refine keeps_move (by simp) fun _ => keeps_ite ?_ ?_
      · exact keeps_move (by simp) fun _ => hrest inner (.refl _)
      · refine keeps_bind (keeps_toPattern names inner) fun inner' hinner => ?_
        exact keeps_when (by simp) (fun _ => hrest inner' hinner) ()
    exact keeps_unless (by simp) (fun _ => hboth) ()
  · exact (fails_blame _).keeps
termination_by sizeOf members

theorem keeps_lastToPattern (names : Bool) (parts : List Tree) :
    Keeps parts id (lastToPattern names parts) := by
  unfold lastToPattern
  split
  · exact keeps_pure (.refl _)
  · rename_i t
    exact keeps_bind (keeps_toPattern names t) fun t' ht => keeps_pure ht
  · rename_i t rest _
    refine keeps_bind (keeps_lastToPattern names rest) fun rest' hrest => keeps_pure ?_
    exact .cons (.refl _) hrest
termination_by sizeOf parts

end

/-! ## Targets and parameters -/

section

variable {self : Rules}

theorem keeps_toLoopTarget (t : Tree) : Keeps [t] (fun t => [t]) (toLoopTarget t) := by
  unfold toLoopTarget
  split
  · exact keeps_toPattern _ _
  · exact keeps_toPattern _ _
  · exact keeps_toPattern _ _
  · refine keeps_move (by simp) fun _ => keeps_unless (by simp) (fun _ => ?_) ()
    exact keeps_pure (.refl _)

theorem keeps_toSimpleTarget (t : Tree) : Keeps [t] (fun t => [t]) (toSimpleTarget t) := by
  refine keeps_move (by simp) fun _ => keeps_unless (by simp) (fun _ => ?_) ()
  refine keeps_unless (by simp) (fun _ => ?_) ()
  split
  · exact keeps_pure (.plain rfl (.of_nil rfl _))
  · exact keeps_pure (.refl _)

theorem keeps_toTarget (t : Tree) : Keeps [t] (fun t => [t]) (toTarget t) :=
  keeps_ite (keeps_toPattern _ _) (keeps_toSimpleTarget _)

@[simp]
theorem moves_checkUpdated (t : Tree) : Moves (checkUpdated t) :=
  moves_bind (by simp) fun _ => by simp

/-! ## What is written to -/

/-- The tree may be written to, unless there was a complaint: it is no node with a span
for itself. -/
def Writable (t : Tree) (s : State) : Prop :=
  s.Quiet → ownsSpan t.kind = false

theorem Writable.past {t : Tree} {s s' : State} (h : Writable t s) (hpast : s.Past s') :
    Writable t s' :=
  fun hquiet => h (hpast.quiet hquiet)

theorem ownsSpan_of_isSimpleTarget {strict : Bool} {t : Tree} (h : t.isSimpleTarget strict = true) :
    ownsSpan t.kind = false := by
  unfold isSimpleTarget at h
  split at h
  · rfl
  · rfl
  · rfl
  · rfl
  · rfl
  · exact absurd h Bool.false_ne_true

/-- What is no single place is complained of. -/
theorem goes_checkSimple {β : Type} {s : State} {strict : Bool} {t : Tree} {f : PUnit → Parse β}
    {Q : β → State → Prop} (hf : ∀ s', s.Past s' → Writable t s' → Goes s' (f ()) Q) :
    Goes s (if t.isSimpleTarget strict = true then f () else complain t.span.start >>= f) Q := by
  split
  · rename_i hsimple
    exact goes_ordered fun hs => hf s (.refl hs) fun _ => ownsSpan_of_isSimpleTarget hsimple
  · exact goes_bind (goes_complain _) fun _ s' hs' hloud => hf s' hs' fun hquiet =>
      absurd hquiet hloud

theorem goes_checkUpdated {s : State} (t : Tree) :
    Goes s (checkUpdated t) fun _ s' => Writable t s' := by
  refine goes_ask (by simp) fun c => ?_
  split
  · rename_i hsimple
    exact goes_pure fun _ _ => ownsSpan_of_isSimpleTarget hsimple
  · exact (goes_complain _).mono fun _ _ _ hloud hquiet => absurd hquiet hloud

theorem goes_toSimpleTarget {s : State} (t : Tree) :
    Goes s (toSimpleTarget t) fun t' s' => Writable t' s' := by
  refine goes_ask (by simp) fun c => goes_checkSimple fun s' _ ht => ?_
  extract_lets rest
  have hrest : Goes s' (rest ()) fun t' s' => Writable t' s' := by
    unfold rest
    split
    · exact goes_pure fun _ _ => rfl
    · exact goes_pure fun _ => ht
  split
  · exact hrest
  · exact (fails_blame _).bind.goes

/-- A literal that is assigned to becomes a pattern. -/
theorem goes_toTarget {s : State} (t : Tree) :
    Goes s (toTarget t) fun t' s' => Writable t' s' := by
  unfold toTarget
  split
  · rename_i hliteral
    obtain ⟨kind, span, parts⟩ := t
    rw [Bool.or_eq_true, beq_iff_eq, beq_iff_eq] at hliteral
    obtain hkind | hkind := hliteral
    · obtain rfl : kind = .array := hkind
      unfold toPattern
      exact (keeps_itemsToPatterns false _ parts).moves.goes fun _ _ _ => goes_pure fun _ _ => rfl
    · obtain rfl : kind = .object := hkind
      unfold toPattern
      exact (keeps_membersToPatterns false _ parts).moves.goes fun _ _ _ => goes_pure fun _ _ => rfl
  · exact goes_toSimpleTarget t

/-! ## Parameters -/

theorem keeps_itemsToParameters (trailing : Option Nat) (items : List Tree) :
    Keeps items id (itemsToParameters trailing items) := by
  induction items with
  | nil => exact keeps_pure (.refl _)
  | cons t rest ih =>
    unfold itemsToParameters
    split
    · rename_i heq
      cases heq
    · rename_i s inner heq
      obtain ⟨rfl, rfl⟩ := List.cons.inj heq
      have hinner : Keeps [.node .spread s [inner]] id (do
          let inner ← toPattern true inner
          return [.node .restPattern s [inner]]) :=
        keeps_bind (keeps_toPattern true inner) fun _ h => keeps_pure (.plain rfl h)
      refine keeps_when (by simp) (fun _ => ?_) ()
      dsimp only
      split
      · exact keeps_move (by simp) fun _ => hinner
      · exact hinner
    · rename_i heq
      obtain ⟨rfl, rfl⟩ := List.cons.inj heq
      exact keeps_move (by simp) fun _ => ih.of_draws (.right [_] _)
    · rename_i heq
      obtain ⟨rfl, rfl⟩ := List.cons.inj heq
      exact keeps_bind (keeps_toPattern true t) fun t' ht => keeps_bind ih fun rest' hrest =>
        keeps_pure (.cons ht hrest)

theorem keeps_toParameters (trailing : Option Nat) (items : List Tree) :
    Keeps items id (toParameters trailing items) := by
  refine keeps_bind (keeps_itemsToParameters trailing items) fun params hparams => ?_
  refine keeps_move (by simp) fun _ => ?_
  exact keeps_when (moves_forIn _ (fun _ _ => by simp) _) (fun _ => keeps_pure hparams) ()

/-! ## Patterns of declarations -/

/-- All rules read trees. -/
def Reading (self : Rules) : Prop :=
  ∀ r, Reads [] (fun t => [t]) (self r)

theorem reads_value? (hself : Reading self) : Reads [] Option.toList (value? self) := by
  refine reads_move (by simp) fun _ => reads_ite ?_ (reads_pure (.refl _))
  exact reads_map (reads_within (fun _ => rfl) (hself _))

theorem reads_bindingWithDefault (hself : Reading self) :
    Reads [] (fun t => [t]) (bindingWithDefault self) := by
  refine reads_ask (by simp) fun _ => reads_then (hself _) fun target => ?_
  refine reads_then (reads_value? hself) fun value => ?_
  cases value with
  | some value => exact reads_nodeFrom _ rfl (.refl _)
  | none => exact reads_pure (.refl _)

theorem reads_restBinding (hself : Reading self) (hasDefault : Bool) :
    Reads [] (fun t => [t]) (restBinding self hasDefault) := by
  refine reads_ask (by simp) fun _ => reads_move (by simp) fun _ => ?_
  refine reads_then (hself _) fun target => ?_
  have hnode (from_ : Nat) :
      Reads ([] ++ [target]) (fun t => [t]) (nodeFrom from_ .restPattern [target]) :=
    reads_nodeFrom _ rfl (.refl _)
  refine reads_ite (reads_move (by simp) fun _ => reads_ite ?_ (hnode _)) (hnode _)
  exact reads_move (hself _).moves fun _ => reads_move (by simp) fun _ => hnode _

theorem reads_bindingsUntil (hself : Reading self) (closing : String) (restHasDefault : Bool)
    (rest : Option Nat) (fuel : Nat) :
    Reads [] id (bindingsUntil self closing restHasDefault rest fuel) := by
  induction fuel generalizing rest with
  | zero => exact fails_unexpected.reads
  | succ fuel ih =>
    rw [bindingsUntil]
    refine reads_move (by simp) fun _ => reads_ite (reads_pure (.refl _)) ?_
    refine reads_ask (by simp) fun here => reads_ask (by simp) fun _ => reads_ite ?_ ?_
    · refine reads_move (by simp) fun _ => reads_bind (ih rest) fun items => ?_
      exact reads_pure (.of_eq rfl)
    · have hafter (takesRest : Bool) (t : Tree) : Reads ([] ++ [t]) id (do
          if ← eatMark closing then return [t]
          let comma ← start
          expectMark ","
          if takesRest && (← isMark closing) then complain comma
          let rest := if takesRest then some here else rest
          return t :: (← bindingsUntil self closing restHasDefault rest fuel)) := by
        refine reads_move (by simp) fun _ => reads_ite (reads_pure (.refl _)) ?_
        refine reads_ask (by simp) fun _ => reads_move (by simp) fun _ => ?_
        refine reads_ask (by simp) fun _ => reads_when (by simp) (fun _ => ?_) ()
        exact reads_then (ih _) fun items => reads_pure (.refl _)
      have hitem : Reads [] id (do
          let takesRest ← isMark "..."
          let t ← if takesRest then restBinding self restHasDefault else bindingWithDefault self
          if ← eatMark closing then return [t]
          let comma ← start
          expectMark ","
          if takesRest && (← isMark closing) then complain comma
          let rest := if takesRest then some here else rest
          return t :: (← bindingsUntil self closing restHasDefault rest fuel)) := by
        refine reads_ask (by simp) fun takesRest => reads_ite ?_ ?_
        · exact reads_then (reads_restBinding hself _) (hafter takesRest)
        · exact reads_then (reads_bindingWithDefault hself) (hafter takesRest)
      dsimp only
      split
      · exact reads_move (by simp) fun _ => hitem
      · exact hitem

theorem past_parameters (hself : Reading self) (restHasDefault : Bool) :
    ReadsPast id (parameters self restHasDefault) :=
  past_of_takes (by simp) fun _ => reads_ask (by simp) fun _ => reads_bindingsUntil hself _ _ _ _

@[simp]
theorem takes_hiddenName : Takes hiddenName := by
  refine takes_of_asks (by simp) fun _ => takes_of_moves (by simp) fun _ => ?_
  refine moves_bind (by simp) fun _ => moves_bind (by simp) fun _ => ?_
  exact moves_when (by simp) (fun _ => by simp) ()

/-- A key takes a token at least, and what it computes comes after. -/
theorem past_propertyKey (hself : Reading self) : ReadsPast (fun r => r.2) (propertyKey self) := by
  intro s
  refine goes_token ?_
  split
  · rename_i heq
    exact goes_past (by rw [heq]; exact Token.noConfusion) (reads_pure (.refl _))
  · rename_i heq
    exact goes_past (by rw [heq]; exact Token.noConfusion) (reads_pure (.refl _))
  · rename_i heq
    exact goes_past (by rw [heq]; exact Token.noConfusion) (reads_pure (.refl _))
  · rename_i heq
    exact goes_past (by rw [heq]; exact Token.noConfusion) (reads_pure (.refl _))
  · rename_i heq
    refine goes_past (by rw [heq]; exact Token.noConfusion) ?_
    refine reads_then (reads_within (fun _ => rfl) (hself _)) fun key => ?_
    exact reads_move (by simp) fun _ => reads_pure (.refl _)
  · exact fails_unexpected.goes

theorem reads_memberBinding (hself : Reading self) :
    Reads [] (fun t => [t]) (memberBinding self) := by
  refine reads_ask (by simp) fun _ => reads_move (by simp) fun _ => reads_ite ?_ ?_
  · exact reads_then (hself _) fun target => reads_nodeFrom _ rfl (.refl _)
  · refine reads_then (past_propertyKey hself).reads fun (key, keyParts) => ?_
    refine reads_move (by simp) fun _ => reads_ite ?_ ?_
    · exact reads_then (reads_bindingWithDefault hself) fun value =>
        reads_nodeFrom _ rfl (.refl _)
    · split
      · exact reads_then (reads_value? hself) fun value =>
          reads_nodeFrom _ rfl (.right _ _)
      · exact fails_unexpected.reads

@[simp]
theorem moves_checkMembers (trailing : Option Nat) (members : List Tree) :
    Moves (checkMembers trailing members) := by
  induction members with
  | nil => exact moves_pure
  | cons t rest ih =>
    unfold checkMembers
    split
    · exact moves_pure
    · refine moves_unless (by simp) (fun _ => ?_) ()
      split
      · simp
      · simp
    · rename_i heq
      obtain ⟨-, rfl⟩ := List.cons.inj heq
      exact moves_when (by simp) (fun _ => ih) ()

theorem reads_bindingTarget (hself : Reading self) (allowLet : Bool) :
    Reads [] (fun t => [t]) (bindingTarget self allowLet) := by
  refine reads_ask (by simp) fun _ => reads_ask (by simp) fun t => ?_
  split
  · exact reads_bindingName _
  · refine reads_move (by simp) fun _ => reads_ask (by simp) fun _ => ?_
    exact reads_then (reads_bindingsUntil hself _ _ _ _) fun items =>
      reads_nodeFrom _ rfl (.refl _)
  · refine reads_move (by simp) fun _ => reads_ask (by simp) fun _ => ?_
    refine reads_then (reads_listUntil _ (reads_memberBinding hself) _) fun (members, trailing) => ?_
    refine reads_move (by simp) fun _ => reads_nodeFrom _ rfl ?_
    rw [List.flatMap_singleton']
    exact .refl _
  · exact fails_unstarted.reads

/-- What a declaration binds is a name or a pattern. -/
theorem goes_bindingTarget {s : State} (hself : Reading self) (allowLet : Bool) :
    Goes s (bindingTarget self allowLet) fun t _ => ownsSpan t.kind = false := by
  refine goes_ask (by simp) fun _ => goes_ask (by simp) fun t => ?_
  split
  · refine goes_ask (by simp) fun _ => (moves_boundName _).goes fun _ _ _ => ?_
    exact goes_nodeFrom rfl
  · refine moves_advance.goes fun _ _ _ => goes_ask (by simp) fun _ => ?_
    exact (reads_bindingsUntil hself _ _ _ _).moves.goes fun _ _ _ => goes_nodeFrom rfl
  · refine moves_advance.goes fun _ _ _ => goes_ask (by simp) fun _ => ?_
    refine (reads_listUntil _ (reads_memberBinding hself) _).moves.goes fun (members, trailing) _ _ => ?_
    exact (moves_checkMembers trailing members).goes fun _ _ _ => goes_nodeFrom rfl
  · exact fails_unstarted.goes

/-- A node that writes to what it begins with. -/
theorem goes_writing {s : State} {lo offset : Nat} {kind : Kind} {target : Tree} {rest : List Tree}
    (hkind : writes kind = true) (htarget : Writable target s)
    (hparts : OwnSpans s.Quiet lo s.lastStop (target :: rest)) :
    Goes s (nodeFrom offset kind (target :: rest)) fun t s' => OwnSpans s'.Quiet lo s'.lastStop [t] :=
  goes_nodeFrom (.writing hkind htarget hparts)

end

end ModuleAssets.Syntax.Parse
