import ModuleAssets.Proofs.Syntax.Grammar.Pattern
import ModuleAssets.Syntax.Grammar.Function
/-!
# Parsing — functions, objects and classes have spans of their own

A function starts with a token that is not part of what is inside of it: the word
for it, or the first token of its member. Members are read in two steps, first the
key and then what follows, where the key may hold owners of its own.
-/

namespace ModuleAssets.Syntax.Parse

open ModuleAssets.Syntax.Tree

section

variable {self : Rules} {s : State} {lo : Nat}

/-! ## Bodies -/

@[simp]
theorem asks_atStrictMark : Asks atStrictMark :=
  fun _ _ => ⟨_, rfl⟩

@[simp]
theorem asks_closesBraces : Asks closesBraces :=
  asks_bind (by simp) fun _ => asks_bind (by simp) fun _ => asks_pure

@[simp]
theorem moves_passClosingBrace : Moves passClosingBrace := by
  refine moves_bind (by simp) fun _ => moves_ite (by simp) ?_
  exact moves_bind (by simp) fun _ => by simp

theorem reads_statementsUntil (hself : Reading self) {closes : Parse Bool} (hcloses : Moves closes) :
    Reads [] id (statementsUntil self closes) := by
  refine reads_ask (by simp) fun _ => ?_
  have hmore : Moves (do return !(← closes)) := moves_bind hcloses fun _ => moves_pure
  have hlist (fuel : Nat) : Reads [] (fun ts => ts)
      (repeatWhile (do return !(← closes)) (self (.statement true)) fuel) := by
    simpa only [List.flatMap_singleton'] using
      reads_repeatWhile hmore (hself (.statement true)) fuel
  exact hlist _

theorem reads_markedStatementsUntil (hself : Reading self) {closes : Parse Bool}
    (hcloses : Moves closes) : Reads [] id (markedStatementsUntil self closes) :=
  reads_ask (by simp) fun _ => reads_within (fun _ => rfl) (reads_statementsUntil hself hcloses)

/-- The statements come after their brace. -/
theorem past_bracedStatements (hself : Reading self) (marked : Bool) :
    ReadsPast id (bracedStatements self marked) := by
  refine past_of_takes (by simp) fun _ => ?_
  have hinner : Reads [] id (within ({ · with topLevel := false }) do
      if marked then markedStatementsUntil self closesBraces
      else statementsUntil self closesBraces) :=
    reads_within (fun _ => rfl) (reads_ite (reads_markedStatementsUntil hself (by simp))
      (reads_statementsUntil hself (by simp)))
  exact reads_then hinner fun statements => reads_move (by simp) fun _ => reads_pure (.refl _)

theorem reads_functionBody (hself : Reading self) (marked : Bool) (params : List Tree) :
    Reads [] (fun t => [t]) (functionBody self marked params) := by
  intro lo s hlo
  refine goes_start fun hstart => ?_
  refine goes_bind (past_bracedStatements hself marked s) fun statements s₁ _ hst => ?_
  have hnode (s₂ : State) (hpast : s₁.Past s₂) :
      Goes s₂ (nodeFrom s.scan.start .functionBody statements) fun t s' =>
        OwnSpans s'.Quiet lo s'.lastStop [t] :=
    goes_nodeFrom (((hst.past hpast).node (by rfl)).widen (Nat.le_trans hlo.le hstart)
      (Nat.le_refl _))
  refine goes_ordered fun hs₁ => ?_
  dsimp only
  split
  · exact hnode s₁ (.refl hs₁)
  · split
    · exact (moves_complain _).goes fun _ s₂ hpast => hnode s₂ hpast
    · exact hnode s₁ (.refl hs₁)

theorem reads_functionParts (hself : Reading self) (isAsync isGenerator : Bool)
    {check : List Tree → Parse Unit} (hcheck : ∀ params, Moves (check params)) :
    Reads [] id (functionParts self isAsync isGenerator check) := by
  refine reads_then (reads_within (fun _ => rfl) (past_parameters hself true).reads) fun params => ?_
  refine reads_move (hcheck params) fun _ => ?_
  refine reads_then (reads_within (fun _ => rfl) (reads_functionBody hself true params)) fun body => ?_
  exact reads_pure (.refl _)

/-- The parts of a function come after the word for it. -/
theorem past_functionOf (hself : Reading self) (isAsync : Bool) {α : Type} {name : Bool → Parse α}
    (hname : ∀ isGenerator, Moves (name isGenerator)) :
    ReadsPast (fun r => r.2) (functionOf self isAsync name) := by
  refine past_of_takes (by simp) fun _ => reads_move (by simp) fun isGenerator => ?_
  refine reads_move (hname _) fun name => ?_
  refine reads_then (reads_within (fun _ => rfl) (reads_functionParts hself _ _ fun _ => by simp))
    fun parts => ?_
  exact reads_pure (.refl _)

/-- A function from an offset on, at which it may say that it is asynchronous. -/
theorem goes_function (hself : Reading self) {from_ : Nat} (hlo : lo ≤ from_)
    (hfrom : from_ ≤ s.scan.start) (isAsync : Bool) {α : Type} {name : Bool → Parse α}
    (hname : ∀ isGenerator, Moves (name isGenerator)) {kind : α → Kind}
    (hkind : ∀ a, restrictsParts (kind a) = false) :
    Goes s (do
      let (name, parts) ← functionOf self isAsync name
      nodeFrom from_ (kind name) parts) fun t s' => OwnSpans s'.Quiet lo s'.lastStop [t] := by
  refine goes_bind (past_functionOf hself isAsync hname s) fun (name, parts) s₁ _ hparts => ?_
  refine goes_nodeFrom ?_
  have hnode := (hparts.widen (Nat.succ_le_succ hfrom) (Nat.le_refl _)).node (hkind name)
  exact hnode.widen hlo (Nat.le_refl _)

theorem goes_functionExpression (hself : Reading self) {from_ : Nat} (hlo : lo ≤ from_)
    (hfrom : from_ ≤ s.scan.start) (isAsync : Bool) :
    Goes s (functionExpression self from_ isAsync) fun t s' => OwnSpans s'.Quiet lo s'.lastStop [t] := by
  refine goes_function hself hlo hfrom isAsync (fun isGenerator => ?_) fun _ => rfl
  exact moves_within (fun _ => rfl) (moves_boundName? true)

/-! ## Members -/

/-- The key was read, and what it computes comes after the start of the member. -/
def Keyed.Read (k : Keyed) (s : State) : Prop :=
  OwnSpans s.Quiet (k.start + 1) s.lastStop k.parts

/-- A member after its key. -/
def Completes {α : Type} (k : Keyed) (g : α → List Tree) (p : Parse α) : Prop :=
  ∀ s, k.Read s → Goes s p fun a s' => OwnSpans s'.Quiet k.start s'.lastStop (g a)

theorem goes_objectKey (hself : Reading self) {from_ : Nat} (hfrom : from_ ≤ s.scan.start) :
    Goes s (objectKey self from_) fun k s' => k.start = from_ ∧ k.Read s' := by
  refine goes_ask (by simp) fun _ => ?_
  refine goes_bind (past_propertyKey hself s) fun (key, parts) s₁ _ hparts => goes_pure fun _ => ?_
  exact ⟨rfl, hparts.widen (Nat.succ_le_succ hfrom) (Nat.le_refl _)⟩

theorem goes_classKey (hself : Reading self) {from_ : Nat} (hfrom : from_ ≤ s.scan.start) :
    Goes s (classKey self from_) fun k s' => k.start = from_ ∧ k.Read s' := by
  refine goes_ask (by simp) fun keyStart => goes_ask (by simp) fun isHidden => ?_
  split
  · refine goes_bind (takes_hiddenName s) fun n s₁ _ hlt => ?_
    have hread (s₂ : State) (hpast : s₁.Past s₂) : Goes s₂
        (pure (⟨from_, keyStart, .hidden n, []⟩ : Keyed)) fun k s' =>
          k.start = from_ ∧ k.Read s' := by
      have hstop := hpast.lastStop_le
      exact goes_pure fun _ => ⟨rfl, .nil (show from_ + 1 ≤ s₂.lastStop by omega)⟩
    refine goes_ordered fun hs₁ => ?_
    dsimp only
    split
    · exact (moves_complain _).goes fun _ s₂ hpast => hread s₂ hpast
    · exact hread s₁ (.refl hs₁)
  · exact goes_objectKey hself hfrom

/-- A member that is a function has its span beside the owners of its key. -/
theorem goes_methodNode {k : Keyed} {parts : List Tree}
    (h : OwnSpans s.Quiet (k.start + 1) s.lastStop (k.parts ++ parts)) :
    Goes s (methodNode k parts) fun t s' => OwnSpans s'.Quiet k.start s'.lastStop [t] :=
  goes_node (goes_nodeFrom ((h.beside (by rfl)).plain rfl))

theorem completes_checkedMethod (hself : Reading self) (k : Keyed) (isAsync isGenerator : Bool)
    {check : List Tree → Parse Unit} (hcheck : ∀ params, Moves (check params)) :
    Completes k (fun t => [t]) (checkedMethod self k isAsync isGenerator check) := by
  intro s hk
  have hparts : Reads [] id (within (·.inOwnFunction true)
      (functionParts self isAsync isGenerator check)) :=
    reads_within (fun _ => rfl) (reads_functionParts hself _ _ hcheck)
  exact goes_bind (hparts.after k.parts _ s hk) fun parts s₁ _ h => goes_methodNode h

theorem completes_method (hself : Reading self) (k : Keyed) (isAsync isGenerator : Bool) :
    Completes k (fun t => [t]) (method self k isAsync isGenerator) :=
  completes_checkedMethod hself k _ _ fun _ => by simp

theorem completes_accessor (hself : Reading self) (k : Keyed) (isGetter : Bool) (blamed : Nat) :
    Completes k (fun t => [t]) (accessor self k isGetter blamed) := by
  refine completes_checkedMethod hself k _ _ fun params => ?_
  split
  · exact moves_ite moves_pure (by simp)
  · refine moves_unless (by simp) (fun _ => ?_) ()
    split
    · simp
    · simp

/-! ## Objects -/

/-- The member goes on with another key, from the same start. -/
theorem goes_ownKey (hself : Reading self) {k : Keyed} (hk : k.Read s) {α : Type}
    {next : Keyed → Parse α} {g : α → List Tree}
    (hnext : ∀ own s', own.start = k.start → own.Read s' → Goes s' (next own) fun a s' =>
      OwnSpans s'.Quiet k.start s'.lastStop (g a)) :
    Goes s (objectKey self k.start >>= next) fun a s' => OwnSpans s'.Quiet k.start s'.lastStop (g a) := by
  refine goes_ordered fun hs => ?_
  have hstart : k.start ≤ s.scan.start :=
    Nat.le_trans (Nat.le_of_succ_le hk.le) hs.lastStop_le_start
  exact goes_bind (goes_objectKey hself hstart) fun own s₁ _ hown => hnext own s₁ hown.1 hown.2

theorem Keyed.Read.past {k : Keyed} {s s' : State} (h : k.Read s) (hpast : s.Past s') : k.Read s' :=
  OwnSpans.past h hpast

theorem Completes.goes_own {k own : Keyed} {α : Type} {g : α → List Tree} {p : Parse α}
    (h : Completes own g p) (hstart : own.start = k.start) {s : State} (hown : own.Read s) :
    Goes s p fun a s' => OwnSpans s'.Quiet k.start s'.lastStop (g a) :=
  hstart ▸ h s hown

theorem completes_move {α β : Type} {k : Keyed} {p : Parse α} {f : α → Parse β}
    {g : β → List Tree} (hp : Moves p) (hf : ∀ a, Completes k g (f a)) : Completes k g (p >>= f) :=
  fun _ hk => hp.goes fun a s' hpast => hf a s' (hk.past hpast)

theorem completes_when {α β : Type} {k : Keyed} {c : Prop} [Decidable c] {p : Parse α}
    {f : α → Parse β} {g : β → List Tree} (hp : Moves p) (hf : ∀ a, Completes k g (f a)) (a : α) :
    Completes k g (if c then p >>= f else f a) := by
  split
  · exact completes_move hp hf
  · exact hf a

/-- What follows a key is read with the owners of the key before it. -/
theorem Reads.completes {α : Type} {k : Keyed} {g : α → List Tree} {p : Parse α}
    (h : Reads k.parts g p) : Completes k g p :=
  fun s hk => (h _ s hk).mono fun _ _ _ ha => ha.widen (Nat.le_succ _) (Nat.le_refl _)

theorem completes_namedMemberOf (hself : Reading self) (k : Keyed) (name : String) :
    Completes k (fun t => [t]) (namedMemberOf self k name) := by
  have hrest : Completes k (fun t => [t]) (do
      if ← eatMark "=" then
        let value ← self .assignment
        nodeFrom k.start (.shorthandDefault name) [value]
      else if (← isMark ",") || (← isMark "\x7d") then nodeFrom k.start (.shorthand name) []
      else if name == "get" || name == "set" then
        let own ← objectKey self k.start
        accessor self own (name == "get") own.keyStart
      else if name == "async" then
        let isGenerator ← eatMark "*"
        let own ← objectKey self k.start
        method self own true isGenerator
      else unexpected) := by
    refine completes_move (by simp) fun _ => ?_
    split
    · exact Reads.completes (reads_then (hself _) fun value =>
        reads_nodeFrom _ rfl (.right _ _))
    · refine completes_move (by simp) fun _ => completes_move (by simp) fun _ => ?_
      split
      · exact Reads.completes (reads_nodeFrom _ rfl (.of_nil rfl _))
      · split
        · exact fun s hk => goes_ownKey hself hk fun own s' hstart hown =>
            (completes_accessor hself own _ _).goes_own hstart hown
        · split
          · exact completes_move (by simp) fun isGenerator s hk =>
              goes_ownKey hself hk fun own s' hstart hown =>
                (completes_method hself own _ _).goes_own hstart hown
          · exact fun _ _ => fails_unexpected.goes
  refine completes_move (by simp) fun mark => completes_move (by simp) fun _ => ?_
  dsimp only
  split
  · exact completes_move (by simp) fun _ => hrest
  · exact hrest

/-- A member from its key on, which starts at or before the token being looked at. -/
theorem goes_member (hself : Reading self) {from_ : Nat} (hlo : lo ≤ from_)
    (hfrom : from_ ≤ s.scan.start) {α : Type} {next : Keyed → Parse α} {g : α → List Tree}
    (hnext : ∀ k, Completes k g (next k)) :
    Goes s (objectKey self from_ >>= next) fun a s' => OwnSpans s'.Quiet lo s'.lastStop (g a) := by
  refine goes_bind (goes_objectKey hself hfrom) fun k s₁ _ hk => ?_
  refine (hnext k s₁ hk.2).mono fun a s₂ _ ha => ha.widen ?_ (Nat.le_refl _)
  rw [hk.1]
  exact hlo

theorem reads_objectMember (hself : Reading self) :
    Reads [] (fun t => [t]) (objectMember self) := by
  intro lo s hlo
  refine goes_start fun hstart => ?_
  have hle : lo ≤ s.scan.start := Nat.le_trans hlo.le hstart
  refine (Eats.moves (by simp)).goes fun _ s₁ hs₁ => ?_
  have hlo₁ : OwnSpans s₁.Quiet lo s₁.lastStop [] := hlo.past hs₁
  split
  · refine (reads_then (hself _) fun value => ?_ : Reads [] _ _) lo s₁ hlo₁
    exact reads_nodeFrom _ rfl (.refl _)
  · refine (Eats.moves (by simp)).goes fun _ s₂ hs₂ => ?_
    have hfrom := (hs₁.trans hs₂).start_le
    split
    · exact goes_member hself hle hfrom fun k => completes_method hself k _ _
    · refine goes_member hself hle hfrom fun k => completes_move (by simp) fun _ => ?_
      split
      · exact Reads.completes (reads_then (hself _) fun value => reads_nodeFrom _ rfl (.refl _))
      · refine completes_move (by simp) fun _ => ?_
        split
        · exact completes_method hself k _ _
        · split
          · exact completes_namedMemberOf hself k _
          · exact fun _ _ => fails_unexpected.goes

theorem reads_objectLiteral (hself : Reading self) :
    Reads [] (fun t => [t]) (objectLiteral self) := by
  refine reads_ask (by simp) fun _ => reads_move (by simp) fun _ => ?_
  have hmembers : Reads [] (fun r => r.1) (within ({ · with allowIn := true }) do
      listUntil "\x7d" (objectMember self) (← read).budget) := by
    refine reads_within (fun _ => rfl) (reads_ask (by simp) fun c => ?_)
    simpa only [List.flatMap_singleton'] using
      reads_listUntil "\x7d" (reads_objectMember hself) c.budget
  refine reads_then hmembers fun (members, trailing) => ?_
  have hnode (from_ : Nat) : Reads ([] ++ members) (fun t => [t])
      (nodeFrom from_ .object members) :=
    reads_nodeFrom _ rfl (.refl _)
  dsimp only
  split
  · exact reads_move (by simp) fun _ => hnode _
  · exact hnode _

/-! ## Classes -/

theorem completes_field (hself : Reading self) (k : Keyed) :
    Completes k (fun t => [t]) (field self k) := by
  have hvalue (value : List Tree) : Reads (k.parts ++ value) (fun t => [t]) (do
      let t ← nodeFrom k.start (.field k.key) (k.parts ++ value)
      unless ← eatSemicolon do complain (← start)
      return t) := by
    refine reads_bind (reads_nodeFrom _ rfl (.refl _)) fun t => ?_
    refine reads_move (by simp) fun _ => ?_
    exact reads_ite (reads_pure (.refl _)) (reads_move (by simp) fun _ =>
      reads_move (by simp) fun _ => reads_pure (.refl _))
  have hread : Reads k.parts (fun t => [t]) (do
      let value ←
        if ← eatMark "=" then (fun t => [t]) <$> within (·.inInitializer) (self .assignment)
        else pure []
      let t ← nodeFrom k.start (.field k.key) (k.parts ++ value)
      unless ← eatSemicolon do complain (← start)
      return t) := by
    have hgiven : Reads [] id ((fun t => [t]) <$> within (·.inInitializer) (self .assignment)) :=
      reads_map (reads_within (fun _ => rfl) (hself _))
    have hnone : Reads [] id (pure [] : Parse (List Tree)) := reads_pure (.refl _)
    exact reads_move (by simp) fun _ =>
      reads_ite (reads_then hgiven hvalue) (reads_then hnone hvalue)
  exact Reads.completes (reads_when (by simp) (fun _ => hread) ())

theorem reads_staticBlock (hself : Reading self) (from_ : Nat) :
    Reads [] (fun t => [t]) (staticBlock self from_) := by
  intro lo s hlo
  refine goes_start fun hstart => ?_
  have hbraced : Goes s (within (·.inBlockOfClass) (bracedStatements self false)) fun ts s' =>
      OwnSpans s'.Quiet (s.scan.start + 1) s'.lastStop ts :=
    goes_within (fun _ => rfl) (past_bracedStatements hself false s)
  refine goes_bind hbraced fun statements s₁ _ hst => goes_node (goes_nodeFrom ?_)
  exact ((hst.node (by rfl)).plain rfl).widen (Nat.le_trans hlo.le hstart) (Nat.le_refl _)

theorem completes_constructorMember (hself : Reading self) (k : Keyed) :
    Completes k (fun t => [t]) (constructorMember self k) := by
  intro s hk
  have hparams := (past_parameters hself false).reads.after k.parts _ s hk
  refine goes_bind hparams fun params s₁ _ hparams => ?_
  have hbody : Reads [] (fun t => [t]) (within (·.inBody false false)
      (functionBody self true params)) :=
    reads_within (fun _ => rfl) (reads_functionBody hself true params)
  refine goes_bind (hbody.after (k.parts ++ params) _ s₁ hparams) fun body s₂ _ h => ?_
  refine goes_methodNode ?_
  rw [← List.append_assoc]
  exact h

@[simp]
theorem asks_endsKey : Asks endsKey :=
  asks_bind (by simp) fun _ => asks_bind (by simp) fun _ => asks_bind (by simp) fun _ => asks_pure

/-- A member from its key on, as in an object, but the key may be a private name. -/
theorem goes_classMember (hself : Reading self) {from_ : Nat} (hlo : lo ≤ from_)
    (hfrom : from_ ≤ s.scan.start) {α : Type} {next : Keyed → Parse α} {g : α → List Tree}
    (hnext : ∀ k, k.start = from_ → Completes k g (next k)) :
    Goes s (classKey self from_ >>= next) fun a s' => OwnSpans s'.Quiet lo s'.lastStop (g a) := by
  refine goes_bind (goes_classKey hself hfrom) fun k s₁ _ hk => ?_
  refine (hnext k hk.1 s₁ hk.2).mono fun a s₂ _ ha => ha.widen ?_ (Nat.le_refl _)
  rw [hk.1]
  exact hlo

theorem completes_pair {k : Keyed} {p : Parse Tree} (h : Completes k (fun t => [t]) p)
    (isConstructor : Bool) :
    Completes k (fun r => [r.1]) (p >>= fun t => pure (t, isConstructor)) :=
  fun s hk => goes_bind (h s hk) fun _ _ _ ht => goes_pure fun _ => ht

/-- The key was a word, and the member's own key is next. -/
theorem completes_ownKey (hself : Reading self) {k : Keyed} {α : Type} {next : Keyed → Parse α}
    {g : α → List Tree} (hnext : ∀ own, Completes own g (next own)) :
    Completes k g (classKey self k.start >>= next) := by
  intro s hk
  refine goes_ordered fun hs => goes_classMember hself (Nat.le_refl _) ?_ fun own _ => hnext own
  exact Nat.le_trans (Nat.le_of_succ_le hk.le) hs.lastStop_le_start

theorem completes_fieldOrAsync (hself : Reading self) (k : Keyed) (nextLine : Bool) :
    Completes k (fun r => [r.1]) (do
      if (← endsKey) || nextLine || (← token) == .endOfText then return (← field self k, false)
      if k.key == .name "async" then
        let isGenerator ← eatMark "*"
        let own ← classKey self k.start
        if own.namesConstructor then blame own.keyStart
        return (← method self own true isGenerator, false)
      unexpected) := by
  refine completes_move (by simp) fun _ => completes_move (by simp) fun _ => ?_
  split
  · exact completes_pair (completes_field hself k) _
  · split
    · refine completes_move (by simp) fun _ => completes_ownKey hself fun own => ?_
      exact completes_when (by simp)
        (fun _ => completes_pair (completes_method hself own _ _) _) ()
    · exact fun _ _ => fails_unexpected.goes

theorem goes_classMemberOf (hself : Reading self) {from_ : Nat} (hlo : lo ≤ from_)
    (hfrom : from_ ≤ s.scan.start) (isStatic : Bool) :
    Goes s (classMemberOf self from_ isStatic) fun r s' => OwnSpans s'.Quiet lo s'.lastStop [r.1] := by
  refine (Eats.moves (by simp)).goes fun _ s₁ hs₁ => ?_
  have hfrom₁ : from_ ≤ s₁.scan.start := Nat.le_trans hfrom hs₁.start_le
  split
  · refine goes_classMember hself hlo hfrom₁ fun k _ => ?_
    exact completes_when (by simp) (fun _ => completes_pair (completes_method hself k _ _) _) ()
  · refine goes_classMember hself hlo hfrom₁ fun k hk => completes_move (by simp) fun _ => ?_
    subst hk
    split
    · split
      · exact completes_pair (completes_method hself k _ _) _
      · exact completes_when (by simp)
          (fun _ => completes_pair (completes_constructorMember hself k) _) ()
    · refine completes_move (by simp) fun nextLine => ?_
      have hrest := completes_fieldOrAsync hself k nextLine
      dsimp only
      split
      · refine completes_move (by simp) fun _ => completes_move (by simp) fun _ => ?_
        split
        · exact hrest
        · refine completes_ownKey hself fun own => ?_
          exact completes_when (by simp)
            (fun _ => completes_pair (completes_accessor hself own _ _) _) ()
      · exact hrest

theorem reads_classMember (hself : Reading self) :
    Reads [] (fun r => [r.1]) (classMember self) := by
  intro lo s hlo
  refine goes_start fun hstart => ?_
  have hle : lo ≤ s.scan.start := Nat.le_trans hlo.le hstart
  refine goes_bind (eats_eatWord "static" s) fun isStatic s₁ hs₁ hlt => ?_
  have hlo₁ : OwnSpans s₁.Quiet lo s₁.lastStop [] := hlo.past hs₁
  split
  · rename_i hstatic
    -- the word may be the key itself
    have hkey {p : Parse (Tree × Bool)}
        (h : Completes ⟨s.scan.start, s.scan.start, .name "static", []⟩ (fun r => [r.1]) p) :
        Goes s₁ p fun r s' => OwnSpans s'.Quiet lo s'.lastStop [r.1] :=
      (h s₁ (.nil (hlt hstatic))).mono fun r s' _ hr => hr.widen hle (Nat.le_refl _)
    refine goes_ask (by simp) fun _ => ?_
    split
    · exact hkey (completes_pair (completes_method hself _ _ _) _)
    · refine goes_ask (by simp) fun _ => ?_
      split
      · refine goes_bind (reads_staticBlock hself _ lo s₁ hlo₁) fun block s₂ _ hblock => ?_
        exact goes_pure fun _ => hblock
      · refine goes_ask (by simp) fun _ => ?_
        split
        · exact hkey (completes_pair (completes_field hself _) _)
        · refine goes_ask (by simp) fun _ => goes_ask (by simp) fun _ => ?_
          dsimp only
          split
          · exact (Fails.moves (by simp)).goes fun _ s₂ hs₂ =>
              goes_classMemberOf hself hle (hs₁.trans hs₂).start_le _
          · exact goes_classMemberOf hself hle hs₁.start_le _
  · exact goes_classMemberOf hself hle hs₁.start_le _

theorem reads_classMembers (hself : Reading self) (constructed : Bool) (fuel : Nat) :
    Reads [] id (classMembers self constructed fuel) := by
  induction fuel generalizing constructed with
  | zero => exact fails_unexpected.reads
  | succ fuel ih =>
    rw [classMembers]
    refine reads_ask (by simp) fun _ => reads_ite (reads_pure (.refl _)) ?_
    refine reads_move (by simp) fun _ => reads_ite (ih _) ?_
    refine reads_then (reads_classMember hself) fun (member, isConstructor) => ?_
    refine reads_when (by simp) (fun _ => ?_) ()
    exact reads_then (ih _) fun members => reads_pure (.refl _)

theorem reads_superclass (hself : Reading self) : Reads [] id (superclass self) := by
  refine reads_move (by simp) fun _ => reads_ite ?_ (reads_pure (.refl _))
  refine reads_then (hself _) fun parent => reads_ask (by simp) fun _ => ?_
  refine reads_move (by simp) fun _ => ?_
  have hparent : Reads ([] ++ [parent]) id (pure [parent] : Parse (List Tree)) :=
    reads_pure (.refl _)
  exact reads_ite (reads_move (by simp) fun _ => reads_move (hself _).moves fun _ => hparent) hparent

theorem reads_classOf (hself : Reading self) {α : Type} {name : Parse α} (hname : Moves name) :
    Reads [] (fun r => r.2) (classOf self name) := by
  refine reads_within (fun _ => rfl) ?_
  refine reads_move (by simp) fun _ => reads_move hname fun name => ?_
  refine reads_then (reads_superclass hself) fun parent => reads_move (by simp) fun _ => ?_
  have hmembers : Reads [] id (within ({ · with allowSuper := true, inClass := true }) do
      classMembers self false (← read).budget) :=
    reads_within (fun _ => rfl) (reads_ask (by simp) fun _ => reads_classMembers hself _ _)
  refine reads_then hmembers fun members => reads_move (by simp) fun _ => reads_pure ?_
  exact .swap _ _

theorem reads_classExpression (hself : Reading self) :
    Reads [] (fun t => [t]) (classExpression self) := by
  refine reads_ask (by simp) fun _ => ?_
  refine reads_then (reads_classOf hself (moves_boundName? false)) fun (name, parts) => ?_
  exact reads_nodeFrom _ rfl (.refl _)

end

end ModuleAssets.Syntax.Parse
