import ModuleAssets.Proofs.Syntax.Grammar.Expression
import ModuleAssets.Syntax.Grammar.Statement
/-!
# Parsing — statements and declarations

Blocks, clauses that catch and declared functions start with a token of their own,
a brace or a word. All other statements are put together from what is read one
after another. What is complained of and left out only moves on.
-/

namespace ModuleAssets.Syntax.Parse

open ModuleAssets.Syntax.Tree

/-! ## Nodes to come -/

/-- The kind and the parts that a node will have. It has no text yet, so that it could not
have a span for itself: the kind of an owner is not to come. -/
def draft (kind : Kind) (parts : List Tree) : Tree :=
  .node (if isOwner kind then .block else kind) (Span.empty 0) parts

section

variable {lo hi : Nat} {kind : Kind} {parts more ts : List Tree}

theorem not_isOwner_of_draft {quiet : Prop} (h : OwnSpans quiet lo hi ts)
    (hmem : draft kind parts ∈ ts) : isOwner kind = false := by
  cases howns : isOwner kind with
  | false => rfl
  | true =>
    have hkind : (draft kind parts).kind = .block := if_pos howns
    have hown : (draft kind parts).span ∈ (draft kind parts).ownedSpans :=
      span_mem_ownedSpans (hkind ▸ rfl)
    exact absurd (h.within _ (mem_ownedSpansIn.2 ⟨_, hmem, hown⟩)).2.1 (Nat.lt_irrefl 0)

/-- The node that was to come, perhaps with more parts. -/
theorem reads_drafted (offset : Nat) (more : List Tree) :
    Reads ([draft kind parts] ++ more) (fun t => [t]) (nodeFrom offset kind (parts ++ more)) := by
  intro lo s h
  refine goes_nodeFrom (.plain (not_isOwner_of_draft h (List.mem_cons_self ..)) (h.of_draws ?_))
  exact (DrawsFrom.of_parts _ _ parts).append (.refl more)

end

section

variable {self : Rules}

theorem reads_body (hself : Reading self) : Reads [] (fun t => [t]) (body self) :=
  reads_within (fun _ => rfl) (hself _)

theorem reads_parenthesizedTest (hself : Reading self) :
    Reads [] (fun t => [t]) (parenthesizedTest self) := by
  refine reads_move (by simp) fun _ => reads_then (reads_freeExpression hself) fun t => ?_
  exact reads_move (by simp) fun _ => reads_pure (.refl _)

/-! ## Variables -/

@[simp]
theorem asks_atForEach : Asks atForEach :=
  asks_bind (by simp) fun _ => asks_bind (by simp) fun _ => asks_pure

@[simp]
theorem asks_declarator? : Asks declarator? := by
  refine asks_bind (by simp) fun _ => ?_
  split
  · exact asks_pure
  · refine asks_bind (by simp) fun _ => ?_
    split
    · exact asks_pure
    · refine asks_bind (by simp) fun _ => ?_
      split
      · exact asks_bind (by simp) fun _ => asks_pure
      · exact asks_pure

theorem reads_declaration (hself : Reading self) (how : Declarator) (inHead : Bool) :
    Reads [] (fun t => [t]) (declaration self how inHead) := by
  refine reads_ask (by simp) fun from_ => fun lo s hlo => ?_
  have htarget := (reads_bindingTarget hself (how == .var) lo s hlo).and
    (goes_bindingTarget hself (how == .var))
  refine goes_bind htarget fun target s₁ _ ⟨hread, hkind⟩ => ?_
  have hnode (rest : List Tree) :
      Reads (target :: rest) (fun t => [t]) (nodeFrom from_ .declaration (target :: rest)) :=
    fun lo s h => goes_writing rfl (fun _ => hkind) h
  refine (?_ : Reads [target] (fun t => [t]) _) lo s₁ hread
  refine reads_ask (by simp) fun _ => reads_ite (hnode []) ?_
  refine reads_move (by simp) fun _ => reads_ite ?_ ?_
  · exact reads_then (hself _) fun value => hnode [value]
  · refine reads_ite (reads_move (by simp) fun _ => hnode []) ?_
    exact reads_unless (fails_blame _).moves (fun _ => hnode []) ()

theorem reads_declarators (hself : Reading self) (how : Declarator) (inHead : Bool)
    (before fuel : Nat) : Reads [] id (declarators self how inHead before fuel) := by
  induction fuel generalizing before with
  | zero => exact fails_unexpected.reads
  | succ fuel ih =>
    rw [declarators]
    refine reads_ask (by simp) fun _ => reads_ite ?_ ?_
    · exact reads_move (by simp) fun _ => reads_pure (.refl _)
    · refine reads_then (reads_declaration hself how inHead) fun d => reads_ask (by simp) fun _ => ?_
      refine reads_move (by simp) fun _ => reads_ite ?_ (reads_pure (.refl _))
      exact reads_then (ih _) fun ds => reads_pure (.refl _)

/-- Declarations may be put into another node, which is no owner either. -/
theorem reads_declarations (hself : Reading self) {how : Declarator} {g : Tree → List Tree}
    (hg : ∀ span ds, DrawsFrom (g (.node (.declarations how) span ds)) ds) (inHead : Bool) :
    Reads [] g (declarations self how inHead) := by
  refine reads_ask (by simp) fun from_ => reads_move (by simp) fun _ => ?_
  have hds (keepsIn : Bool) : Reads [] id (within (fun c => { c with allowIn := c.allowIn || !keepsIn })
      do declarators self how inHead (← lastStop) (← read).budget) :=
    reads_within (fun _ => rfl) (reads_ask (by simp) fun _ => reads_ask (by simp) fun _ =>
      reads_declarators hself how inHead _ _)
  exact reads_then (hds _) fun ds => reads_ask (by simp) fun _ => reads_pure (hg _ _)

theorem reads_declaredDraft (hself : Reading self) (how : Declarator) :
    Reads [] (fun t => [draft t.kind t.parts]) (declarations self how false) :=
  reads_declarations hself (fun _ _ => .node rfl _ _) false

@[simp]
theorem moves_skipStatement (fuel : Nat) : Moves (skipStatement fuel) := by
  induction fuel with
  | zero => exact fails_unexpected.moves
  | succ fuel ih =>
    rw [skipStatement]
    refine moves_bind (by simp) fun _ => moves_ite moves_pure ?_
    refine moves_bind (by simp) fun _ => moves_bind (by simp) fun _ => ?_
    exact moves_ite moves_pure ih

theorem reads_variableStatement (hself : Reading self) (how : Declarator) :
    Reads [] (fun t => [t]) (variableStatement self how) := by
  refine reads_bind (reads_declaredDraft hself how) fun t => reads_move (by simp) fun _ => ?_
  have hnode : Reads [draft t.kind t.parts] (fun t => [t]) (nodeFrom t.span.start t.kind t.parts) := by
    simpa only [List.append_nil] using reads_drafted t.span.start []
  refine reads_ite hnode (reads_ask (by simp) fun _ => reads_move (by simp) fun _ => ?_)
  have hskipped : Moves (recovering (expression self >>= fun _ => pure ()) fun _ => pure () : Parse Unit) :=
    moves_recovering (moves_bind (reads_expression hself).moves fun _ => moves_pure)
      fun _ => moves_pure
  refine reads_move hskipped fun _ => reads_ask (by simp) fun _ => ?_
  exact reads_move (by simp) fun _ => hnode

theorem reads_usingStatement (hself : Reading self) (from_ : Nat) :
    Reads [] (fun t => [t]) (usingStatement self from_) := by
  refine reads_bind (reads_declaredDraft hself .var) fun t => reads_move (by simp) fun _ => ?_
  refine reads_move (by simp) fun _ => ?_
  simpa only [List.append_nil] using reads_drafted from_ []

/-! ## Loops -/

theorem reads_eachHead (hself : Reading self) (target : Tree) :
    Reads [target] (fun r => [draft r.1 r.2]) (eachHead self target) := by
  refine reads_ask (by simp) fun overItems => reads_move (by simp) fun _ => ?_
  have hobject : Reads [] (fun t => [t]) (within ({ · with allowIn := true })
      (if overItems then self .assignment else expression self)) :=
    reads_within (fun _ => rfl) (reads_ite (hself _) (reads_expression hself))
  exact reads_then hobject fun object => reads_pure (.node rfl _ _)

theorem reads_testedHead (hself : Reading self) (first : List Tree) :
    Reads first (fun r => [draft r.1 r.2]) (testedHead self first) := by
  have hnone : Reads [] id (pure [] : Parse (List Tree)) := reads_pure (.refl _)
  have hone (t : Tree) : Reads [t] id (pure [t] : Parse (List Tree)) := reads_pure (.refl _)
  have hend (test step : List Tree) : Reads (first ++ test ++ step) (fun r => [draft r.1 r.2])
      (pure (Kind.for_, first ++ test ++ step) : Parse (Kind × List Tree)) :=
    reads_pure (.node rfl _ _)
  have hstep (test : List Tree) : Reads (first ++ test) (fun r => [draft r.1 r.2]) (do
      let step ← if ← isMark ")" then pure [] else (fun t => [t]) <$> freeExpression self
      return (Kind.for_, first ++ test ++ step)) := by
    refine reads_ask (by simp) fun _ => reads_ite ?_ ?_
    · exact reads_then hnone (hend test)
    · exact reads_then (g := id) (reads_map (reads_freeExpression hself)) (hend test)
  refine reads_move (by simp) fun _ => reads_ite ?_ ?_
  · exact reads_then hnone hstep
  · refine reads_then (reads_freeExpression hself) fun t => reads_move (by simp) fun _ => ?_
    exact hstep [t]

@[simp]
theorem moves_checkEach (declarations : List Tree) : Moves (checkEach declarations) := by
  unfold checkEach
  split
  · refine moves_bind (by simp) fun _ => moves_bind (by simp) fun _ => ?_
    exact moves_ite (by simp) moves_pure
  · refine moves_bind (moves_forIn _ (fun d _ => ?_) _) fun _ => moves_pure
    exact moves_bind (by simp) fun _ => moves_pure

theorem reads_loopHead (hself : Reading self) :
    Reads [] (fun r => [draft r.1 r.2]) (loopHead self) := by
  refine reads_ask (by simp) fun how => ?_
  split
  · have hdeclared (how : Declarator) : Reads [] (fun t => [t]) (declarations self how true) :=
      reads_declarations hself (fun _ _ => .node rfl _ _) true
    refine reads_then (hdeclared _) fun t => ?_
    refine reads_ask (by simp) fun _ => reads_ite ?_ ?_
    · exact reads_move (by simp) fun _ => reads_eachHead hself t
    · exact reads_move (by simp) fun _ => reads_testedHead hself [t]
  · refine reads_move (by simp) fun _ => reads_ite (reads_testedHead hself []) ?_
    refine reads_then (reads_within (fun _ => rfl) (reads_expression hself)) fun first => ?_
    refine reads_ask (by simp) fun _ => reads_ite ?_ ?_
    · exact reads_bind (keeps_toLoopTarget first).reads fun target => reads_eachHead hself target
    · exact reads_move (by simp) fun _ => reads_testedHead hself [first]

theorem reads_forStatement (hself : Reading self) :
    Reads [] (fun t => [t]) (forStatement self) := by
  refine reads_ask (by simp) fun from_ => reads_move (by simp) fun _ => ?_
  refine reads_ask (by simp) fun second => reads_move (by simp) fun waits => ?_
  refine reads_move (by simp) fun _ => ?_
  refine reads_then (reads_within (fun _ => rfl) (reads_loopHead hself)) fun (kind, parts) => ?_
  refine reads_move (by simp) fun _ => ?_
  refine reads_then (reads_within (fun _ => rfl) (reads_body hself)) fun inner => ?_
  exact reads_when (fails_blame _).moves (fun _ => reads_drafted _ [inner]) ()

theorem reads_whileStatement (hself : Reading self) :
    Reads [] (fun t => [t]) (whileStatement self) := by
  refine reads_ask (by simp) fun from_ => reads_move (by simp) fun _ => ?_
  refine reads_then (reads_parenthesizedTest hself) fun test => ?_
  exact reads_then (reads_within (fun _ => rfl) (reads_body hself)) fun inner =>
    reads_nodeFrom _ rfl (.refl _)

theorem reads_doStatement (hself : Reading self) :
    Reads [] (fun t => [t]) (doStatement self) := by
  refine reads_ask (by simp) fun from_ => reads_move (by simp) fun _ => ?_
  refine reads_then (reads_within (fun _ => rfl) (reads_body hself)) fun inner => ?_
  refine reads_move (by simp) fun _ => reads_then (reads_parenthesizedTest hself) fun test => ?_
  refine reads_move (by simp) fun _ => reads_nodeFrom _ rfl ?_
  exact DrawsFrom.swap [inner] [test]

/-! ## Branches and jumps -/

theorem reads_ifStatement (hself : Reading self) (fuel : Nat) :
    Reads [] (fun t => [t]) (ifStatement self fuel) := by
  induction fuel with
  | zero => exact fails_unexpected.reads
  | succ fuel ih =>
    rw [ifStatement]
    refine reads_ask (by simp) fun from_ => reads_move (by simp) fun _ => ?_
    refine reads_then (reads_parenthesizedTest hself) fun test => ?_
    refine reads_then (reads_body hself) fun yes => reads_move (by simp) fun _ => ?_
    have hnode (no : Tree) : Reads ([] ++ [test] ++ [yes] ++ [no]) (fun t => [t])
        (nodeFrom from_ .if_ [test, yes, no]) :=
      reads_nodeFrom _ rfl (.refl _)
    refine reads_ite ?_ (reads_nodeFrom _ rfl (.refl _))
    refine reads_ask (by simp) fun _ => reads_ite (reads_then ih hnode) ?_
    exact reads_then (reads_body hself) hnode

theorem reads_switchCase (hself : Reading self) (mayBeDefault : Bool) :
    Reads [] (fun t => [t]) (switchCase self mayBeDefault) := by
  refine reads_ask (by simp) fun from_ => ?_
  have hcloses : Moves (do
      return (← isWord "case") || (← isWord "default") || (← closesBraces)) :=
    moves_bind (by simp) fun _ => moves_bind (by simp) fun _ => moves_bind (by simp) fun _ => moves_pure
  have hrest (test : List Tree) : Reads ([] ++ test) (fun t => [t]) (do
      expectMark ":"
      let closes : Parse Bool := do
        return (← isWord "case") || (← isWord "default") || (← closesBraces)
      let statements ← within ({ · with topLevel := false }) (statementsUntil self closes)
      nodeFrom from_ .case (test ++ statements)) := by
    refine reads_move (by simp) fun _ => ?_
    refine reads_then (reads_within (fun _ => rfl) (reads_statementsUntil hself hcloses)) fun _ => ?_
    exact reads_nodeFrom _ rfl (.refl _)
  refine reads_move (by simp) fun _ => reads_ite ?_ ?_
  · exact reads_then (g := id) (reads_map (reads_freeExpression hself)) hrest
  · refine reads_move (by simp) fun _ => reads_unless fails_unexpected.moves (fun _ => ?_) ()
    exact hrest []

theorem reads_switchCases (hself : Reading self) (mayBeDefault : Bool) (fuel : Nat) :
    Reads [] id (switchCases self mayBeDefault fuel) := by
  induction fuel generalizing mayBeDefault with
  | zero => exact fails_unexpected.reads
  | succ fuel ih =>
    rw [switchCases]
    refine reads_ask (by simp) fun isDefault => reads_ask (by simp) fun _ => ?_
    refine reads_ite ?_ (reads_pure (.refl _))
    refine reads_then (reads_switchCase hself _) fun t => reads_then (ih _) fun cases => ?_
    exact reads_pure (.refl _)

theorem reads_switchStatement (hself : Reading self) :
    Reads [] (fun t => [t]) (switchStatement self) := by
  refine reads_ask (by simp) fun from_ => reads_move (by simp) fun _ => ?_
  refine reads_then (reads_parenthesizedTest hself) fun subject => reads_move (by simp) fun _ => ?_
  refine reads_ask (by simp) fun c => ?_
  refine reads_then (reads_within (fun _ => rfl) (reads_switchCases hself true _)) fun cases => ?_
  exact reads_move (by simp) fun _ => reads_nodeFrom _ rfl (.refl _)

theorem reads_jumpStatement (isBreak : Bool) : Reads [] (fun t => [t]) (jumpStatement isBreak) := by
  refine reads_ask (by simp) fun from_ => reads_move (by simp) fun _ => ?_
  have hnode : Reads [] (fun t => [t]) (nodeFrom from_ .jump []) :=
    reads_nodeFrom _ rfl (.refl _)
  refine reads_ask (by simp) fun c => reads_move (by simp) fun _ => reads_ite ?_ ?_
  · exact reads_unless (by simp) (fun _ => hnode) ()
  · refine reads_move (by simp) fun label => reads_move (by simp) fun _ => ?_
    exact reads_unless (by simp) (fun _ => hnode) ()

theorem reads_returnStatement (hself : Reading self) :
    Reads [] (fun t => [t]) (returnStatement self) := by
  refine reads_ask (by simp) fun from_ => reads_move (by simp) fun _ => ?_
  have hrest (value : List Tree) : Reads value (fun t => [t]) (do
      let c ← read
      unless c.inFunction || c.grammar == .script do complain from_
      nodeFrom from_ .return_ value) := by
    refine reads_ask (by simp) fun c => reads_unless (by simp) (fun _ => ?_) ()
    exact reads_nodeFrom _ rfl (.refl _)
  refine reads_move (by simp) fun _ => reads_ite (hrest []) ?_
  refine reads_then (reads_freeExpression hself) fun t => reads_move (by simp) fun _ => ?_
  exact hrest [t]

theorem reads_throwStatement (hself : Reading self) :
    Reads [] (fun t => [t]) (throwStatement self) := by
  refine reads_ask (by simp) fun from_ => reads_move (by simp) fun _ => ?_
  refine reads_ask (by simp) fun _ => reads_when fails_unexpected.moves (fun _ => ?_) ()
  refine reads_then (reads_freeExpression hself) fun value => reads_move (by simp) fun _ => ?_
  exact reads_nodeFrom _ rfl (.refl _)

/-- A block comes after its brace. -/
theorem reads_blockStatement (hself : Reading self) :
    Reads [] (fun t => [t]) (blockStatement self) := by
  intro lo s hlo
  refine goes_start fun hstart => ?_
  refine goes_bind (past_bracedStatements hself false s) fun statements s₁ _ h => goes_nodeFrom ?_
  exact (h.node (by rfl)).widen (Nat.le_trans hlo.le hstart) (Nat.le_refl _)

/-- What catches comes after the word for it. -/
theorem reads_catchClause? (hself : Reading self) : Reads [] id (catchClause? self) := by
  intro lo s hlo
  refine goes_start fun hstart => goes_bind (eats_eatWord "catch" s) fun b s₁ hs₁ hlt => ?_
  split
  · rename_i hb
    have hpassed : OwnSpans s₁.Quiet (s.scan.start + 1) s₁.lastStop [] := .nil (hlt hb)
    refine (Eats.moves (by simp)).goes fun _ s₂ hs₂ => ?_
    have hpassed := hpassed.past hs₂
    extract_lets rest
    have hrest (param : List Tree) (s₃ : State)
        (h : OwnSpans s₃.Quiet (s.scan.start + 1) s₃.lastStop param) :
        Goes s₃ (rest param) fun ts s' => OwnSpans s'.Quiet lo s'.lastStop ts := by
      refine goes_bind ((reads_blockStatement hself).after param _ s₃ h) fun inner s₄ _ h => ?_
      refine goes_node (goes_pure fun _ => ?_)
      exact (h.node (by rfl)).widen (Nat.le_trans hlo.le hstart) (Nat.le_refl _)
    split
    · refine goes_bind (hself .bindingTarget _ s₂ hpassed) fun t s₃ _ ht => ?_
      exact (Takes.moves (by simp)).goes fun _ s₄ hs₄ => hrest [t] s₄ (ht.past hs₄)
    · exact hrest [] s₂ hpassed
  · exact goes_pure fun _ => hlo.past hs₁

theorem reads_finallyClause? (hself : Reading self) : Reads [] id (finallyClause? self) := by
  refine reads_move (by simp) fun _ => reads_ite ?_ (reads_pure (.refl _))
  exact reads_then (reads_blockStatement hself) fun t => reads_pure (.refl _)

theorem reads_tryStatement (hself : Reading self) :
    Reads [] (fun t => [t]) (tryStatement self) := by
  refine reads_ask (by simp) fun from_ => reads_move (by simp) fun _ => ?_
  refine reads_then (reads_blockStatement hself) fun inner => reads_ask (by simp) fun next => ?_
  refine reads_then (reads_catchClause? hself) fun handler => ?_
  refine reads_then (reads_finallyClause? hself) fun last => reads_when (by simp) (fun _ => ?_) ()
  exact reads_nodeFrom _ rfl (.refl _)

/-- What is complained of is left out. -/
theorem reads_strayClauses (hself : Reading self) :
    Reads [] (fun t => [t]) (strayClauses self) := by
  have hleft {p : Parse (List Tree)} (hp : Reads [] id p) :
      Moves (recovering (p >>= fun _ => pure ()) fun _ => pure () : Parse Unit) :=
    moves_recovering (moves_bind hp.moves fun _ => moves_pure) fun _ => moves_pure
  refine reads_ask (by simp) fun from_ => reads_move (by simp) fun _ => ?_
  refine reads_move (hleft (reads_catchClause? hself)) fun _ => ?_
  refine reads_move (hleft (reads_finallyClause? hself)) fun _ => ?_
  exact reads_nodeFrom _ rfl (.of_nil rfl _)

theorem reads_withStatement (hself : Reading self) :
    Reads [] (fun t => [t]) (withStatement self) := by
  refine reads_ask (by simp) fun from_ => reads_ask (by simp) fun c => ?_
  refine reads_when (by simp) (fun _ => reads_move (by simp) fun _ => ?_) ()
  refine reads_then (reads_parenthesizedTest hself) fun object => ?_
  refine reads_then (reads_within (fun _ => rfl) (reads_body hself)) fun inner => ?_
  exact reads_nodeFrom _ rfl (.refl _)

/-! ## Declarations of functions and classes -/

theorem goes_functionDeclaration (hself : Reading self) {s : State} {lo from_ : Nat} (hlo : lo ≤ from_)
    (hfrom : from_ ≤ s.scan.start) (isAsync : Bool) :
    Goes s (functionDeclaration self from_ isAsync) fun t s' => OwnSpans s'.Quiet lo s'.lastStop [t] :=
  goes_function hself hlo hfrom isAsync (fun _ => moves_boundName true) fun _ => rfl

theorem reads_classDeclaration (hself : Reading self) :
    Reads [] (fun t => [t]) (classDeclaration self) := by
  refine reads_ask (by simp) fun from_ => ?_
  refine reads_then (reads_classOf hself (moves_boundName false)) fun (n, parts) => ?_
  exact reads_nodeFrom _ rfl (.refl _)

@[simp]
theorem asks_atAsyncFunction : Asks atAsyncFunction := by
  refine asks_bind (by simp) fun _ => ?_
  split
  · exact asks_bind (by simp) fun _ => asks_pure
  · exact asks_pure

theorem reads_labelledFunction (hself : Reading self) :
    Reads [] (fun t => [t]) (labelledFunction self) := by
  intro lo s hlo
  refine goes_start fun hstart => goes_ask (by simp) fun next => ?_
  refine goes_bind (goes_functionDeclaration hself (Nat.le_trans hlo.le hstart) (Nat.le_refl _) false)
    fun t s₁ _ h => ?_
  have hkept : Reads [t] (fun t => [t]) (pure t) := reads_pure (.refl _)
  refine goes_ask (by simp) fun c => ?_
  exact reads_when (by simp) (fun _ => hkept) () lo s₁ h

theorem reads_labelledStatement (hself : Reading self) (from_ : Nat) (label : String) :
    Reads [] (fun t => [t]) (labelledStatement self from_ label) := by
  refine reads_ask (by simp) fun c => ?_
  have hinner : Reads [] (fun t => [t]) (within
      ({ · with labels := label :: c.labels, allowBreak := true }) do
        if ← isWord "function" then labelledFunction self else body self) :=
    reads_within (fun _ => rfl) (reads_ask (by simp) fun _ =>
      reads_ite (reads_labelledFunction hself) (reads_body hself))
  refine reads_then hinner fun inner => reads_when (by simp) (fun _ => ?_) ()
  exact reads_nodeFrom _ rfl (.refl _)

theorem reads_expressionStatement (hself : Reading self) :
    Reads [] (fun t => [t]) (expressionStatement self) := by
  refine reads_ask (by simp) fun from_ => reads_then (reads_freeExpression hself) fun t => ?_
  extract_lets rest
  have hrest (u : Unit) : Reads [t] (fun t => [t]) (rest u) := by
    refine reads_move (by simp) fun _ => reads_ite (reads_nodeFrom _ rfl (.refl _)) ?_
    refine reads_ask (by simp) fun _ => reads_ite ?_ fails_unexpected.reads
    refine reads_bind (reads_lateOperators hself t) fun t => ?_
    exact reads_nodeFrom _ rfl (.refl _)
  split
  · refine reads_move (by simp) fun _ => reads_ite ?_ (hrest ())
    refine (reads_labelledStatement hself _ _).of_draws (.of_nil rfl _)
  · exact hrest ()

theorem reads_importStatement (hself : Reading self) :
    Reads [] (fun t => [t]) (importStatement self) := by
  refine reads_ask (by simp) fun from_ => reads_ask (by simp) fun next => ?_
  refine reads_unless fails_unexpected.moves (fun _ => ?_) ()
  refine reads_then (reads_expression hself) fun t => reads_move (by simp) fun _ => ?_
  exact reads_nodeFrom _ rfl (.refl _)

theorem reads_awaitStatement? (hself : Reading self) :
    Reads [] Option.toList (awaitStatement? self) := by
  refine reads_ask (by simp) fun from_ => reads_ask (by simp) fun c => ?_
  refine reads_when (by simp) (fun _ => reads_ask (by simp) fun _ => ?_) ()
  refine reads_ite ?_ (reads_pure (.refl _))
  refine reads_move (by simp) fun _ => reads_ask (by simp) fun next => reads_ite ?_ ?_
  · exact reads_map (reads_usingStatement hself from_)
  · refine reads_then (reads_awaitOperand hself from_) fun waited => ?_
    refine reads_bind (reads_within (fun _ => rfl) (reads_operators hself 0 waited)) fun t => ?_
    exact reads_move (by simp) fun _ => reads_map (reads_nodeFrom _ rfl (.refl _))

theorem reads_declarationStatement? (hself : Reading self) (declarations : Bool) :
    Reads [] Option.toList (declarationStatement? self declarations) := by
  intro lo s hlo
  refine goes_start fun hstart => goes_ask (by simp) fun _ => ?_
  have hle := Nat.le_trans hlo.le hstart
  have hfunction (s₁ : State) (hs₁ : s.Past s₁) (isAsync : Bool) :
      Goes s₁ (some <$> functionDeclaration self s.scan.start isAsync) fun r s' =>
        OwnSpans s'.Quiet lo s'.lastStop r.toList :=
    goes_map (goes_functionDeclaration hself hle hs₁.start_le isAsync)
  refine goes_ordered fun hs => ?_
  split
  · dsimp only
    split
    · exact hfunction s (.refl hs) false
    · exact (moves_complain _).goes fun _ s₁ hs₁ => hfunction s₁ hs₁ false
  · refine goes_ask (by simp) fun _ => ?_
    have hclass : Reads [] Option.toList (some <$> classDeclaration self) :=
      reads_map (reads_classDeclaration hself)
    split
    · exact reads_unless (by simp) (fun _ => hclass) () lo s hlo
    · refine goes_ask (by simp) fun _ => ?_
      split
      · exact moves_advance.goes fun _ s₁ hs₁ => hfunction s₁ hs₁ true
      · refine (?_ : Reads [] Option.toList _) lo s hlo
        refine reads_ask (by simp) fun _ => reads_ite ?_ (reads_ask (by simp) fun how => ?_)
        · refine reads_ask (by simp) fun next => reads_ask (by simp) fun c => ?_
          exact reads_ite (reads_map (reads_usingStatement hself _)) (reads_pure (.refl _))
        · split
          · refine reads_ite ?_ (reads_pure (.refl _))
            exact reads_map (reads_variableStatement hself _)
          · exact reads_pure (.refl _)

theorem reads_keywordStatement? (hself : Reading self) (declarations : Bool) (word : String) :
    Reads [] Option.toList (keywordStatement? self declarations word) := by
  have hsome {p : Parse Tree} (hp : Reads [] (fun t => [t]) p) :
      Reads [] Option.toList (some <$> p) :=
    reads_map hp
  refine reads_ask (by simp) fun from_ => reads_ite ?_ ?_
  · exact reads_ask (by simp) fun c => hsome (reads_ifStatement hself c.budget)
  refine reads_ite (hsome (reads_forStatement hself)) ?_
  refine reads_ite (hsome (reads_whileStatement hself)) ?_
  refine reads_ite (hsome (reads_doStatement hself)) ?_
  refine reads_ite (hsome (reads_returnStatement hself)) ?_
  refine reads_ite (hsome (reads_throwStatement hself)) ?_
  refine reads_ite (hsome (reads_tryStatement hself)) ?_
  refine reads_ite (hsome (reads_strayClauses hself)) ?_
  refine reads_ite (hsome (reads_switchStatement hself)) ?_
  refine reads_ite (hsome (reads_withStatement hself)) ?_
  refine reads_ite (hsome (reads_jumpStatement true)) ?_
  refine reads_ite (hsome (reads_jumpStatement false)) ?_
  refine reads_ite (hsome (reads_importStatement hself)) ?_
  refine reads_ite fails_unexpected.reads (reads_ite ?_ (reads_ite ?_ ?_))
  · refine reads_move (by simp) fun _ => reads_move (by simp) fun _ => ?_
    exact hsome (reads_nodeFrom _ rfl (.refl _))
  · refine reads_ask (by simp) fun c => reads_ite (reads_awaitStatement? hself) ?_
    exact reads_pure (.refl _)
  · exact reads_declarationStatement? hself declarations

theorem reads_statement (hself : Reading self) (declarations : Bool) :
    Reads [] (fun t => [t]) (statement self declarations) := by
  refine reads_ask (by simp) fun from_ => reads_ask (by simp) fun t => ?_
  split
  · exact reads_blockStatement hself
  · exact reads_move (by simp) fun _ => reads_nodeFrom _ rfl (.refl _)
  · exact reads_expressionStatement hself
  · refine reads_bind (reads_keywordStatement? hself declarations _) fun found => ?_
    cases found with
    | some t => exact reads_pure (.refl _)
    | none => exact reads_expressionStatement hself
  · exact reads_expressionStatement hself

end

end ModuleAssets.Syntax.Parse
