import ModuleAssets.Proofs.Syntax.Grammar.Function
import ModuleAssets.Syntax.Grammar.Expression
/-!
# Parsing — expressions, and arrow functions beside their items

Most expressions are put together from what is read one after another. An arrow
function is read in part before it is known to be one: its parameters are items in
parentheses that are turned into patterns. Where an arrow comes so late that the
items are kept as well, there is only one of them, which is a name: in all other
cases the parser gives up, so that no owner gets into the tree twice.
-/

namespace ModuleAssets.Syntax.Parse

open ModuleAssets.Syntax.Tree

section

variable {self : Rules} {s : State} {lo : Nat}

theorem reads_expression (hself : Reading self) : Reads [] (fun t => [t]) (expression self) := by
  refine reads_then (hself _) fun first => reads_ask (by simp) fun _ => reads_ite ?_ ?_
  · refine reads_ask (by simp) fun c => ?_
    have hrest : Reads [] id (repeatWhile (eatMark ",") (self .assignment) c.budget) := by
      have hlist := reads_repeatWhile (Eats.moves (eats_eatMark ",")) (hself .assignment) c.budget
      simp only [List.flatMap_singleton'] at hlist
      exact hlist
    exact reads_then hrest fun rest => reads_nodeFrom _ rfl (.refl _)
  · exact reads_pure (.refl _)

theorem reads_freeExpression (hself : Reading self) :
    Reads [] (fun t => [t]) (freeExpression self) :=
  reads_within (fun _ => rfl) (reads_expression hself)

theorem reads_spreadable (hself : Reading self) : Reads [] (fun t => [t]) (spreadable self) := by
  refine reads_ask (by simp) fun _ => reads_move (by simp) fun _ => reads_ite ?_ (hself _)
  exact reads_then (hself _) fun value => reads_nodeFrom _ rfl (.refl _)

theorem reads_arguments (hself : Reading self) : Reads [] id (arguments self) := by
  refine reads_move (by simp) fun _ => reads_within (fun _ => rfl) (reads_ask (by simp) fun c => ?_)
  have hlist := reads_listUntil ")" (reads_spreadable hself) c.budget
  simp only [List.flatMap_singleton'] at hlist
  exact reads_bind hlist fun r => reads_pure (.refl _)

/-! ## Operators between operands -/

theorem reads_binaryStep (hself : Reading self) (strength : Nat) (left : Tree) :
    Reads [left] (fun r => [r.getD left]) (binaryStep self strength left) := by
  refine reads_ask (by simp) fun t => reads_ask (by simp) fun c => ?_
  split
  · exact reads_pure (.refl _)
  · rename_i op strength' _
    refine reads_ite (reads_pure (.refl _)) (reads_move (by simp) fun _ => ?_)
    refine reads_when (by simp) (fun _ => ?_) ()
    refine reads_then (hself _) fun right => ?_
    have hnode : Reads ([left] ++ [right]) (fun r => [r.getD left])
        (do return some (← nodeFrom left.span.start (.binary op) [left, right])) :=
      reads_bind (reads_nodeFrom _ rfl (.refl _)) fun t => reads_pure (.refl _)
    refine reads_ite ?_ (reads_when (by simp) (fun _ => hnode) ())
    refine reads_move (moves_forIn _ (fun side _ => ?_) _) fun _ => hnode
    exact moves_when (by simp) (fun _ => by simp) ()

theorem reads_operators (hself : Reading self) (strength : Nat) (left : Tree) :
    Reads [left] (fun t => [t]) (operators self strength left) :=
  reads_ask (by simp) fun _ => reads_iterate (reads_binaryStep hself strength) _ _

theorem reads_lateOperators (hself : Reading self) (left : Tree) :
    Reads [left] (fun t => [t]) (lateOperators self left) :=
  reads_ask (by simp) fun _ => reads_move (by simp) fun _ => reads_operators hself 0 left

/-! ## Arrow functions -/

@[simp]
theorem asks_arrowMayStart (offset : Nat) : Asks (arrowMayStart offset) :=
  fun _ _ => ⟨_, rfl⟩

/-- **The rest of an arrow function**, whose parameters have no owners but those of
items that end before its arrow. The items are not kept. -/
theorem goes_arrowFunction (hself : Reading self) {from_ hi : Nat} (isAsync : Bool)
    {items params : List Tree} (hitems : OwnSpans s.Quiet lo hi items)
    (hparams : DrawsFrom params items) (hlo : lo ≤ from_) (hfrom : from_ < s.lastStop)
    (hhi : hi < s.lastStop) :
    Goes s (arrowFunction self from_ isAsync params) fun t s' =>
      OwnSpans s'.Quiet lo s'.lastStop [t] := by
  have hbody : Reads [] (fun t => [t]) (within (·.inBody isAsync false) do
      if ← isMark "\x7b" then functionBody self false params else self .assignment) :=
    reads_within (fun _ => rfl) (reads_ask (by simp) fun _ =>
      reads_ite (reads_functionBody hself _ _) (hself _))
  refine goes_bind (hbody _ s (.nil (Nat.le_refl _))) fun body s₁ hs₁ h => goes_nodeFrom ?_
  exact (hitems.weaken hs₁.quiet).arrow hparams h hlo hfrom hhi

theorem owners_of_isNameItem {item : Tree} (h : isNameItem item = true) : item.owners = [] := by
  unfold isNameItem at h
  split at h
  · rfl
  · rfl
  · exact absurd h Bool.false_ne_true

theorem goes_withLateArrow (hself : Reading self) {from_ : Nat} {items : List Tree}
    (hitems : OwnSpans s.Quiet lo s.lastStop items) (hlo : lo ≤ from_) (hfrom : from_ ≤ s.scan.start) :
    Goes s (withLateArrow self from_ items) fun ts s' => OwnSpans s'.Quiet lo s'.lastStop ts := by
  refine goes_ordered fun hs => goes_bind (eats_eatMark "=>" s) fun isArrow s₁ hs₁ hlt => ?_
  have hkept : Goes s₁ (pure items) fun ts s' => OwnSpans s'.Quiet lo s'.lastStop ts :=
    goes_pure fun _ => hitems.past hs₁
  split
  · rename_i harrow
    have hpassed := hlt harrow
    have hstop := hs.lastStop_le_start
    split
    · split
      · rename_i item hname
        refine goes_bind (keeps_toParameters none [item] s₁) fun params s₂ hs₂ hparams => ?_
        have hnext := hs₂.lastStop_le
        have hkept := hitems.weaken (hs₁.trans hs₂).quiet
        refine goes_bind (goes_arrowFunction hself false hkept hparams hlo (by omega) (by omega))
          fun function s₃ _ h => goes_pure fun _ => h.of_draws (.of_eq (by
            rw [ownersIn, owners_of_isNameItem hname]
            rfl))
      · exact hkept
    · exact (fails_abandon _).goes
  · exact hkept

theorem reads_parenItems (hself : Reading self) (earlier : List Tree) (fuel : Nat) :
    Reads earlier (fun r => r.1) (parenItems self earlier fuel) := by
  induction fuel generalizing earlier with
  | zero => exact fails_unexpected.reads
  | succ fuel ih =>
    intro lo s hearlier
    rw [parenItems]
    refine (Eats.moves (by simp)).goes fun _ s₁ hs₁ => ?_
    have hearlier₁ := hearlier.past hs₁
    split
    · exact goes_pure fun _ => hearlier₁
    · refine goes_start fun hstart => ?_
      have hitem := (reads_spreadable hself).after earlier lo s₁ hearlier₁
      refine goes_bind hitem fun item s₂ hs₂ hitems => ?_
      have hlo : lo ≤ s₁.scan.start :=
        Nat.le_trans hearlier.le (Nat.le_trans hs₁.lastStop_le hstart)
      refine goes_bind (goes_withLateArrow hself hitems hlo hs₂.start_le) fun items s₃ _ h => ?_
      have hrest : Reads items (fun r => r.1) (do
          if ← eatMark ")" then return (items, none)
          let comma ← start
          expectMark ","
          if ← eatMark ")" then return (items, some comma)
          parenItems self items fuel) := by
        refine reads_move (by simp) fun _ => reads_ite (reads_pure (.refl _)) ?_
        refine reads_ask (by simp) fun _ => reads_move (by simp) fun _ => ?_
        exact reads_move (by simp) fun _ => reads_ite (reads_pure (.refl _)) (ih items)
      exact hrest lo s₃ h

@[simp]
theorem moves_checkNoDefaults (t : Tree) : Moves (checkNoDefaults t) := by
  refine moves_ite (moves_bind (moves_forIn _ (fun m _ => ?_) _) fun _ => moves_pure) moves_pure
  exact moves_when (by simp) (fun _ => by simp) ()

@[simp]
theorem moves_checkNotSpread (t : Tree) : Moves (checkNotSpread t) := by
  unfold checkNotSpread
  split
  · simp
  · simp

/-- The arrow is next, and the function is alone. -/
theorem goes_parenArrow (hself : Reading self) {from_ : Nat} (isAsync mayBeArrow : Bool)
    {items : List Tree} (trailing : Option Nat) (harrow : s.scan.token.isMark "=>" = true)
    (hitems : OwnSpans s.Quiet lo s.lastStop items) (hlo : lo ≤ from_) (hfrom : from_ ≤ s.scan.start) :
    Goes s (parenArrow self from_ isAsync mayBeArrow items trailing) fun t s' =>
      OwnSpans s'.Quiet lo s'.lastStop [t] := by
  have hne : s.scan.token ≠ .endOfText := by
    intro heq
    rw [heq, not_isMark_endOfText] at harrow
    exact Bool.false_ne_true harrow
  refine goes_ask (by simp) fun _ => ?_
  dsimp only
  split
  · exact (fails_blame _).bind.goes
  · refine goes_ordered fun hs => goes_bind goes_advance fun _ s₁ hs₁ hlt => ?_
    refine goes_bind (keeps_toParameters trailing items s₁) fun params s₂ hs₂ hparams => ?_
    have hstop := hs.lastStop_le_start
    have hpassed := hlt hne
    have hnext := hs₂.lastStop_le
    have hkept := hitems.weaken (hs₁.trans hs₂).quiet
    refine goes_bind (goes_arrowFunction hself isAsync hkept hparams hlo (by omega) (by omega))
      fun t s₃ _ h => ?_
    have hrest : Reads [t] (fun t => [t]) (do
        let braced := t.parts.getLast?.any (·.kind == .functionBody)
        if braced && ((← token).markedOp?).isSome then lateOperators self t else return t) :=
      reads_ask (by simp) fun _ =>
        reads_ite (reads_lateOperators hself t) (reads_pure (.refl _))
    exact hrest lo s₃ h

/-- What starts with parentheses, perhaps after a word, which is no owner. -/
theorem goes_parenthesized (hself : Reading self) (async : Option Tree) (hlo : lo ≤ s.lastStop)
    (hasync : ∀ t ∈ async, lo ≤ t.span.start ∧ t.span.start ≤ s.scan.start ∧ t.owners = []) :
    Goes s (parenthesized self async) fun t s' => OwnSpans s'.Quiet lo s'.lastStop [t] := by
  refine goes_start fun hstart => ?_
  have hfrom : lo ≤ (async.map (·.span.start)).getD s.scan.start ∧
      (async.map (·.span.start)).getD s.scan.start ≤ s.scan.start := by
    cases async with
    | none => exact ⟨Nat.le_trans hlo hstart, Nat.le_refl _⟩
    | some t => exact ⟨(hasync t rfl).1, (hasync t rfl).2.1⟩
  dsimp only
  generalize (async.map (·.span.start)).getD s.scan.start = from_ at hfrom
  refine goes_ask (by simp) fun mayBeArrow => ?_
  refine (Takes.moves (by simp)).goes fun _ s₁ hs₁ => ?_
  have hread : Reads [] (fun r => r.1) (within ({ · with allowIn := true }) do
      parenItems self [] (← read).budget) :=
    reads_within (fun _ => rfl) (reads_ask (by simp) fun _ => reads_parenItems hself [] _)
  have hlo₁ : OwnSpans s₁.Quiet lo s₁.lastStop [] := .nil (Nat.le_trans hlo hs₁.lastStop_le)
  refine goes_bind (hread lo s₁ hlo₁) fun (items, trailing) s₂ hs₂ hitems => ?_
  refine goes_isMark ?_
  split
  · rename_i harrow
    exact goes_parenArrow hself _ _ _ harrow hitems hfrom.1
      (Nat.le_trans hfrom.2 (hs₁.trans hs₂).start_le)
  · have hcheck (t : Tree) (u : PUnit) :
        Moves (checkNoDefaults t >>= fun _ => pure (ForInStep.yield u)) :=
      moves_bind (by simp) fun _ => moves_pure
    refine (moves_forIn items hcheck _).goes fun _ s₃ hs₃ => ?_
    have hkept := hitems.past hs₃
    cases async with
    | some callee =>
      have hcallee := (hasync callee rfl).2.2
      exact goes_nodeFrom (.plain rfl (hkept.of_draws (.of_eq (by rw [ownersIn, hcallee]; rfl))))
    | none =>
      have hcheck (t : Tree) (u : PUnit) :
          Moves (checkNotSpread t >>= fun _ => pure (ForInStep.yield u)) :=
        moves_bind (by simp) fun _ => moves_pure
      refine (moves_forIn items hcheck _).goes fun _ s₄ hs₄ => ?_
      have hkept := hkept.past hs₄
      dsimp only
      split
      · exact (fails_blame _).goes
      · exact goes_nodeFrom (hkept.plain rfl)
      · exact goes_nodeFrom ((hkept.plain rfl).plain rfl)

/-! ## Templates -/

theorem goes_templateRest (hself : Reading self) (tagged : Bool) (from_ fuel : Nat) {c : Cursor}
    (hlo : lo ≤ s.lastStop) (hc : s.Ordered → s.scan.start ≤ c.offset) :
    Goes s (templateRest self tagged fuel from_ c) fun r s' => OwnSpans s'.Quiet lo s'.lastStop r.2 := by
  induction fuel generalizing s lo c from_ with
  | zero => exact fails_unexpected.goes
  | succ fuel ih =>
    rw [templateRest]
    split
    · exact (fails_blame _).goes
    · rename_i piece hpiece
      have hmove : Goes s (moveTo piece.after) fun _ s' => s'.lastStop = piece.after.offset :=
        goes_moveTo fun hs => Nat.le_trans (hc hs) (Nat.le_of_lt (lt_of_scanPiece? hpiece))
      extract_lets written rest
      have hrest : Goes s (rest ()) fun r s' => OwnSpans s'.Quiet lo s'.lastStop r.2 := by
        refine goes_bind hmove fun _ s₁ hs₁ _ => ?_
        have hlo₁ := Nat.le_trans hlo hs₁.lastStop_le
        split
        · exact goes_pure fun _ => .nil hlo₁
        · refine goes_bind (reads_freeExpression hself lo s₁ (.nil hlo₁)) fun value s₂ _ hvalue => ?_
          refine goes_ask (by simp) fun brace => goes_ask (by simp) fun closed => ?_
          have hnext := ih brace (Nat.le_refl s₂.lastStop) fun hs => Nat.le_trans hs.start_le hs.here_le
          dsimp only
          split
          · exact goes_get (goes_bind hnext fun r s₃ hs₃ hr => goes_pure fun _ =>
              (hvalue.weaken hs₃.quiet).append hr)
          · exact fails_unexpected.bind.goes
      split
      · split
        · exact hrest
        · exact (fails_fail _).bind.goes
      · exact hrest

theorem reads_template (hself : Reading self) (tagged : Bool) :
    Reads [] (fun t => [t]) (template self tagged) := by
  intro lo s hlo
  refine goes_ask (by simp) fun from_ => goes_ask (by simp) fun c => goes_get ?_
  refine goes_bind (goes_templateRest hself tagged from_ _ hlo.le fun hs => ?_) fun r s₁ _ hr => ?_
  · exact Nat.le_trans hs.start_le hs.here_le
  · refine goes_nodeFrom (hr.plain ?_)
    cases tagged <;> rfl

/-! ## Primary expressions -/

theorem reads_arrayItems (hself : Reading self) (from_ fuel : Nat) :
    Reads [] id (arrayItems self from_ fuel) := by
  induction fuel with
  | zero => exact fails_unexpected.reads
  | succ fuel ih =>
    rw [arrayItems]
    refine reads_move (by simp) fun _ => reads_ite (reads_pure (.refl _)) ?_
    refine reads_ask (by simp) fun here => reads_move (by simp) fun _ => ?_
    split
    · refine reads_bind ih fun items => reads_pure ?_
      exact .of_eq rfl
    · refine reads_then (reads_spreadable hself) fun t => reads_move (by simp) fun _ => ?_
      refine reads_ite (reads_pure (.refl _)) ?_
      refine reads_ask (by simp) fun _ => reads_move (by simp) fun _ => reads_ask (by simp) fun _ => ?_
      refine reads_when (by simp) (fun _ => ?_) ()
      exact reads_then ih fun items => reads_pure (.refl _)

theorem reads_arrayLiteral (hself : Reading self) : Reads [] (fun t => [t]) (arrayLiteral self) := by
  refine reads_ask (by simp) fun from_ => reads_move (by simp) fun _ => ?_
  have hitems : Reads [] id (within ({ · with allowIn := true }) do
      arrayItems self from_ (← read).budget) :=
    reads_within (fun _ => rfl) (reads_ask (by simp) fun _ => reads_arrayItems hself _ _)
  exact reads_then hitems fun items => reads_nodeFrom _ rfl (.refl _)

theorem reads_regex : Reads [] (fun t => [t]) regex := by
  intro lo s hlo
  refine goes_start fun _ => goes_get ?_
  extract_lets here
  refine goes_ask (by simp) fun c => ?_
  split
  · exact (fails_fail _).goes
  · rename_i flags hflags
    extract_lets rest check
    have hrest (s₁ : State) (hlo₁ : lo ≤ s₁.lastStop) (hs₁ : s₁.scan = s.scan) :
        Goes s₁ (rest ()) fun t s' => OwnSpans s'.Quiet lo s'.lastStop [t] := by
      have hmove : Goes s₁ (moveTo flags.after) fun _ s' => s'.lastStop = flags.after.offset := by
        refine goes_moveTo fun hs => ?_
        have hstart := hs.start_le
        have hlt : here.offset + 1 < flags.after.offset := lt_of_scanRegex? hflags
        rw [hs₁] at hstart ⊢
        have hhere : here.offset = s.scan.here.offset := rfl
        omega
      refine goes_bind hmove fun _ s₂ hs₂ _ => ?_
      exact goes_nodeFrom (.plain rfl (.nil (Nat.le_trans hlo₁ hs₂.lastStop_le)))
    have hcheck : Goes s (check ()) fun t s' => OwnSpans s'.Quiet lo s'.lastStop [t] := by
      refine goes_rest (rests_forIn _ (fun offset u => ?_) _) fun _ s₁ hs₁ hscan => ?_
      · exact rests_bind (rests_complain offset) fun _ => rests_pure
      · have hlo₁ := Nat.le_trans hlo.le hs₁.lastStop_le
        split
        · exact hrest s₁ hlo₁ hscan
        · exact goes_rest (rests_complain _) fun _ s₂ hs₂ hscan' =>
            hrest s₂ (Nat.le_trans hlo₁ hs₂.lastStop_le) (hscan'.trans hscan)
    split
    · exact (fails_fail _).bind.goes
    · exact hcheck

theorem goes_oneToken {kind : Kind} :
    Goes s (oneToken kind) fun t _ => ∃ stop, t = .node kind ⟨s.scan.start, stop⟩ [] :=
  goes_start fun _ => moves_advance.goes fun _ _ _ => goes_nodeFrom ⟨_, rfl⟩

theorem reads_oneToken {kind : Kind} (hkind : isOwner kind = false) :
    Reads [] (fun t => [t]) (oneToken kind) :=
  reads_ask (by simp) fun _ => reads_move (by simp) fun _ => reads_nodeFrom _ hkind (.refl _)

/-- An arrow function whose parameters were not kept. -/
theorem goes_soleArrow (hself : Reading self) {from_ : Nat} (isAsync : Bool) {params : List Tree}
    (hparams : ownersIn params = []) (hlo : lo ≤ from_) (hfrom : from_ < s.lastStop) :
    Goes s (arrowFunction self from_ isAsync params) fun t s' => OwnSpans s'.Quiet lo s'.lastStop [t] :=
  goes_arrowFunction hself isAsync (.nil (Nat.le_refl lo)) (.of_nil hparams []) hlo
    hfrom (Nat.lt_of_le_of_lt hlo hfrom)

/-- A word is no owner, and it is kept as it is or starts an arrow function. -/
theorem goes_asyncArrow (hself : Reading self) {async : Tree} (hasync : async.owners = [])
    (hlo : lo ≤ async.span.start) (hfrom : async.span.start ≤ s.scan.start)
    (hstop : lo ≤ s.lastStop) :
    Goes s (asyncArrow self async) fun t s' => OwnSpans s'.Quiet lo s'.lastStop [t] := by
  refine goes_ask (by simp) fun c => goes_ask (by simp) fun _ => goes_ask (by simp) fun _ => ?_
  have hkept (s₁ : State) (hs₁ : s.Past s₁) :
      Goes s₁ (pure async : Parse Tree) fun t s' => OwnSpans s'.Quiet lo s'.lastStop [t] :=
    goes_pure fun _ => (OwnSpans.nil (Nat.le_trans hstop hs₁.lastStop_le)).of_draws
      (.of_nil ((ownersIn_singleton async).trans hasync) [])
  refine goes_ordered fun hs => ?_
  split
  · split
    · exact hkept s (.refl hs)
    · exact (moves_complain _).goes fun _ s₁ hs₁ => hkept s₁ hs₁
  · refine goes_bind (reads_bindingName true lo s (.nil hstop)) fun param s₁ hs₁ hparam => ?_
    refine goes_ordered fun hs' => goes_bind (takes_expectMark "=>" s₁) fun _ s₂ hs₂ hlt => ?_
    have hbefore := hs'.lastStop_le_start
    have hstart := hs₁.start_le
    have hkept := hparam.weaken hs₂.quiet
    exact goes_arrowFunction hself true hkept (.refl _) hlo (by omega) (by omega)

theorem reads_nameExpression (hself : Reading self) :
    Reads [] (fun t => [t]) (nameExpression self) := by
  intro lo s hlo
  refine goes_start fun hstart => goes_ask (by simp) fun mayBeArrow => ?_
  refine goes_ask (by simp) fun _ => goes_ask (by simp) fun _ => ?_
  extract_lets rest
  have hrest : Goes s (rest ()) fun t s' => OwnSpans s'.Quiet lo s'.lastStop [t] := by
    refine goes_ask (by simp) fun c => (moves_name _ _).goes fun n s₁ hs₁ => goes_node ?_
    have hle := Nat.le_trans hlo.le hs₁.lastStop_le
    have hname (s₂ : State) (hs₂ : s₁.Past s₂) :
        Goes s₂ (pure (.node (.identifier n) ⟨s.scan.start, s₁.lastStop⟩ []) : Parse Tree) fun t s' =>
          OwnSpans s'.Quiet lo s'.lastStop [t] :=
      goes_pure fun _ => .plain rfl (.nil (Nat.le_trans hle hs₂.lastStop_le))
    refine goes_ask (by simp) fun _ => goes_ordered fun hs => ?_
    split
    · exact hname s₁ (.refl hs)
    · refine goes_ask (by simp) fun _ => ?_
      split
      · exact goes_asyncArrow hself rfl (Nat.le_trans hlo.le hstart) hs₁.start_le hle
      · refine goes_bind (eats_eatMark "=>" s₁) fun isArrow s₂ hs₂ hlt => ?_
        split
        · rename_i harrow
          have hpassed := hlt harrow
          refine (moves_checkBound _ _).goes fun _ s₃ hs₃ => ?_
          have hfrom := hs₁.start_le
          have hstop := hs₃.lastStop_le
          exact goes_soleArrow hself false rfl (Nat.le_trans hlo.le hstart) (by omega)
        · exact hname s₂ hs₂
  split
  · exact hrest
  · exact fails_unstarted.bind.goes

theorem reads_asyncExpression (hself : Reading self) :
    Reads [] (fun t => [t]) (asyncExpression self) := by
  intro lo s hlo
  refine goes_start fun hstart => goes_ask (by simp) fun next => ?_
  have hle := Nat.le_trans hlo.le hstart
  have hname := reads_nameExpression hself lo s hlo
  split
  · exact hname
  · split
    · exact moves_advance.goes fun _ s₁ hs₁ => goes_functionExpression hself hle hs₁.start_le true
    · refine goes_ask (by simp) fun _ => ?_
      split
      · refine goes_bind goes_oneToken fun async s₁ hs₁ hasync => ?_
        obtain ⟨stop, rfl⟩ := hasync
        refine goes_parenthesized hself _ (Nat.le_trans hlo.le hs₁.lastStop_le) fun t ht => ?_
        obtain rfl := Option.mem_some.1 ht
        exact ⟨hle, hs₁.start_le, rfl⟩
      · exact hname

theorem reads_wordExpression (hself : Reading self) (word : String) :
    Reads [] (fun t => [t]) (wordExpression self word) := by
  refine reads_ite (reads_oneToken rfl) (reads_ite (reads_oneToken rfl) ?_)
  refine reads_ite (reads_oneToken rfl) (reads_ite (reads_oneToken rfl) ?_)
  refine reads_ite (fun lo s hlo => goes_start fun hstart => ?_) ?_
  · exact goes_functionExpression hself (Nat.le_trans hlo.le hstart) (Nat.le_refl _) false
  · refine reads_ite (reads_classExpression hself) (reads_ite ?_ (reads_nameExpression hself))
    exact reads_asyncExpression hself

theorem reads_primary (hself : Reading self) : Reads [] (fun t => [t]) (primary self) := by
  have hparen : Reads [] (fun t => [t]) (parenthesized self none) := fun lo s hlo =>
    goes_parenthesized hself none hlo.le fun t ht => absurd ht (Option.not_mem_none t)
  refine reads_ask (by simp) fun from_ => reads_ask (by simp) fun t => ?_
  split
  · exact reads_nameExpression hself
  · exact reads_wordExpression hself _
  · exact reads_oneToken rfl
  · exact reads_oneToken rfl
  · exact reads_oneToken rfl
  · exact hparen
  · exact reads_arrayLiteral hself
  · exact reads_objectLiteral hself
  · exact reads_template hself false
  · exact reads_regex
  · exact reads_regex
  · exact reads_move takes_hiddenName.moves fun n => reads_nodeFrom _ rfl (.refl _)
  · exact fails_unstarted.reads

/-! ## Subscripts -/

theorem reads_namedMember (link : Option Bool) (object : Tree) :
    Reads [object] (fun t => [t]) (namedMember link object) := by
  refine reads_ask (by simp) fun _ => reads_ite ?_ ?_
  · refine reads_move takes_hiddenName.moves fun n => reads_nodeFrom _ ?_ (.refl _)
    cases link <;> rfl
  · refine reads_move takes_anyWord.moves fun n => reads_nodeFrom _ ?_ (.refl _)
    cases link <;> rfl

theorem reads_keyedMember (hself : Reading self) (link : Option Bool) (object : Tree) :
    Reads [object] (fun t => [t]) (keyedMember self link object) := by
  refine reads_move (by simp) fun _ => reads_then (reads_freeExpression hself) fun key => ?_
  refine reads_move (by simp) fun _ => reads_nodeFrom _ ?_ (.refl _)
  cases link <;> rfl

theorem reads_callOf (hself : Reading self) (link : Option Bool) (callee : Tree) :
    Reads [callee] (fun t => [t]) (callOf self link callee) := by
  refine reads_then (reads_arguments hself) fun args => reads_nodeFrom _ ?_ (.refl _)
  cases link <;> rfl

theorem reads_guardedLink (hself : Reading self) (object : Tree) :
    Reads [object] (fun t => [t]) (guardedLink self object) := by
  refine reads_ask (by simp) fun _ => reads_ite (reads_callOf hself _ _) ?_
  refine reads_ask (by simp) fun _ => reads_ite (reads_keyedMember hself _ _) ?_
  exact reads_namedMember _ _

theorem reads_subscript (hself : Reading self) (calls : Bool) (object : Tree) :
    Reads [object] (fun r => [r.getD object]) (subscript self calls object) := by
  refine reads_ask (by simp) fun t => ?_
  have hnone : Reads [object] (fun r => [r.getD object]) (pure none : Parse (Option Tree)) :=
    reads_pure (.refl _)
  split
  · exact reads_move (by simp) fun _ => reads_map (reads_guardedLink hself object)
  · exact reads_map (reads_keyedMember hself _ object)
  · exact reads_ite (reads_map (reads_callOf hself _ object)) hnone
  · exact reads_move (by simp) fun _ => reads_map (reads_namedMember _ object)
  · refine reads_then (reads_template hself true) fun pieces => reads_when (by simp) (fun _ => ?_) ()
    exact reads_map (reads_nodeFrom _ rfl (.refl _))
  · exact hnone

theorem reads_subscripts (hself : Reading self) (calls : Bool) (t : Tree) :
    Reads [t] (fun t => [t]) (subscripts self calls t) :=
  reads_ask (by simp) fun _ => reads_iterate (reads_subscript hself calls) _ _

theorem reads_superExpression (hself : Reading self) (calls : Bool) :
    Reads [] (fun t => [t]) (superExpression self calls) := by
  refine reads_bind (reads_oneToken rfl) fun t => ?_
  extract_lets checked
  have hchecked (member : Tree) : Reads [member] (fun t => [t]) (checked member) := by
    refine reads_ask (by simp) fun _ => reads_unless (fails_blame _).moves (fun _ => ?_) ()
    refine reads_when fails_unexpected.moves (fun _ => ?_) ()
    exact reads_pure (.refl _)
  refine reads_ask (by simp) fun t => ?_
  split
  · exact reads_move (by simp) fun _ => reads_bind (reads_namedMember none _) hchecked
  · exact reads_bind (reads_keyedMember hself none _) hchecked
  · exact reads_ite (reads_callOf hself none _) fails_unexpected.reads
  · exact fails_unexpected.reads

theorem reads_importExpression (hself : Reading self) :
    Reads [] (fun t => [t]) (importExpression self) := by
  refine reads_bind (reads_oneToken rfl) fun t => ?_
  extract_lets from_ called call
  have hcall (u : Unit) : Reads [t] (fun t => [t]) (call u) := by
    refine reads_ask (by simp) fun _ => reads_unless fails_unexpected.moves (fun _ => ?_) ()
    exact reads_callOf hself none t
  refine reads_move (by simp) fun _ => reads_ite ?_ (hcall ())
  refine reads_move takes_anyWord.moves fun n => reads_ite ?_ ?_
  · refine reads_ask (by simp) fun _ => reads_when (by simp) (fun _ => ?_) ()
    exact reads_nodeFrom _ rfl (.of_nil rfl _)
  · exact reads_unless fails_unexpected.moves hcall ()

theorem reads_newExpression (hself : Reading self) :
    Reads [] (fun t => [t]) (newExpression self) := by
  refine reads_ask (by simp) fun from_ => reads_move (by simp) fun _ => ?_
  refine reads_move (by simp) fun _ => reads_ite ?_ ?_
  · refine reads_move (by simp) fun _ => reads_ask (by simp) fun _ => ?_
    refine reads_unless (by simp) (fun _ => ?_) ()
    exact reads_bind (reads_nodeFrom _ rfl (.refl _)) fun t => reads_subscripts hself false t
  · refine reads_then (hself _) fun callee => reads_when (fails_blame _).moves (fun _ => ?_) ()
    refine reads_ask (by simp) fun _ => reads_ite ?_ (reads_nodeFrom _ rfl (.refl _))
    refine reads_then (reads_arguments hself) fun args => ?_
    exact reads_bind (reads_nodeFrom _ rfl (.refl _)) fun t => reads_subscripts hself false t

theorem reads_member (hself : Reading self) : Reads [] (fun t => [t]) (member self) := by
  refine reads_ask (by simp) fun _ => reads_ite (reads_newExpression hself) ?_
  refine reads_ask (by simp) fun _ => reads_ite ?_ ?_
  · exact reads_bind (reads_superExpression hself false) fun t => reads_subscripts hself false t
  · refine reads_ask (by simp) fun _ => reads_ite ?_ ?_
    · exact reads_bind (reads_importExpression hself) fun t => reads_subscripts hself false t
    · refine reads_bind (reads_primary hself) fun t => reads_ite (reads_pure (.refl _)) ?_
      exact reads_subscripts hself false t

theorem reads_leftHand (hself : Reading self) : Reads [] (fun t => [t]) (leftHand self) := by
  refine reads_ask (by simp) fun _ => reads_ite ?_ ?_
  · exact reads_bind (reads_superExpression hself true) fun t => reads_subscripts hself true t
  · refine reads_ask (by simp) fun _ => reads_ite ?_ ?_
    · exact reads_bind (reads_importExpression hself) fun t => reads_subscripts hself true t
    · refine reads_bind (reads_member hself) fun t => reads_ite (reads_pure (.refl _)) ?_
      exact reads_subscripts hself true t

/-! ## Operators before and after an operand -/

theorem reads_awaitOperand (hself : Reading self) (from_ : Nat) :
    Reads [] (fun t => [t]) (awaitOperand self from_) := by
  refine reads_ask (by simp) fun c => reads_ask (by simp) fun _ => ?_
  refine reads_when fails_unexpected.moves (fun _ => ?_) ()
  refine reads_ask (by simp) fun _ => reads_ask (by simp) fun _ => reads_ask (by simp) fun _ => ?_
  refine reads_ite (reads_when (by simp) (fun _ => ?_) ()) ?_
  · exact reads_nodeFrom _ rfl (.refl _)
  · refine reads_when (by simp) (fun _ => reads_when (by simp) (fun _ => ?_) ()) ()
    refine reads_when (by simp) (fun _ => reads_then (hself _) fun operand => ?_) ()
    exact reads_nodeFrom _ rfl (.refl _)

theorem reads_unaryOperation (hself : Reading self) (op : UnaryOp) :
    Reads [] (fun t => [t]) (unaryOperation self op) := by
  refine reads_ask (by simp) fun from_ => reads_move (by simp) fun _ => ?_
  have hoperand : Reads [] (fun t => [t]) (do
      recovering (self .unary) fun e => do
        complain e.offset
        pure (missing e.offset)) :=
    reads_recovering (hself _) fun e => reads_move (by simp) fun _ => reads_pure (.of_nil rfl _)
  refine reads_then hoperand fun operand => reads_ask (by simp) fun _ => ?_
  exact reads_when (by simp) (fun _ => reads_nodeFrom _ rfl (.refl _)) ()

/-- An operand that is written to. -/
theorem reads_updated (from_ : Nat) (operand : Tree) {passes : Parse Unit} (hpasses : Moves passes) :
    Reads [operand] (fun t => [t]) (do
      checkUpdated operand
      passes
      nodeFrom from_ .update [operand]) := by
  intro lo s hoperand
  refine goes_bind (goes_checkUpdated operand) fun _ s₁ hs₁ htarget => ?_
  refine hpasses.goes fun _ s₂ hs₂ => ?_
  exact goes_writing rfl (htarget.past hs₂) (hoperand.past (hs₁.trans hs₂))

theorem reads_unaryExpression (hself : Reading self) :
    Reads [] (fun t => [t]) (unaryExpression self) := by
  refine reads_ask (by simp) fun from_ => reads_ask (by simp) fun t => ?_
  split
  · exact reads_unaryOperation hself _
  · refine reads_ite ?_ (reads_ite ?_ ?_)
    · refine reads_move (by simp) fun _ => reads_then (hself _) fun operand => ?_
      exact reads_updated _ operand (moves_pure (a := ()))
    · exact reads_move (by simp) fun _ => reads_awaitOperand hself _
    · refine reads_then (hself _) fun operand => reads_ask (by simp) fun _ => ?_
      refine reads_ite (reads_pure (.refl _)) ?_
      refine reads_ask (by simp) fun _ => reads_ask (by simp) fun _ => ?_
      refine reads_ite ?_ (reads_pure (.refl _))
      exact reads_updated _ operand moves_advance

theorem reads_operandExpression (hself : Reading self) (strength : Nat) :
    Reads [] (fun t => [t]) (operandExpression self strength) :=
  reads_then (hself _) fun t => reads_operators hself strength t

theorem reads_binaryExpression (hself : Reading self) :
    Reads [] (fun t => [t]) (binaryExpression self) := by
  have hrest (left : Tree) : Reads [left] (fun t => [t])
      (if left.kind == .arrow then return left else operators self 0 left) :=
    reads_ite (reads_pure (.refl _)) (reads_operators hself 0 left)
  refine reads_bind (reads_recovering (hself _) fun e => ?_) hrest
  refine reads_ask (by simp) fun t => ?_
  split
  · exact reads_move (by simp) fun _ => (fails_fail _).reads
  · refine reads_ask (by simp) fun c => reads_when (fails_fail _).moves (fun _ => ?_) ()
    refine reads_ask (by simp) fun _ => reads_move (by simp) fun _ => reads_pure ?_
    exact .of_nil rfl _

theorem reads_conditionalExpression (hself : Reading self) :
    Reads [] (fun t => [t]) (conditionalExpression self) := by
  refine reads_ask (by simp) fun from_ => reads_bind (reads_binaryExpression hself) fun test => ?_
  refine reads_ite (reads_pure (.refl _)) (reads_move (by simp) fun _ => ?_)
  refine reads_ite ?_ (reads_pure (.refl _))
  refine reads_then (reads_within (fun _ => rfl) (hself _)) fun yes => reads_move (by simp) fun _ => ?_
  exact reads_then (hself _) fun no => reads_nodeFrom _ rfl (.refl _)

theorem reads_yieldExpression (hself : Reading self) :
    Reads [] (fun t => [t]) (yieldExpression self) := by
  refine reads_ask (by simp) fun from_ => reads_move (by simp) fun _ => ?_
  refine reads_ask (by simp) fun c => reads_when (fails_blame _).moves (fun _ => ?_) ()
  refine reads_ask (by simp) fun _ => reads_ask (by simp) fun _ => reads_ite ?_ ?_
  · exact reads_nodeFrom _ rfl (.refl _)
  · refine reads_move (by simp) fun _ => reads_then (hself _) fun operand => ?_
    exact reads_nodeFrom _ rfl (.refl _)

/-- An expression that is assigned to becomes a pattern and keeps its owners. -/
theorem reads_assignmentExpression (hself : Reading self) :
    Reads [] (fun t => [t]) (assignmentExpression self) := by
  have hassign (from_ : Nat) (op : Option BinaryOp) (left : Tree) {toTarget : Parse Tree}
      (hkeeps : Keeps [left] (fun t => [t]) toTarget)
      (htarget : ∀ s, Goes s toTarget fun t s' => Writable t s') :
      Reads [left] (fun t => [t]) (do
        let target ← toTarget
        advance
        let value ← self .assignment
        nodeFrom from_ (.assign op) [target, value]) := by
    intro lo s hleft
    refine goes_bind ((hkeeps.reads lo s hleft).and (htarget s)) fun target s₁ _ h => ?_
    refine moves_advance.goes fun _ s₂ hs₂ => ?_
    have hvalue := (hself .assignment).after [target] lo s₂ (h.1.past hs₂)
    exact goes_bind hvalue fun value s₃ hs₃ hboth =>
      goes_writing rfl (h.2.past (hs₂.trans hs₃)) hboth
  refine reads_ask (by simp) fun from_ => reads_ask (by simp) fun c => ?_
  refine reads_ask (by simp) fun _ => reads_ite (reads_yieldExpression hself) ?_
  refine reads_ask (by simp) fun t => ?_
  have hmodify : Rests (modify ({ · with arrowStart := if t.startsArrow then some from_ else none })) :=
    fun _ _ => ⟨(), _, rfl, rfl, rfl, id⟩
  refine reads_move hmodify.moves fun _ => reads_bind (reads_conditionalExpression hself) fun left => ?_
  refine reads_ite (reads_pure (.refl _)) (reads_ask (by simp) fun _ => reads_ite ?_ ?_)
  · exact hassign _ _ left (keeps_toTarget left) fun _ => goes_toTarget left
  · refine reads_ask (by simp) fun _ => ?_
    split
    · exact hassign _ _ left (keeps_toSimpleTarget left) fun _ => goes_toSimpleTarget left
    · exact reads_pure (.refl _)

end

end ModuleAssets.Syntax.Parse
