import ModuleAssets.Proofs.Syntax.Grammar.Statement
import ModuleAssets.Syntax.Grammar.Program
/-!
# Parsing — the owners of a program have spans of their own

The rules are nested, and all of them read trees, however deep they may go. So in
the tree of a text that is accepted two nodes that share a span of their own are one
and the same tree.
-/

namespace ModuleAssets.Syntax

open ModuleAssets.Syntax.Tree

namespace Parse

section

variable {self : Rules}

/-! ## Imports and exports -/

@[simp]
theorem moves_exportName : Moves exportName := by
  refine moves_bind (by simp) fun t => ?_
  split
  · exact moves_bind (by simp) fun _ => moves_pure
  · exact moves_map (by simp)

@[simp]
theorem moves_moduleSpecifier : Moves moduleSpecifier := by
  refine moves_bind (by simp) fun t => ?_
  split
  · exact moves_bind (by simp) fun _ => moves_pure
  · exact fails_unexpected.moves

theorem reads_importAttributes (hself : Reading self) : Reads [] id (importAttributes self) := by
  refine reads_ask (by simp) fun _ => reads_ite (reads_pure (.refl _)) ?_
  refine reads_move (by simp) fun _ => reads_move (by simp) fun _ => ?_
  refine reads_ite ?_ (reads_pure (.refl _))
  exact reads_then (reads_objectLiteral hself) fun t => reads_pure (.refl _)

@[simp]
theorem moves_namedImport : Moves namedImport := by
  refine moves_bind (by simp) fun from_ => moves_bind (by simp) fun t => ?_
  refine moves_bind (by simp) fun exported => moves_bind (by simp) fun _ => moves_ite ?_ ?_
  · exact moves_bind (by simp) fun _ => moves_pure
  · split
    · exact moves_pure
    · simp

@[simp]
theorem moves_namespaceImport : Moves namespaceImport :=
  moves_bind (by simp) fun _ => moves_bind (by simp) fun _ => moves_pure

@[simp]
theorem moves_phasedName? (word : String) : Moves (phasedName? word) := by
  refine moves_bind (by simp) fun _ => moves_ite ?_ moves_pure
  refine moves_bind (by simp) fun _ => moves_bind (by simp) fun _ => moves_ite ?_ moves_pure
  exact moves_map (by simp)

@[simp]
theorem moves_defaultImport : Moves defaultImport := by
  refine moves_bind (by simp) fun _ => moves_ite ?_ moves_pure
  refine moves_bind (by simp) fun n => moves_bind (by simp) fun _ => moves_ite moves_pure ?_
  refine moves_bind (by simp) fun phased => moves_bind (by simp) fun _ => ?_
  exact moves_unless (by simp) (fun _ => moves_pure) ()

@[simp]
theorem moves_importClause : Moves importClause := by
  refine moves_bind (by simp) fun (first, isSource) => moves_ite moves_pure ?_
  refine moves_bind (by simp) fun _ => moves_ite ?_ ?_
  · exact moves_bind (by simp) fun _ => moves_pure
  · refine moves_bind (by simp) fun _ => moves_ite ?_ moves_pure
    refine moves_bind (by simp) fun c => ?_
    exact moves_bind (moves_listUntil _ (by simp) _) fun _ => moves_pure

/-- Nothing stands in an import. -/
theorem reads_importDeclaration (hself : Reading self) :
    Reads [] (fun t => [t]) (importDeclaration self) := by
  have hattributes := (reads_importAttributes hself).moves
  have hnode (from_ : Nat) (specifier : Option String) (imports : List Import) :
      Reads [] (fun t => [t]) (nodeFrom from_ (.import_ specifier imports) []) :=
    fun _ _ h => goes_nodeFrom (.ofImport specifier imports h.le)
  refine reads_ask (by simp) fun from_ => reads_move (by simp) fun _ => reads_ask (by simp) fun t => ?_
  split
  · refine reads_move (by simp) fun specifier => reads_move hattributes fun _ => ?_
    exact reads_move (by simp) fun _ => hnode _ _ _
  · refine reads_move (by simp) fun imports => reads_move (by simp) fun _ => ?_
    refine reads_move (by simp) fun specifier => reads_move hattributes fun _ => ?_
    exact reads_move (by simp) fun _ => hnode _ _ _

@[simp]
theorem moves_exportItem : Moves exportItem := by
  refine moves_bind (by simp) fun from_ => moves_bind (by simp) fun t => ?_
  refine moves_bind (by simp) fun _ => moves_bind (by simp) fun _ => ?_
  exact moves_when (by simp) (fun _ => moves_pure) none

theorem reads_defaultExport (hself : Reading self) (from_ : Nat) :
    Reads [] (fun t => [t]) (defaultExport self from_) := by
  intro lo s hlo
  refine goes_start fun hstart => goes_ask (by simp) fun _ => goes_ask (by simp) fun _ => ?_
  have hle := Nat.le_trans hlo.le hstart
  split
  · refine (Eats.moves (by simp)).goes fun isAsync s₁ hs₁ => ?_
    have hfunction := past_functionOf hself isAsync (fun _ => moves_boundName? true) s₁
    refine goes_bind hfunction fun (name, parts) s₂ _ h => goes_node (goes_nodeFrom (.plain rfl ?_))
    have hparts := h.widen (Nat.succ_le_succ hs₁.start_le) (Nat.le_refl _)
    exact (hparts.node (by rfl)).widen hle (Nat.le_refl _)
  · refine (?_ : Reads [] (fun t => [t]) _) lo s hlo
    have hnode (t : Tree) : Reads ([] ++ [t]) (fun t => [t]) (nodeFrom from_ .exportDefault [t]) :=
      reads_nodeFrom _ rfl (.refl _)
    refine reads_ask (by simp) fun _ => reads_ite (reads_then (reads_classExpression hself) hnode) ?_
    refine reads_then (reads_within (fun _ => rfl) (hself _)) fun t => ?_
    exact reads_move (by simp) fun _ => hnode t

theorem reads_exportSource (hself : Reading self) : Reads [] id (exportSource self) := by
  refine reads_move (by simp) fun _ => reads_move (by simp) fun _ => ?_
  refine reads_then (reads_importAttributes hself) fun attributes => reads_move (by simp) fun _ => ?_
  exact reads_pure (.refl _)

theorem reads_exportList (hself : Reading self) (from_ : Nat) :
    Reads [] (fun t => [t]) (exportList self from_) := by
  refine reads_ask (by simp) fun c => reads_move (moves_listUntil _ (by simp) _) fun (foreign, _) => ?_
  refine reads_ask (by simp) fun _ => reads_ite ?_ ?_
  · exact reads_then (reads_exportSource hself) fun attributes => reads_nodeFrom _ rfl (.refl _)
  · refine reads_move (moves_forIn _ (fun place _ => ?_) _) fun _ => reads_move (by simp) fun _ => ?_
    · split
      · exact moves_bind (by simp) fun _ => moves_pure
      · exact moves_pure
    · exact reads_nodeFrom _ rfl (.refl _)

theorem reads_exportDeclarationOf (hself : Reading self) :
    Reads [] (fun t => [t]) (exportDeclarationOf self) := by
  refine reads_ask (by simp) fun from_ => reads_move (by simp) fun _ => reads_move (by simp) fun _ => ?_
  refine reads_ite ?_ (reads_move (by simp) fun _ => reads_ite (reads_exportList hself _) ?_)
  · refine reads_move (by simp) fun _ => reads_when (by simp) (fun _ => ?_) none
    exact reads_then (reads_exportSource hself) fun attributes => reads_nodeFrom _ rfl (.refl _)
  · refine reads_move (by simp) fun _ => reads_ite (reads_defaultExport hself _) ?_
    refine reads_ask (by simp) fun _ => reads_ask (by simp) fun _ => ?_
    refine reads_ask (by simp) fun _ => reads_ask (by simp) fun _ => ?_
    refine reads_unless fails_unexpected.moves (fun _ => reads_then (hself _) fun t => ?_) ()
    exact reads_nodeFrom _ rfl (.refl _)

theorem reads_topLevelItem (hself : Reading self) :
    Reads [] (fun t => [t]) (topLevelItem self) := by
  refine reads_ask (by simp) fun _ => reads_ite (reads_exportDeclarationOf hself) ?_
  refine reads_ask (by simp) fun _ => reads_ite ?_ (hself _)
  exact reads_ask (by simp) fun next => reads_ite (hself _) (reads_importDeclaration hself)

end

/-! ## Tying the rules together -/

/-- The rules read trees if those that they use do. -/
theorem reading_rule {self : Rules} (hself : Reading self) : Reading (rule self) := by
  intro r
  cases r with
  | assignment => exact reads_assignmentExpression hself
  | unary => exact reads_unaryExpression hself
  | operand strength => exact reads_operandExpression hself strength
  | member => exact reads_member hself
  | leftHand => exact reads_leftHand hself
  | bindingTarget => exact reads_bindingTarget hself true
  | statement declarations => exact reads_statement hself declarations

theorem reading_rules (depth : Nat) : Reading (rules depth) := by
  induction depth with
  | zero => exact fun _ => fails_unexpected.reads
  | succ depth ih => exact fun r => reading_rule ih r

theorem reads_program (depth : Nat) (interpreterLine : Bool) :
    Reads [] (fun t => [t]) (program depth interpreterLine) := by
  refine reads_ask (by simp) fun t => ?_
  extract_lets rest
  have hrest (from_ : Nat) : Reads [] (fun t => [t]) (rest from_) := by
    refine reads_ask (by simp) fun c => ?_
    extract_lets g top
    have htop : Reading top := by
      intro r
      clear_value g
      dsimp only [top]
      split
      · exact reads_topLevelItem (reading_rules depth)
      · exact reading_rules depth r
    have hcloses : Moves (do return (← token) == .endOfText) :=
      moves_bind (by simp) fun _ => moves_pure
    refine reads_then (reads_markedStatementsUntil htop hcloses) fun statements => ?_
    exact reads_nodeFrom _ rfl (.refl _)
  exact reads_ite (hrest 0) (reads_ask (by simp) hrest)

end Parse

/-! ## Whole texts -/

theorem ownSpans_parseAs {grammar : Grammar} {cs : List Char} {t : Tree}
    (h : parseAs grammar cs = .ok t) : ∃ hi, OwnSpans True 0 hi [t] := by
  unfold parseAs at h
  extract_lets budget context interpreter from_ stop scan reading first state whole at h
  have hstop : stop = from_.offset := by
    dsimp only [stop, from_]
    cases interpreter with
    | none => rfl
    | some c => rfl
  have hordered : state.Ordered := by
    have hfirst : first.ComesAfter from_.offset :=
      Parse.comesAfter_settle (Scan.comesAfter_next (Nat.succ_pos _) true from_) reading
    change first.ComesAfter stop
    rwa [hstop]
  have hbudget : 0 < reading.budget := by
    dsimp only [reading]
    split
    · exact Nat.succ_pos _
    · exact Nat.succ_pos _
  have hwhole : Parse.Goes state whole fun t s => OwnSpans s.Quiet 0 s.lastStop [t] := by
    have hcomplaints : Parse.Moves (Parse.within (fun _ => reading) (Parse.complainOf first)) :=
      fun s _ _ hs => (Parse.rests_complainOf first).moves s reading hbudget hs
    refine hcomplaints.goes fun _ s _ => ?_
    exact Parse.reads_program _ _ 0 s (.nil (Nat.zero_le _))
  have hread : ∀ a, ((whole context).run state).1 = .ok a →
      OwnSpans ((whole context).run state).2.Quiet 0 ((whole context).run state).2.lastStop [a] :=
    (hwhole context (Nat.succ_pos _) hordered).2
  clear_value whole
  generalize (whole context).run state = r at h hread
  obtain ⟨result, last⟩ := r
  cases result with
  | error e => cases h
  | ok a =>
    dsimp only at h
    cases hcomplaint : last.complaint with
    | some offset =>
      rw [hcomplaint] at h
      cases h
    | none =>
      rw [hcomplaint] at h
      obtain rfl : a = t := Except.ok.inj h
      exact ⟨_, (hread a rfl).weaken fun _ => hcomplaint⟩

/-- **In the tree of a text, no two nodes with a span for themselves share it**, and all
owners are tidy. -/
theorem ownSpans_parse {source : String} {parsed : Parsed} (h : parse source = .ok parsed) :
    ∃ hi, OwnSpans True 0 hi [parsed.tree] := by
  unfold parse at h
  dsimp only at h
  split at h
  · rename_i t hscript
    obtain rfl := Except.ok.inj h
    exact ownSpans_parseAs hscript
  · split at h
    · cases h
    cases hmodule : parseAs .module_ (withoutByteOrderMark source.toList) with
    | error e =>
      rw [hmodule] at h
      cases h
    | ok t =>
      rw [hmodule] at h
      obtain rfl := Except.ok.inj h
      exact ownSpans_parseAs hmodule

end ModuleAssets.Syntax
