import ModuleAssets.Proofs.Syntax.Quoted
import ModuleAssets.Syntax.Grammar.Program
/-!
# Sentences — what a text of few tokens is parsed as

The rules of the grammar are followed step by step on two programs: a text
between quotes, and a name with such a text added to it. `Runs` says what a step
of a parse answers and leaves, and each rule that the two programs pass through has
one lemma. All that a rule asks of the tokens is what they are not: an operand is
no operator (`Token.IsOperand`), and the token after it goes on with nothing but a
sum (`Token.Closes`).
-/

namespace ModuleAssets.Syntax

/-! ## Tokens in a text -/

namespace Scan

/-- Nothing is skipped in front of a character that is no blank and begins no
comment. -/
theorem next_of_visible {c : Char} (hbreak : isLineBreak c = false) (hblank : isBlank c = false)
    (hslash : c ≠ '/') (hless : c ≠ '<') (hminus : c ≠ '-') (fuel : Nat) (newline : Bool)
    (cs : List Char) (offset : Nat) :
    Scan.next fuel newline ⟨c :: cs, offset⟩ =
      let lexeme := scanToken fuel ⟨c :: cs, offset⟩
      ⟨lexeme.token, offset, ⟨c :: cs, offset⟩, lexeme.after, newline, lexeme.complaints⟩ := by
  have hskip : skipFrom .blanks newline offset (c :: cs) = ⟨⟨c :: cs, offset⟩, newline, false⟩ := by
    rw [skipFrom]
    · rw [if_neg (Bool.not_eq_true _ ▸ hbreak), if_neg (Bool.not_eq_true _ ▸ hblank)]
    · rintro rest rfl
      exact absurd rfl hslash
    · rintro rest rfl
      exact absurd rfl hslash
  have hold : isOldComment newline (c :: cs) = false := by
    unfold isOldComment
    split
    · rename_i heq
      exact absurd (List.cons.inj heq).1 hless
    · rename_i heq
      exact absurd (List.cons.inj heq).1 hminus
    · rfl
  have hall : skipAll fuel ⟨⟨c :: cs, offset⟩, newline, false⟩ =
      ([], ⟨⟨c :: cs, offset⟩, newline, false⟩) := by
    cases fuel with
    | zero => rfl
    | succ fuel => rw [skipAll, hold, if_neg Bool.false_ne_true]
  rw [Scan.next, hskip, hall]
  rfl

theorem next_blank (fuel : Nat) (newline : Bool) (cs : List Char) (offset : Nat) :
    Scan.next fuel newline ⟨' ' :: cs, offset⟩ = Scan.next fuel newline ⟨cs, offset + 1⟩ := by
  have hskip : skipFrom .blanks newline offset (' ' :: cs) =
      skipFrom .blanks newline (offset + 1) cs := by
    rw [skipFrom]
    · rfl
    · exact nofun
    · exact nofun
  rw [Scan.next, Scan.next, hskip]

theorem next_nil (fuel : Nat) (newline : Bool) (offset : Nat) :
    Scan.next fuel newline ⟨[], offset⟩ =
      ⟨.endOfText, offset, ⟨[], offset⟩, ⟨[], offset⟩, newline, []⟩ := by
  cases fuel <;> rfl

end Scan

namespace Token

/-- The token is no operator and no word with a rule of its own. -/
structure IsOperand (t : Token) : Prop where
  words : ∀ n ∈ ["new", "super", "import", "await"], t.isWord n = false
  unaryOp : t.unaryOp? = none
  marks : ∀ m ∈ ["++", "--"], t.isMark m = false

theorem isOperand_text (value : Option String) (escaped : Bool) : IsOperand (.text value escaped) :=
  ⟨fun _ _ => rfl, rfl, fun _ _ => rfl⟩

theorem isOperand_dirname : IsOperand (.word "__dirname" .plain) :=
  ⟨by decide, by decide, by decide⟩

/-- The token goes on with nothing but a sum. -/
def Closes (t : Token) : Prop :=
  t = .endOfText ∨ t = .punctuator "+"

end Token

/-! ## Steps of a parse -/

/-- The second token follows the first, and nothing is wrong with it anywhere. -/
structure Scan.Follows (budget : Nat) (scan next : Scan) : Prop where
  next_eq : Scan.next budget false scan.after = next
  complaints : next.complaints = []
  settle_eq : ∀ c, next.token.settle next.start c = next.token

/-- The state at the token after the one being looked at. -/
def State.moveTo (s : State) (next : Scan) : State :=
  { s with scan := next, lastStop := s.scan.after.offset }

/-- The state where an expression begins that may be an arrow function. -/
def State.atAssignment (s : State) : State :=
  { s with arrowStart := if s.scan.token.startsArrow then some s.scan.start else none }

namespace Parse

variable {α β : Type} {c : Context} {s u v : State} {self : Rules}

/-- The step answers with `a` and leaves the second state. -/
def Runs (p : Parse α) (c : Context) (s : State) (a : α) (u : State) : Prop :=
  (p c).run s = (.ok a, u)

theorem Runs.bind {p : Parse α} {f : α → Parse β} {a : α} {b : β} (hp : Runs p c s a u)
    (hf : Runs (f a) c u b v) : Runs (p >>= f) c s b v := by
  show (ExceptT.bindCont (fun a => f a c) ((p c).run s).1 : StateM State _) ((p c).run s).2 = _
  rw [show (p c).run s = _ from hp]
  exact hf

theorem runs_within {p : Parse α} {change : Context → Context} {a : α}
    (h : Runs p (change c) s a u) : Runs (within change p) c s a u :=
  h

theorem runs_complainOf {scan : Scan} (h : scan.complaints = []) :
    Runs (complainOf scan) c s () s := by
  unfold complainOf
  refine .bind (a := c) rfl ?_
  rw [h]
  rfl

theorem runs_advance {next : Scan} (h : s.scan.Follows c.budget next) :
    Runs advance c s () (s.moveTo next) := by
  have hlook : Runs (look s.scan.after) c s next s := by
    show (Except.ok { Scan.next c.budget false s.scan.after with
      token := (Scan.next c.budget false s.scan.after).token.settle
        (Scan.next c.budget false s.scan.after).start c }, s) = (Except.ok next, s)
    rw [h.next_eq, h.settle_eq]
  exact .bind (a := s) rfl (.bind hlook (.bind (runs_complainOf h.complaints) rfl))

theorem runs_nodeFrom (start : Nat) (kind : Kind) (parts : List Tree) :
    Runs (nodeFrom start kind parts) c s (.node kind ⟨start, s.lastStop⟩ parts) s :=
  rfl

theorem runs_oneToken {next : Scan} (kind : Kind) (h : s.scan.Follows c.budget next) :
    Runs (oneToken kind) c s (.node kind ⟨s.scan.start, s.scan.after.offset⟩ []) (s.moveTo next) :=
  .bind (a := s.scan.start) rfl (.bind (runs_advance h) (runs_nodeFrom _ kind []))

/-! ## What is not there -/

theorem Runs.skip {p q : Parse α} {condition : Parse Bool} {a : α} (h : Runs condition c s false u)
    (hq : Runs q c u a v) : Runs (do if ← condition then p else q) c s a v :=
  Runs.bind h hq

theorem runs_isWord {word : String} (h : s.scan.token.isWord word = false) :
    Runs (isWord word) c s false s :=
  h ▸ rfl

theorem runs_isMark {mark : String} (h : s.scan.token.isMark mark = false) :
    Runs (isMark mark) c s false s :=
  h ▸ rfl

theorem runs_eatMark {mark : String} (h : s.scan.token.isMark mark = false) :
    Runs (eatMark mark) c s false s :=
  .skip (runs_isMark h) rfl

theorem runs_eatSemicolon (h : s.scan.token = .endOfText) : Runs eatSemicolon c s true s := by
  refine .skip (runs_eatMark (h ▸ rfl)) (.bind (a := s.scan.token) rfl ?_)
  rw [h]
  rfl

/-! ## Operands -/

theorem runs_subscripts (h : s.scan.token.Closes) (hbudget : 0 < c.budget) (calls : Bool) (t : Tree) :
    Runs (subscripts self calls t) c s t s := by
  obtain ⟨k, hk⟩ := Nat.exists_eq_succ_of_ne_zero (Nat.ne_of_gt hbudget)
  refine .bind (a := c) rfl ?_
  rw [hk, iterate]
  refine .bind (a := none) (.bind (a := s.scan.token) rfl ?_) rfl
  obtain h | h := h <;> rw [h] <;> rfl

theorem runs_member (hoperand : s.scan.token.IsOperand) {t : Tree} (ht : Runs (primary self) c s t u)
    (harrow : t.kind ≠ .arrow) (hcloses : u.scan.token.Closes) (hbudget : 0 < c.budget) :
    Runs (member self) c s t u := by
  have hword (n : String) (hn : n ∈ ["new", "super", "import", "await"]) :=
    runs_isWord (c := c) (hoperand.words n hn)
  refine .skip (hword _ (by decide)) (.skip (hword _ (by decide)) (.skip (hword _ (by decide)) ?_))
  refine .bind ht ?_
  rw [if_neg (by simpa using harrow)]
  exact runs_subscripts hcloses hbudget false t

theorem runs_leftHand (hoperand : s.scan.token.IsOperand) {t : Tree}
    (ht : Runs (primary self) c s t u) (harrow : t.kind ≠ .arrow)
    (hcloses : u.scan.token.Closes) (hbudget : 0 < c.budget) : Runs (leftHand self) c s t u := by
  have hword (n : String) (hn : n ∈ ["new", "super", "import", "await"]) :=
    runs_isWord (c := c) (hoperand.words n hn)
  refine .skip (hword _ (by decide)) (.skip (hword _ (by decide)) ?_)
  refine .bind (runs_member hoperand ht harrow hcloses hbudget) ?_
  rw [if_neg (by simpa using harrow)]
  exact runs_subscripts hcloses hbudget true t

theorem runs_unary (hoperand : s.scan.token.IsOperand) {t : Tree} {depth : Nat}
    (ht : Runs (primary (rules depth)) c s t u) (harrow : t.kind ≠ .arrow)
    (hcloses : u.scan.token.Closes) (hbudget : 0 < c.budget) :
    Runs (rules (depth + 2) .unary) c s t u := by
  refine .bind (a := s.scan.start) rfl (.bind (a := s.scan.token) rfl ?_)
  rw [hoperand.unaryOp]
  dsimp only
  rw [hoperand.marks _ (by decide), hoperand.marks _ (by decide), hoperand.words _ (by decide)]
  refine .bind (runs_leftHand hoperand ht harrow hcloses hbudget) ?_
  have hmark (m : String) (hm : m ∈ ["++", "--"]) : u.scan.token.isMark m = false := by
    obtain h | h := hcloses <;> rw [h] <;> revert m <;> decide
  refine .bind (a := u.scan.newline) rfl ?_
  split
  · rfl
  · refine .bind (runs_isMark (hmark _ (by decide))) (.bind (runs_isMark (hmark _ (by decide))) rfl)

theorem runs_primary_text {value : Option String} {escaped : Bool} {next : Scan}
    (h : s.scan.token = .text value escaped) (hnext : s.scan.Follows c.budget next) :
    Runs (primary self) c s (.node (.text value) ⟨s.scan.start, s.scan.after.offset⟩ [])
      (s.moveTo next) := by
  refine .bind (a := s.scan.start) rfl (.bind (a := s.scan.token) rfl ?_)
  rw [h]
  exact runs_oneToken (.text value) hnext

theorem reserves_dirname (c : Context) : c.reserves "__dirname" = false := by
  have hreserved : reservedWords.contains "__dirname" = false := by decide
  have hstrict : strictWords.contains "__dirname" = false := by decide
  have hawait : ("__dirname" == "await") = false := by decide
  have hyield : ("__dirname" == "yield") = false := by decide
  rw [Context.reserves, hreserved, hstrict, hawait, hyield]
  simp

theorem runs_name {next : Scan} (h : s.scan.token = .word "__dirname" .plain)
    (hnext : s.scan.Follows c.budget next) (allowYield allowAwait : Bool) :
    Runs (name allowYield allowAwait) c s "__dirname" (s.moveTo next) := by
  have hstrict : strictWords.contains "__dirname" = false := by decide
  have hawait : ("__dirname" == "await") = false := by decide
  have hyield : ("__dirname" == "yield") = false := by decide
  have hreserved : reservedWords.contains "__dirname" = false := by decide
  have harguments : ("__dirname" == "arguments") = false := by decide
  refine .bind (a := s.scan.start) rfl (.bind (a := s.scan.token) rfl ?_)
  rw [h]
  dsimp only
  rw [if_neg (by decide)]
  refine .bind (a := c) rfl ?_
  rw [hstrict, Bool.and_false, if_neg Bool.false_ne_true, hawait, if_neg Bool.false_ne_true, hyield,
    hreserved, Bool.false_and, Bool.false_or, if_neg Bool.false_ne_true]
  refine .bind (a := c) rfl ?_
  rw [harguments, Bool.false_and, if_neg Bool.false_ne_true]
  exact .bind (runs_advance hnext) rfl

theorem runs_primary_name {next : Scan} (h : s.scan.token = .word "__dirname" .plain)
    (hnext : s.scan.Follows c.budget next) (hcloses : next.token.Closes) :
    Runs (primary self) c s
      (.node (.identifier "__dirname") ⟨s.scan.start, s.scan.after.offset⟩ []) (s.moveTo next) := by
  have hname : Runs (nameExpression self) c s
      (.node (.identifier "__dirname") ⟨s.scan.start, s.scan.after.offset⟩ []) (s.moveTo next) := by
    have hisName : Runs isName c s true s := by
      have : s.scan.token.isName c = true := by
        rw [h, Token.isName, reserves_dirname]
        rfl
      exact this ▸ rfl
    have harrow : Runs (eatMark "=>") c (s.moveTo next) false (s.moveTo next) := by
      refine runs_eatMark ?_
      show next.token.isMark "=>" = false
      obtain h | h := hcloses <;> rw [h] <;> decide
    refine .bind (a := s.scan.start) rfl (.bind (a := s.arrowStart == some s.scan.start) rfl ?_)
    have hasync : ("__dirname" == "async") = false := by decide
    refine .bind hisName (.bind (a := s.scan.token.isWord "let") rfl ?_)
    rw [Bool.true_or, if_pos rfl]
    refine .bind (a := c) rfl (.bind (runs_name h hnext _ _) (.bind (runs_nodeFrom _ _ _) ?_))
    refine .bind (u := s.moveTo next) (a := next.newline) rfl ?_
    split
    · rfl
    · refine .bind (a := next.token.isName c) rfl ?_
      rw [hasync, Bool.false_and, if_neg Bool.false_ne_true]
      exact .skip harrow rfl
  refine .bind (a := s.scan.start) rfl (.bind (a := s.scan.token) rfl ?_)
  rw [h]
  show Runs (wordExpression self "__dirname") c s _ _
  rw [wordExpression]
  rw [if_neg (by decide), if_neg (by decide), if_neg (by decide), if_neg (by decide),
    if_neg (by decide), if_neg (by decide), if_neg (by decide)]
  exact hname

/-! ## Operators -/

theorem Runs.catch_ {p : Parse α} {handler : SyntaxError → Parse α} {a : α} (h : Runs p c s a u) :
    Runs (tryCatch p handler) c s a u := by
  have h : p c s = (.ok a, u) := h
  show (ExceptT.tryCatch (p c) fun e => handler e c) s = _
  simp only [ExceptT.tryCatch, ExceptT.mk, Bind.bind, StateT.bind]
  rw [h]
  rfl

theorem runs_operators_end (h : s.scan.token = .endOfText) (hbudget : 0 < c.budget) (strength : Nat)
    (t : Tree) : Runs (operators self strength t) c s t s := by
  obtain ⟨k, hk⟩ := Nat.exists_eq_succ_of_ne_zero (Nat.ne_of_gt hbudget)
  refine .bind (a := c) rfl ?_
  rw [hk, iterate]
  refine .bind (a := none) (.bind (a := s.scan.token) rfl (.bind (a := c) rfl ?_)) rfl
  rw [h]
  rfl

/-- A text is added to what comes before. -/
theorem runs_operators_sum {value : Option String} {escaped : Bool} {text last : Scan}
    (h : s.scan.token = .punctuator "+") (htext : s.scan.Follows c.budget text)
    (hvalue : text.token = .text value escaped) (hlast : text.Follows c.budget last)
    (hend : last.token = .endOfText) (hbudget : 1 < c.budget) (depth : Nat) (t : Tree) :
    Runs (operators (rules (depth + 3)) 0 t) c s
      (.node (.binary .add) ⟨t.span.start, text.after.offset⟩
        [t, .node (.text value) ⟨text.start, text.after.offset⟩ []])
      ((s.moveTo text).moveTo last) := by
  have hpositive : 0 < c.budget := Nat.lt_of_succ_lt hbudget
  have hright : Runs (rules (depth + 3) (.operand 9)) c (s.moveTo text)
      (.node (.text value) ⟨text.start, text.after.offset⟩ []) ((s.moveTo text).moveTo last) := by
    refine .bind (runs_unary ?_ (runs_primary_text hvalue hlast) nofun (.inl hend) hpositive) ?_
    · exact hvalue ▸ Token.isOperand_text value escaped
    · exact runs_operators_end hend hpositive 9 _
  obtain ⟨k, hk⟩ := Nat.exists_eq_add_of_lt hbudget
  refine .bind (a := c) rfl ?_
  rw [hk, show 1 + k + 1 = (k + 1) + 1 by omega, iterate]
  refine .bind (u := (s.moveTo text).moveTo last) (a := some (.node (.binary .add)
    ⟨t.span.start, text.after.offset⟩ [t, .node (.text value) ⟨text.start, text.after.offset⟩ []])) ?_ ?_
  · refine .bind (a := s.scan.token) rfl (.bind (a := c) rfl ?_)
    rw [h]
    exact .bind (runs_advance htext) (.bind hright rfl)
  · show Runs (iterate (binaryStep (rules (depth + 3)) 0) (k + 1) _) c _ _ _
    rw [iterate]
    refine .bind (a := none) (.bind (a := last.token) rfl (.bind (a := c) rfl ?_)) rfl
    rw [hend]
    rfl

theorem runs_conditional {operand t : Tree} (hoperand : Runs (self .unary) c s operand u)
    (harrow : operand.kind ≠ .arrow) (ht : Runs (operators self 0 operand) c u t v)
    (harrow' : t.kind ≠ .arrow) (hend : v.scan.token = .endOfText) :
    Runs (conditionalExpression self) c s t v := by
  refine .bind (a := s.scan.start) rfl (.bind (u := v) (a := t) (.bind (.catch_ hoperand) ?_) ?_)
  · rw [if_neg (by simpa using harrow)]
    exact ht
  · rw [if_neg (by simpa using harrow')]
    exact .skip (runs_eatMark (hend ▸ rfl)) rfl

theorem runs_assignment {t : Tree} {depth : Nat} (hgenerator : c.inGenerator = false)
    (h : Runs (conditionalExpression (rules depth)) c s.atAssignment t u)
    (hend : u.scan.token = .endOfText) :
    Runs (rules (depth + 1) .assignment) c s t u := by
  refine .bind (a := s.scan.start) rfl (.bind (a := c) rfl (.bind (a := s.scan.token.isWord "yield")
    rfl ?_))
  rw [hgenerator, Bool.false_and, if_neg Bool.false_ne_true]
  refine .bind (a := s.scan.token) rfl (.bind rfl (.bind h ?_))
  split
  · rfl
  · refine .skip (runs_isMark (hend ▸ rfl)) (.bind (a := u.scan.token) rfl ?_)
    rw [hend]
    rfl

/-! ## Statements -/

theorem runs_expressionStatement {t : Tree}
    (h : Runs (self .assignment) { c with allowIn := true } s t u)
    (hname : ∀ name, t.kind ≠ .identifier name) (hend : u.scan.token = .endOfText) :
    Runs (expressionStatement self) c s
      (.node .expressionStatement ⟨s.scan.start, u.lastStop⟩ [t]) u := by
  have hfree : Runs (freeExpression self) c s t u :=
    show Runs (expression self) { c with allowIn := true } s t u from
      .bind h (.skip (runs_isMark (hend ▸ rfl)) rfl)
  refine .bind (a := s.scan.start) rfl (.bind hfree ?_)
  obtain ⟨kind, span, parts⟩ := t
  split
  · rename_i heq
    exact absurd (congrArg Tree.kind heq) (hname _)
  · exact .bind (runs_eatSemicolon hend) rfl

theorem runs_statement_text {value : Option String} {escaped : Bool} {t : Tree}
    (h : s.scan.token = .text value escaped) (ht : Runs (expressionStatement self) c s t u)
    (declarations : Bool) : Runs (statement self declarations) c s t u := by
  refine .bind (a := s.scan.start) rfl (.bind (a := s.scan.token) rfl ?_)
  rw [h]
  exact ht

/-- The name begins no declaration. -/
theorem runs_declarationStatement? (h : s.scan.token = .word "__dirname" .plain)
    (declarations : Bool) : Runs (declarationStatement? self declarations) c s none s := by
  have hword {word : String} (hne : Token.isWord (.word "__dirname" .plain) word = false) :
      Runs (isWord word) c s false s :=
    runs_isWord (h ▸ hne)
  have hdeclarator : Runs declarator? c s none s :=
    .skip (hword (by decide)) (.skip (hword (by decide)) (.skip (hword (by decide)) rfl))
  refine .bind (a := s.scan.start) rfl (.skip (hword (by decide)) (.skip (hword (by decide)) ?_))
  refine .skip (.skip (hword (by decide)) rfl) (.bind (hword (by decide)) ?_)
  rw [Bool.and_false, if_neg Bool.false_ne_true]
  exact .bind hdeclarator rfl

theorem runs_statement_name {t : Tree} (h : s.scan.token = .word "__dirname" .plain)
    (ht : Runs (expressionStatement self) c s t u) (declarations : Bool) :
    Runs (statement self declarations) c s t u := by
  have hkeyword : Runs (keywordStatement? self declarations "__dirname") c s none s := by
    refine .bind (a := s.scan.start) rfl ?_
    repeat rw [if_neg (by decide)]
    exact runs_declarationStatement? h declarations
  refine .bind (a := s.scan.start) rfl (.bind (a := s.scan.token) rfl ?_)
  rw [h]
  exact .bind hkeyword ht

/-! ## Programs -/

theorem runs_statementsUntil {t : Tree} (hbudget : 1 < c.budget)
    (hstart : s.scan.token ≠ .endOfText) (h : Runs (self (.statement true)) c s t u)
    (hend : u.scan.token = .endOfText) :
    Runs (statementsUntil self do return (← token) == .endOfText) c s [t] u := by
  have hmore : (!(s.scan.token == .endOfText)) = true := by simpa using hstart
  have hdone : (!(u.scan.token == .endOfText)) = false := by simpa using hend
  obtain ⟨k, hk⟩ := Nat.exists_eq_add_of_lt hbudget
  refine .bind (a := c) rfl ?_
  rw [hk, show 1 + k + 1 = (k + 1) + 1 by omega, repeatWhile]
  refine .bind (u := s) (a := true) (hmore ▸ rfl) ?_
  rw [if_pos rfl]
  refine .bind h (.bind (u := u) (a := []) ?_ rfl)
  rw [repeatWhile]
  exact .skip (hdone ▸ rfl) rfl

/-- A program of one statement. -/
theorem runs_program {t : Tree} {depth : Nat} (hgrammar : c.grammar = .script)
    (hbudget : 1 < c.budget) (hstart : s.scan.token ≠ .endOfText)
    (hstatement : ∀ strict, Runs (rules depth (.statement true)) { c with strict } s t u)
    (hend : u.scan.token = .endOfText) :
    Runs (program depth false) c s
      (.node (.program .script) ⟨s.scan.start, u.lastStop⟩ [t]) u := by
  refine .bind (a := s.scan.token) rfl ?_
  rw [Bool.false_or, if_neg (by simpa using hstart)]
  refine .bind (a := s.scan.start) rfl (.bind (a := c) rfl ?_)
  rw [hgrammar]
  refine .bind (u := u) (a := [t]) ?_ (runs_nodeFrom _ _ _)
  refine .bind (u := s) (a := s.scan.token == .text (some "use strict") false) rfl ?_
  exact runs_within (runs_statementsUntil hbudget hstart (hstatement _) hend)

end Parse

/-! ## Whole texts -/

/-- A text of one statement is a script. -/
theorem parse_statement {source : String} {first : Scan} {t : Tree} {u : State}
    (hmark : withoutByteOrderMark source.toList = source.toList)
    (hline : afterInterpreterLine? source.toList = none)
    (hfirst : Scan.next (source.toList.length + 2) true ⟨source.toList, 0⟩ = first)
    (hcomplaints : first.complaints = [])
    (hsettle : ∀ c, first.token.settle first.start c = first.token)
    (hstart : first.token ≠ .endOfText)
    (hstatement : ∀ strict, Parse.Runs
      (Parse.rules (4 * (source.toList.length + 2)) (.statement true))
      { Context.outermost .script (source.toList.length + 2) with strict }
      ⟨first, 0, none, none, []⟩ t u)
    (hend : u.scan.token = .endOfText) (hwrong : u.complaint = none) :
    parse source = .ok ⟨.script, .node (.program .script) ⟨first.start, u.lastStop⟩ [t]⟩ := by
  have hrun : Parse.Runs (Parse.program (4 * (source.toList.length + 2)) false)
      (.outermost .script (source.toList.length + 2)) ⟨first, 0, none, none, []⟩
      (.node (.program .script) ⟨first.start, u.lastStop⟩ [t]) u :=
    Parse.runs_program rfl (Nat.succ_lt_succ (Nat.succ_pos _)) hstart hstatement hend
  have hwhole : Parse.Runs (do
      Parse.within (fun _ => .outermost .script (source.toList.length + 2)) (Parse.complainOf first)
      Parse.program (4 * (source.toList.length + 2)) false) (.outermost .script (source.toList.length + 2))
      ⟨first, 0, none, none, []⟩ (.node (.program .script) ⟨first.start, u.lastStop⟩ [t]) u := by
    exact .bind (Parse.runs_within (Parse.runs_complainOf hcomplaints)) hrun
  have hparse : parseAs .script source.toList =
      .ok (.node (.program .script) ⟨first.start, u.lastStop⟩ [t]) := by
    unfold parseAs
    rw [hline]
    dsimp only [Option.isSome_none, Option.getD_none]
    rw [hfirst, if_neg Bool.false_ne_true, if_neg Bool.false_ne_true, hsettle]
    unfold Parse.Runs at hwhole
    rw [hwhole]
    simp only [hwrong]
    rfl
  unfold parse
  rw [hmark]
  dsimp only
  rw [hparse]

namespace Parse

end Parse

namespace Scan

/-- The text ends after a token. -/
theorem follows_end (budget : Nat) {scan : Scan} (h : scan.after.chars = []) :
    scan.Follows budget ⟨.endOfText, scan.after.offset, scan.after, scan.after, false, []⟩ := by
  obtain ⟨token, start, here, ⟨chars, offset⟩, newline, complaints⟩ := scan
  obtain rfl : chars = [] := h
  exact ⟨next_nil budget false offset, rfl, fun _ => rfl⟩

/-- A text between quotes. -/
theorem exists_next_text {quote : Char} (hquote : quote ∈ ['"', '\'']) {write : Char → List Char}
    (hwrite : ∀ c, Spells quote c (write c)) (cs : List Char) {fuel : Nat} (hfuel : cs.length < fuel)
    (newline : Bool) (offset : Nat) (rest : List Char) :
    ∃ escaped here, Scan.next fuel newline ⟨quote :: (cs.flatMap write ++ quote :: rest), offset⟩ =
      ⟨.text (some (String.ofList cs)) escaped, offset, here,
        ⟨rest, offset + 1 + Text.byteLength (cs.flatMap write) + 1⟩, newline, []⟩ := by
  obtain ⟨escaped, hscan⟩ := scanString_of_spells hwrite cs hfuel offset (offset + 1) rest
  have htoken : scanToken fuel ⟨quote :: (cs.flatMap write ++ quote :: rest), offset⟩ =
      ⟨.text (some (String.ofList cs)) escaped,
        ⟨rest, offset + 1 + Text.byteLength (cs.flatMap write) + 1⟩, []⟩ := by
    simp only [List.mem_cons, List.not_mem_nil, or_false] at hquote
    obtain rfl | rfl := hquote <;> exact hscan
  have hvisible : ∀ quote ∈ ['"', '\''], isLineBreak quote = false ∧ isBlank quote = false ∧
      quote ≠ '/' ∧ quote ≠ '<' ∧ quote ≠ '-' :=
    List.forall_mem_cons.2 ⟨by decide, List.forall_mem_singleton.2 (by decide)⟩
  obtain ⟨hbreak, hblank, hslash, hless, hminus⟩ := hvisible quote hquote
  refine ⟨escaped, ⟨quote :: (cs.flatMap write ++ quote :: rest), offset⟩, ?_⟩
  rw [next_of_visible hbreak hblank hslash hless hminus, htoken]

theorem next_dirname {fuel : Nat} (hfuel : 9 < fuel) (rest : List Char) :
    Scan.next fuel true ⟨"__dirname".toList ++ ' ' :: rest, 0⟩ =
      ⟨.word "__dirname" .plain, 0, ⟨"__dirname".toList ++ ' ' :: rest, 0⟩, ⟨' ' :: rest, 9⟩, true,
        []⟩ := by
  obtain ⟨k, rfl⟩ := Nat.exists_eq_add_of_lt hfuel
  have hword : wordRun (9 + k + 1) true ⟨"__dirname".toList ++ ' ' :: rest, 0⟩ =
      ⟨"__dirname".toList, false, [], none, ⟨' ' :: rest, 9⟩⟩ := by
    rw [show 9 + k + 1 = k + 10 by omega]
    rfl
  have htoken : scanToken (9 + k + 1) ⟨"__dirname".toList ++ ' ' :: rest, 0⟩ =
      ⟨.word "__dirname" .plain, ⟨' ' :: rest, 9⟩, []⟩ := by
    show scanWord _ _ = _
    rw [scanWord, hword]
    rfl
  show Scan.next _ true ⟨'_' :: _, 0⟩ = _
  rw [next_of_visible (by decide) (by decide) (by decide) (by decide) (by decide)]
  show (let lexeme := scanToken (9 + k + 1) ⟨"__dirname".toList ++ ' ' :: rest, 0⟩
    Scan.mk lexeme.token 0 ⟨"__dirname".toList ++ ' ' :: rest, 0⟩ lexeme.after true
      lexeme.complaints) = _
  rw [htoken]

theorem next_plus (fuel : Nat) (rest : List Char) (offset : Nat) :
    ∃ here, Scan.next fuel false ⟨' ' :: '+' :: ' ' :: rest, offset⟩ =
      ⟨.punctuator "+", offset + 1, here, ⟨' ' :: rest, offset + 2⟩, false, []⟩ := by
  refine ⟨⟨'+' :: ' ' :: rest, offset + 1⟩, ?_⟩
  have htoken : scanToken fuel ⟨'+' :: ' ' :: rest, offset + 1⟩ =
      ⟨.punctuator "+", ⟨' ' :: rest, offset + 2⟩, []⟩ := by
    rfl
  rw [next_blank, next_of_visible (by decide) (by decide) (by decide) (by decide) (by decide),
    htoken]

end Scan

namespace Parse

variable {c : Context} {s : State}

theorem runs_assignment_text {value : Option String} {escaped : Bool} {last : Scan}
    (htext : s.scan.token = .text value escaped) (hlast : s.scan.Follows c.budget last)
    (hend : last.token = .endOfText) (hgenerator : c.inGenerator = false) (hbudget : 0 < c.budget)
    (depth : Nat) :
    Runs (rules (depth + 4) .assignment) c s
      (.node (.text value) ⟨s.scan.start, s.scan.after.offset⟩ []) (s.atAssignment.moveTo last) := by
  have hunary : Runs (rules (depth + 3) .unary) c s.atAssignment
      (.node (.text value) ⟨s.scan.start, s.scan.after.offset⟩ []) (s.atAssignment.moveTo last) :=
    runs_unary (htext ▸ Token.isOperand_text value escaped) (runs_primary_text htext hlast) nofun
      (.inl hend) hbudget
  exact runs_assignment hgenerator
    (runs_conditional hunary nofun (runs_operators_end hend hbudget 0 _) nofun hend) hend

/-- A text alone is a statement. -/
theorem runs_text {value : Option String} {escaped : Bool} {last : Scan}
    (htext : s.scan.token = .text value escaped) (hlast : s.scan.Follows c.budget last)
    (hend : last.token = .endOfText) (hgenerator : c.inGenerator = false) (hbudget : 0 < c.budget)
    (depth : Nat) :
    Runs (rules (depth + 5) (.statement true)) c s
      (.node .expressionStatement ⟨s.scan.start, s.scan.after.offset⟩
        [.node (.text value) ⟨s.scan.start, s.scan.after.offset⟩ []])
      (s.atAssignment.moveTo last) :=
  runs_statement_text htext (runs_expressionStatement (runs_assignment_text
    (c := { c with allowIn := true }) htext hlast hend hgenerator hbudget depth) (fun _ => nofun) hend)
    true

theorem runs_assignment_sum {value : Option String} {escaped : Bool} {plus text last : Scan}
    (hname : s.scan.token = .word "__dirname" .plain) (hplus : s.scan.Follows c.budget plus)
    (hoperator : plus.token = .punctuator "+") (htext : plus.Follows c.budget text)
    (hvalue : text.token = .text value escaped) (hlast : text.Follows c.budget last)
    (hend : last.token = .endOfText) (hgenerator : c.inGenerator = false) (hbudget : 1 < c.budget)
    (depth : Nat) :
    Runs (rules (depth + 4) .assignment) c s
      (.node (.binary .add) ⟨s.scan.start, text.after.offset⟩
        [.node (.identifier "__dirname") ⟨s.scan.start, s.scan.after.offset⟩ [],
          .node (.text value) ⟨text.start, text.after.offset⟩ []])
      (((s.atAssignment.moveTo plus).moveTo text).moveTo last) := by
  have hunary : Runs (rules (depth + 3) .unary) c s.atAssignment
      (.node (.identifier "__dirname") ⟨s.scan.start, s.scan.after.offset⟩ [])
      (s.atAssignment.moveTo plus) :=
    runs_unary (hname ▸ Token.isOperand_dirname) (runs_primary_name hname hplus (.inr hoperator))
      nofun (.inr hoperator) (Nat.lt_of_succ_lt hbudget)
  exact runs_assignment hgenerator (runs_conditional hunary nofun
    (runs_operators_sum hoperator htext hvalue hlast hend hbudget depth _) nofun hend) hend

/-- A name and a text added to it are a statement. -/
theorem runs_sum {value : Option String} {escaped : Bool} {plus text last : Scan}
    (hname : s.scan.token = .word "__dirname" .plain) (hplus : s.scan.Follows c.budget plus)
    (hoperator : plus.token = .punctuator "+") (htext : plus.Follows c.budget text)
    (hvalue : text.token = .text value escaped) (hlast : text.Follows c.budget last)
    (hend : last.token = .endOfText) (hgenerator : c.inGenerator = false) (hbudget : 1 < c.budget)
    (depth : Nat) :
    Runs (rules (depth + 5) (.statement true)) c s
      (.node .expressionStatement ⟨s.scan.start, text.after.offset⟩
        [.node (.binary .add) ⟨s.scan.start, text.after.offset⟩
          [.node (.identifier "__dirname") ⟨s.scan.start, s.scan.after.offset⟩ [],
            .node (.text value) ⟨text.start, text.after.offset⟩ []]])
      (((s.atAssignment.moveTo plus).moveTo text).moveTo last) :=
  runs_statement_name hname (runs_expressionStatement (runs_assignment_sum
    (c := { c with allowIn := true }) hname hplus hoperator htext hvalue hlast hend hgenerator hbudget
    depth) (fun _ => nofun) hend) true

end Parse

/-! ## Two sentences -/

/-- A script of one expression. -/
def script (expression : Tree) : Parsed :=
  ⟨.script, .node (.program .script) ⟨0, expression.span.stop⟩
    [.node .expressionStatement ⟨0, expression.span.stop⟩ [expression]]⟩

/-- **A text between quotes is a literal** with the text as its value. -/
theorem parse_text {quote : Char} (hquote : quote ∈ ['"', '\'']) {write : Char → List Char}
    (hwrite : ∀ c, Spells quote c (write c)) {source : String} {cs : List Char}
    (hsource : source.toList = quote :: (cs.flatMap write ++ [quote])) :
    parse source = .ok (script
      (.node (.text (some (String.ofList cs))) ⟨0, Text.byteLength source.toList⟩ [])) := by
  have hlength : cs.length < source.toList.length + 2 := by
    have := length_le_flatMap hwrite cs
    rw [hsource, List.length_cons, List.length_append]
    omega
  have hbytes : 0 + 1 + Text.byteLength (cs.flatMap write) + 1 = Text.byteLength source.toList := by
    simp only [List.mem_cons, List.not_mem_nil, or_false] at hquote
    rw [hsource, Text.byteLength, Text.byteLength_append, Text.byteLength, Text.byteLength]
    obtain rfl | rfl := hquote
    · show _ = 1 + (_ + (1 + 0))
      omega
    · show _ = 1 + (_ + (1 + 0))
      omega
  obtain ⟨escaped, here, hfirst⟩ :=
    Scan.exists_next_text hquote hwrite cs hlength true 0 []
  rw [hbytes, ← hsource] at hfirst
  have hplain : ∀ c ∈ ['"', '\''], c.toNat ≠ 0xFEFF ∧ c ≠ '#' :=
    List.forall_mem_cons.2 ⟨by decide, List.forall_mem_singleton.2 (by decide)⟩
  have hmark : withoutByteOrderMark source.toList = source.toList := by
    rw [hsource, withoutByteOrderMark, if_neg (hplain quote hquote).1]
  have hline : afterInterpreterLine? source.toList = none := by
    unfold afterInterpreterLine?
    split
    · rename_i heq
      rw [hsource] at heq
      exact absurd (List.cons.inj heq).1 (hplain quote hquote).2
    · rfl
  have hlast : Scan.Follows (source.toList.length + 2) ⟨.text (some (String.ofList cs)) escaped, 0,
      here, ⟨[], Text.byteLength source.toList⟩, true, []⟩ _ :=
    Scan.follows_end _ rfl
  exact parse_statement hmark hline hfirst rfl (fun _ => rfl) Token.noConfusion (fun _ =>
    Parse.runs_text rfl hlast rfl rfl (Nat.succ_pos _) (4 * source.toList.length + 3)) rfl rfl

/-- **A name and a text added to it are a sum** of the two. -/
theorem parse_sum {quote : Char} (hquote : quote ∈ ['"', '\'']) {write : Char → List Char}
    (hwrite : ∀ c, Spells quote c (write c)) {source : String} {cs : List Char}
    (hsource : source.toList =
      "__dirname".toList ++ ' ' :: '+' :: ' ' :: quote :: (cs.flatMap write ++ [quote])) :
    parse source = .ok (script (.node (.binary .add) ⟨0, Text.byteLength source.toList⟩
      [.node (.identifier "__dirname") ⟨0, 9⟩ [],
        .node (.text (some (String.ofList cs))) ⟨12, Text.byteLength source.toList⟩ []])) := by
  have hcount : source.toList.length = (cs.flatMap write).length + 14 := by
    have hname : "__dirname".toList.length = 9 := by decide
    simp only [hsource, List.length_append, List.length_cons, List.length_nil, hname]
    omega
  have hlength : cs.length < source.toList.length + 2 := by
    have := length_le_flatMap hwrite cs
    omega
  have hbytes : 12 + 1 + Text.byteLength (cs.flatMap write) + 1 = Text.byteLength source.toList := by
    have hname : Text.byteLength "__dirname".toList = 9 := by decide
    simp only [List.mem_cons, List.not_mem_nil, or_false] at hquote
    rw [hsource, Text.byteLength_append, hname]
    simp only [Text.byteLength, Text.byteLength_append]
    obtain rfl | rfl := hquote
    · show _ = 9 + (1 + (1 + (1 + (1 + (_ + (1 + 0))))))
      omega
    · show _ = 9 + (1 + (1 + (1 + (1 + (_ + (1 + 0))))))
      omega
  have hfuel : 9 < source.toList.length + 2 := by omega
  have hfirst := Scan.next_dirname hfuel ('+' :: ' ' :: quote :: (cs.flatMap write ++ [quote]))
  obtain ⟨there, hplus⟩ := Scan.next_plus (source.toList.length + 2)
    (quote :: (cs.flatMap write ++ [quote])) 9
  obtain ⟨escaped, here, htext⟩ := Scan.exists_next_text hquote hwrite cs hlength false 12 []
  rw [← hsource] at hfirst
  rw [hbytes, ← Scan.next_blank] at htext
  have hmark : withoutByteOrderMark source.toList = source.toList := by
    rw [hsource]
    rfl
  have hline : afterInterpreterLine? source.toList = none := by
    rw [hsource]
    rfl
  have hlast : Scan.Follows (source.toList.length + 2) ⟨.text (some (String.ofList cs)) escaped, 12,
      here, ⟨[], Text.byteLength source.toList⟩, false, []⟩ _ :=
    Scan.follows_end _ rfl
  exact parse_statement hmark hline hfirst rfl (fun _ => rfl) Token.noConfusion (fun _ =>
    Parse.runs_sum rfl ⟨hplus, rfl, fun _ => rfl⟩ rfl ⟨htext, rfl, fun _ => rfl⟩ rfl hlast rfl rfl
      (Nat.succ_lt_succ (Nat.succ_pos _)) (4 * source.toList.length + 3)) rfl rfl

/-- **A text in quotes, as data has it,** is a literal of the same text. -/
theorem parse_quote (text : String) : parse (Json.quote text) = .ok (script
    (.node (.text (some text)) ⟨0, Text.byteLength (Json.quote text).toList⟩ [])) := by
  have hquote : (Json.quote text).toList = '"' :: (text.toList.flatMap Json.escapeChar ++ ['"']) :=
    String.toList_ofList
  rw [parse_text (by decide) spells_json hquote, String.ofList_toList]

end ModuleAssets.Syntax
