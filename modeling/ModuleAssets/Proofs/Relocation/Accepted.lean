import ModuleAssets.Proofs.Relocation.Room
/-!
# The walk — all of its edits are accepted

A walk over a tree for which a draft is ready edits the draft only within the tree,
and nothing that it asks for is left out. Two things carry the argument. The parts of
a node are visited one after another, and an edit of one leaves room in the others.
And what a walk offers as a candidate is the whole node it was at, so that an edit of
it covers all that was edited below.
-/

namespace ModuleAssets

open Syntax
open SpecialCase (argumentExpression)

/-- Where a walk over the tree may overwrite: nowhere, if the tree is bare. -/
def Syntax.Tree.region (t : Tree) : List Span :=
  if t.isBare then [] else [t.span]

theorem Syntax.Tree.mem_region {t : Tree} {span : Span} :
    span ∈ t.region ↔ t.isBare = false ∧ span = t.span := by
  unfold region
  cases t.isBare <;> simp

/-- The candidate is never put into the text. -/
def Candidate.IsSilent (c : Candidate) : Prop :=
  c.isDirectoryName = true ∨ ∃ b, c.outcome = .single (.builtin b)

variable {w : WalkSetting} {d : Draft} {regions : List Span}

/-! ## Candidates -/

theorem Referent.edited_refer (ctx : ModuleContext) (loadsBinary : Bool) (d : Draft)
    (referent : Referent) (regions : List Span) :
    d.EditedIn regions (referent.refer ctx loadsBinary d).1 := by
  cases referent with
  | file path => exact ⟨rfl, rfl, fun _ ho => .inl ho⟩
  | directory path => exact ⟨rfl, rfl, fun _ ho => .inl ho⟩
  | literal text => exact .refl regions d

/-- A replacement overwrites nothing by itself. -/
theorem Candidate.edited_replacement (ctx : ModuleContext) (source : String) (d : Draft)
    (c : Candidate) (regions : List Span) :
    d.EditedIn regions (c.replacement ctx source d).1 := by
  rw [replacement]
  split
  · exact .refl regions d
  split
  · split
    · exact .refl regions d
    · exact .refl regions d
    · exact Referent.edited_refer ctx _ d _ regions
  · split
    · split
      · exact (Referent.edited_refer ctx _ d _ regions).trans
          (Referent.edited_refer ctx _ _ _ regions)
      · exact .refl regions d
    · exact .refl regions d

theorem Candidate.IsSilent.replacement_eq {c : Candidate} (h : c.IsSilent) (ctx : ModuleContext)
    (source : String) (d : Draft) : c.replacement ctx source d = (d, none) := by
  rw [replacement]
  obtain hdirectory | ⟨b, houtcome⟩ := h
  · rw [if_pos hdirectory]
  · split
    · rfl
    · rw [houtcome]
      rfl

theorem Candidate.edited_relocate {c : Candidate} (ctx : ModuleContext) (source : String)
    (hc : c.IsSilent ∨ d.Accepts c.span ∧ c.span ∈ regions) :
    d.EditedIn regions (c.relocate ctx source d) := by
  rw [relocate]
  obtain hsilent | ⟨haccepts, hregion⟩ := hc
  · rw [hsilent.replacement_eq]
    exact .refl regions d
  · have hreplaced := c.edited_replacement ctx source d []
    split
    · rename_i draft text heq
      rw [heq] at hreplaced
      have haccepts : draft.Accepts c.span := haccepts.of_nil hreplaced
      exact (hreplaced.of_nil regions).trans ((haccepts.edited_overwrite text).mono fun region h =>
        ⟨c.span, hregion, List.mem_singleton.1 h ▸ .refl _⟩)
    · rename_i draft heq
      rw [heq] at hreplaced
      exact hreplaced.of_nil regions

/-- A name that is read gives a candidate at its place. -/
theorem Candidate.span_ofName? {env : Environment} {name : String} {span : Span} {c : Candidate}
    (h : ofName? env name span = some c) :
    c.span = span ∧ (name = "__dirname" → c.IsSilent) := by
  unfold ofName? at h
  split at h
  · split at h
    · obtain rfl := Option.some.inj h
      exact ⟨rfl, fun hname => .inl (beq_iff_eq.2 hname)⟩
    · cases h
  · split at h
    · obtain rfl := Option.some.inj h
      exact ⟨rfl, fun _ => .inr ⟨_, rfl⟩⟩
    · cases h
  · cases h

namespace Walk

/-! ## Steps from a draft -/

/-- From the draft, the step comes to an answer and a draft that are as said. -/
def From {α : Type} (d : Draft) (Q : α → Draft → Prop) (step : Walk α) : Prop :=
  ∀ s, s.draft = d → Q (step.run s).1 (step.run s).2.draft

/-- What is offered, if something is, is the whole tree or never put into the text. -/
def Offers (t : Tree) (candidate : Option Candidate) : Prop :=
  ∀ c, candidate = some c → c.IsSilent ∨ t.isBare = false ∧ c.span = t.span

theorem offers_none (t : Tree) : Offers t none := by
  intro c hc
  cases hc

section

variable {α β : Type} {Q : α → Draft → Prop} {Q' : β → Draft → Prop}

theorem from_pure {a : α} (h : Q a d) : From d Q (pure a : Walk α) := by
  intro s hs
  obtain rfl := hs
  exact h

theorem from_bind {step : Walk α} {next : α → Walk β} (hstep : From d Q step)
    (hnext : ∀ a d', Q a d' → From d' Q' (next a)) : From d Q' (step >>= next) :=
  fun s hs => hnext _ _ (hstep s hs) _ rfl

/-- A step that only reads is gone past. -/
theorem from_read {step : Walk α} {next : α → Walk β} (hread : ∀ s, (step.run s).2 = s)
    (hnext : ∀ a, (∃ s, (step.run s).1 = a) → From d Q' (next a)) : From d Q' (step >>= next) := by
  intro s hs
  have hdraft : (step.run s).2.draft = d := by rw [hread, hs]
  exact hnext _ ⟨s, rfl⟩ _ hdraft

/-- So is one that changes what is known. -/
theorem from_env {step : Walk α} {next : α → Walk β}
    (hquiet : ∀ s, (step.run s).2.draft = s.draft) (hnext : ∀ a, From d Q' (next a)) :
    From d Q' (step >>= next) :=
  fun s hs => hnext _ _ ((hquiet s).trans hs)

theorem from_weaken {Q Q' : α → Draft → Prop} {step : Walk α} (h : From d Q step)
    (hweaken : ∀ a d', Q a d' → Q' a d') : From d Q' step :=
  fun s hs => hweaken _ _ (h s hs)

/-- A step that goes on with the state it starts from. -/
theorem from_get {next : WalkState → Walk β}
    (hnext : ∀ s, s.draft = d → Q' ((next s).run s).1 ((next s).run s).2.draft) :
    From d Q' (get >>= next) :=
  hnext

/-- A file that is planned leaves all edits as they are. -/
theorem from_addFile {path : String} {next : String → Walk β}
    (hnext : ∀ reference d', d.EditedIn [] d' → From d' Q' (next reference)) :
    From d Q' (addFile w path >>= next) := by
  intro s hs
  obtain rfl := hs
  exact hnext (s.draft.addFile (Referent.naming w.ctx) path).2
    (s.draft.addFile (Referent.naming w.ctx) path).1 ⟨rfl, rfl, fun _ ho => .inl ho⟩
    { s with draft := (s.draft.addFile (Referent.naming w.ctx) path).1 } rfl

/-- An overwrite that is accepted, and then an answer. -/
theorem from_overwrite {span : Span} (h : d.Accepts span) (text : String) {a : α}
    (ha : ∀ d', d.EditedIn [span] d' → Q a d') :
    From d Q (overwrite span text >>= fun _ => pure a) := by
  intro s hs
  obtain rfl := hs
  exact ha _ (h.edited_overwrite text)

end

/-! ## Names -/

theorem from_identifier {site : Site} {name : String} {span : Span} {parts : List Tree}
    (h : d.Ready (.node (.identifier name) span parts)) :
    From d (fun c d' => d.EditedIn (Syntax.Tree.node (.identifier name) span parts).region d' ∧
      Offers (.node (.identifier name) span parts) c) (identifier w site name span) := by
  refine from_read (fun _ => rfl) fun env _ => ?_
  split
  · rename_i c hc
    obtain ⟨hspan, hsilent⟩ := Candidate.span_ofName? hc
    refine from_pure ⟨.refl _ d, fun _ hoffered => ?_⟩
    obtain rfl := Option.some.inj hoffered
    cases hbare : (Syntax.Tree.node (.identifier name) span parts).isBare with
    | false => exact .inr ⟨rfl, hspan⟩
    | true => exact .inl (hsilent (Tree.name_of_isBare hbare))
  · refine from_read (fun _ => rfl) fun env _ => ?_
    split
    · rename_i text halias
      have hbare : (Syntax.Tree.node (.identifier name) span parts).isBare = false := by
        rw [Bool.eq_false_iff]
        intro hbare
        rw [Tree.name_of_isBare hbare, loaderAlias?] at halias
        split at halias
        · cases halias
        · simp [Environment.loaderName, Loader.dynamicName] at halias
      refine from_overwrite (h.accepts hbare) text fun d' hedited => ⟨?_, offers_none _⟩
      rwa [Tree.region, hbare]
    · exact from_pure ⟨.refl _ d, offers_none _⟩

theorem from_shorthand {name : String} {span : Span} (h : d.Accepts span) :
    From d (fun _ d' => d.EditedIn [span] d') (shorthand w name span) := by
  refine from_read (fun _ => rfl) fun env _ => ?_
  split
  · rename_i c hc
    intro s hs
    obtain rfl := hs
    have hreplaced := c.edited_replacement w.ctx w.source s.draft []
    have haccepts := h.of_nil hreplaced
    simp only [StateT.run, bind, StateT.bind, get, getThe, MonadStateOf.get, StateT.get, pure]
    generalize c.replacement w.ctx w.source s.draft = replaced at hreplaced haccepts ⊢
    obtain ⟨draft, written⟩ := replaced
    cases written with
    | some text => exact (hreplaced.of_nil _).trans (haccepts.edited_overwrite _)
    | none => exact hreplaced.of_nil _
  · refine from_read (fun _ => rfl) fun env _ => ?_
    split
    · intro s hs
      obtain rfl := hs
      exact h.edited_overwrite _
    · exact from_pure (.refl _ d)

/-! What only changes the environment leaves the draft as it is. -/

theorem draft_assignMember (member? : String → Option Value) (t : Tree) (s : WalkState) :
    ((assignMember member? t).run s).2.draft = s.draft := by
  unfold assignMember
  split
  · dsimp only
    split
    · split <;> rfl
    · split <;> rfl
    · rfl
    · rfl
  · rfl
  · rfl

theorem draft_assignMembers (member? : String → Option Value) (ts : List Tree) (s : WalkState) :
    ((assignMembers member? ts).run s).2.draft = s.draft := by
  induction ts generalizing s with
  | nil => rfl
  | cons t rest ih => exact (ih _).trans (draft_assignMember member? t s)

theorem draft_assignModule (m : KnownModule) (pattern : Tree) (s : WalkState) :
    ((assignModule m pattern).run s).2.draft = s.draft := by
  unfold assignModule
  split
  · rfl
  · exact draft_assignMembers _ _ s
  · rfl

/-! ## Calls -/

/-- What a call leaves to visit, and where it was edited. -/
def Leaves (d : Draft) (span : Span) (callee : Tree) (arguments : List Tree) :
    CallStep → Draft → Prop
  | .done, d' => d.EditedIn [span] d'
  | .leaf c, d' => d.EditedIn [] d' ∧ c.span = span
  | .visitArguments, d' => d.EditedIn [callee.span] d'
  | .visitLast, d' => ∃ head : Span, d.EditedIn [head] d' ∧ head.Within span ∧
      ∀ last ∈ arguments.getLast?, head.stop ≤ last.span.start
  | .descend, d' => d.EditedIn [] d'

section

variable {span : Span} {callee argument : Tree} {arguments : List Tree}

/-- The expression of an argument lies in the call and covers text. -/
theorem ready_argument (h : d.Ready (.node .call span (callee :: arguments)))
    (hargument : argument ∈ arguments) :
    d.Accepts (argumentExpression argument).span ∧
      (argumentExpression argument).span.Within span := by
  have hpart : argument ∈ (Syntax.Tree.node .call span (callee :: arguments)).parts :=
    List.mem_cons_of_mem _ hargument
  obtain ⟨hbare, -, hwithin⟩ := (h.laid.arranged.1 argument hpart).of_not_mayHoldBare rfl
  have hready := h.part hpart
  unfold argumentExpression
  split
  · rename_i spread e
    obtain ⟨hbare', -, hwithin'⟩ :=
      (hready.laid.arranged.1 e List.mem_cons_self).of_not_mayHoldBare rfl
    exact ⟨(hready.part List.mem_cons_self).accepts hbare', hwithin'.trans hwithin⟩
  · exact ⟨hready.accepts hbare, hwithin⟩

theorem from_unknownLoad (hargument : d.Accepts argument.span)
    (hwithin : argument.span.Within span) (hcallee : d.Accepts callee.span) :
    From d (Leaves d span callee arguments) (unknownLoad w callee argument) := by
  unfold unknownLoad
  split
  · exact from_overwrite hargument _ fun d' hedited =>
      hedited.mono fun region hregion => ⟨span, List.mem_singleton_self _,
        List.mem_singleton.1 hregion ▸ hwithin⟩
  · exact from_overwrite hcallee _ fun d' hedited => hedited

theorem from_loaderCall (h : d.Ready (.node .call span (callee :: arguments)))
    (hargument : argument ∈ arguments) :
    From d (Leaves d span callee arguments) (loaderCall w span callee argument) := by
  obtain ⟨haccepts, hwithin⟩ := ready_argument h hargument
  have hcallee : d.Accepts callee.span :=
    (h.part List.mem_cons_self).accepts
      ((h.laid.arranged.1 callee List.mem_cons_self).of_not_mayHoldBare rfl).1
  have hcall : d.Accepts span := h.accepts (Tree.not_bare_of_mem List.mem_cons_self)
  have hexpression (d' : Draft) (hedited : d.EditedIn [(argumentExpression argument).span] d') :
      d.EditedIn [span] d' :=
    hedited.mono fun region hregion => ⟨span, List.mem_singleton_self _,
      List.mem_singleton.1 hregion ▸ hwithin⟩
  unfold loaderCall
  dsimp only
  -- the argument is evaluated or not, and the rest is the same
  split
  all_goals
    refine from_read (fun _ => rfl) fun evaluation _ => ?_
    split
    · exact from_unknownLoad haccepts hwithin hcallee
    · split
      · exact from_addFile fun _ d' hadded => from_overwrite (hcall.of_nil hadded) _
          fun _ hedited => (hadded.of_nil [span]).trans hedited
      · split
        · exact from_overwrite haccepts _ hexpression
        · exact from_pure (Draft.EditedIn.refl [span] d)
    · split
      · exact from_addFile fun _ _ hadded => from_addFile fun _ _ hadded' =>
          from_overwrite ((hcall.of_nil hadded).of_nil hadded') _ fun _ hedited =>
            ((hadded.trans hadded').of_nil [span]).trans hedited
      · split
        · exact from_overwrite haccepts _ hexpression
        · exact from_pure (Draft.EditedIn.refl [span] d)
    · exact from_pure (Draft.EditedIn.refl [span] d)

theorem from_bindingsCall? :
    From d (fun candidate d' => d' = d ∧ ∀ c, candidate = some c → c.span = span)
      (bindingsCall? w span arguments) := by
  have hfound (request : Option Value) (c : Candidate)
      (hc : (w.ctx.packageRoot.bind fun root =>
          request.bind (Addon.byName? w.ctx.files root w.ctx.options.nodeAbi)).map
        (fun f => { Candidate.ofValue span (.text f.path) with loadsBinary := f.isLoaded }) =
          some c) : c.span = span := by
    obtain ⟨found, -, rfl⟩ := Option.map_eq_some_iff.1 hc
    rfl
  unfold bindingsCall?
  dsimp only
  split
  · exact from_read (fun _ => rfl) fun _ _ => from_pure ⟨rfl, hfound _⟩
  · split
    · exact from_read (fun _ => rfl) fun _ _ => from_pure ⟨rfl, hfound _⟩
    · exact from_read (fun _ => rfl) fun _ _ => from_pure ⟨rfl, hfound _⟩

theorem from_packageInfo (h : d.Accepts span) :
    From d (fun isIt d' => if isIt then d.EditedIn [span] d' else d' = d)
      (packageInfo w span arguments) := by
  refine from_read (fun _ => rfl) fun env _ => ?_
  dsimp only
  split
  · exact from_overwrite h _ fun _ hedited => hedited
  · exact from_pure rfl

/-- The head of a call up to an argument covers what is called. -/
theorem accepts_head (h : d.Ready (.node .call span (callee :: arguments)))
    (hargument : argument ∈ arguments) : d.Accepts ⟨span.start, argument.span.start⟩ := by
  have hpart : argument ∈ (Syntax.Tree.node .call span (callee :: arguments)).parts :=
    List.mem_cons_of_mem _ hargument
  have harranged : Tree.Arranged .call span (callee :: arguments) := h.laid.arranged
  obtain ⟨hbare, hcovers, hwithin⟩ := (harranged.1 argument hpart).of_not_mayHoldBare rfl
  have hcall : d.Accepts span := h.accepts (Tree.not_bare_of_mem List.mem_cons_self)
  refine ⟨harranged.2.2.1 rfl argument hargument, ?_, fun o ho => ?_⟩
  · exact Nat.le_trans (Nat.le_of_lt hcovers) (Nat.le_trans hwithin.2 hcall.bounded)
  · -- what is edited in the call is edited in the argument or apart from it
    have hspan := hcall.admits o ho
    have hinner := ((h.part hpart).accepts hbare).admits o ho
    simp only [Span.Admits, Span.Within, Span.Apart] at *
    omega

theorem from_resolveFrom (h : d.Ready (.node .call span (callee :: arguments))) :
    From d (fun isIt d' => if isIt then Leaves d span callee arguments .visitLast d' else d' = d)
      (resolveFrom w span arguments) := by
  unfold resolveFrom
  split
  · rename_i directory target
    have htarget : target ∈ [directory, target] := List.mem_cons_of_mem _ List.mem_cons_self
    split
    · exact from_pure rfl
    · refine from_read (fun _ => rfl) fun known _ => ?_
      split
      · split
        · refine from_overwrite (accepts_head h htarget) _ fun d' hedited =>
            ⟨_, hedited, ⟨Nat.le_refl _, ?_⟩, fun last hlast => ?_⟩
          · obtain ⟨-, hcovers, hwithin⟩ := (h.laid.arranged.1 target
              (List.mem_cons_of_mem _ htarget)).of_not_mayHoldBare rfl
            exact Nat.le_trans (Nat.le_of_lt hcovers) hwithin.2
          · obtain rfl := Option.some.inj hlast
            exact Nat.le_refl _
        · exact from_pure rfl
      · exact from_pure rfl
  · exact from_pure rfl

theorem from_loadSingle {call : Tree} (h : d.Accepts call.span) :
    From d (fun isIt d' => if isIt then d.EditedIn [call.span] d' else d' = d)
      (loadSingle w call) := by
  refine from_read (fun _ => rfl) fun known _ => ?_
  split
  · split
    · exact from_overwrite h _ fun _ hedited => hedited
    · exact from_pure rfl
  · exact from_pure rfl

theorem from_applicationCall {method : String} {application : Tree}
    (h : d.Accepts application.span) :
    From d (fun _ d' => d.EditedIn [] d') (applicationCall w method application arguments) := by
  unfold applicationCall
  split
  · exact fun s hs => hs ▸ .refl [] _
  · refine from_get fun s hs => ?_
    split
    · split
      · refine (from_read (fun _ => rfl) fun known _ => ?_ :
          From d (fun _ d' => d.EditedIn [] d') _) s hs
        split
        · intro s hs
          obtain rfl := hs
          refine Draft.edited_appendRight h.bounded (fun o ho => ?_) _
          -- an overwrite within the application ends with it, and any other is apart
          have hadmits := h.admits o ho
          have hcovers := h.covers
          simp only [Span.Admits, Span.Within, Span.Apart] at hadmits
          simp only [Span.containsInner, Bool.and_eq_false_iff, decide_eq_false_iff_not]
          omega
        · exact from_pure (.refl [] d)
      · exact hs ▸ .refl [] _
    · exact hs ▸ .refl [] _

/-- What is known of a call of something that was loaded by its name. -/
theorem from_loadedCall? (h : d.Ready (.node .call span (callee :: arguments))) :
    From d (fun step d' => (step = none ∧ d' = d) ∨
        ∃ left, step = some left ∧ Leaves d span callee arguments left d')
      (loadedCall? w span callee arguments) := by
  have hcall : d.Accepts span := h.accepts (Tree.not_bare_of_mem List.mem_cons_self)
  refine from_read (fun _ => rfl) fun specifier _ => ?_
  split
  · refine from_bind from_bindingsCall? fun candidate d' hcandidate => ?_
    obtain ⟨rfl, hspan⟩ := hcandidate
    cases candidate with
    | none => exact from_pure (.inl ⟨rfl, rfl⟩)
    | some c => exact from_pure (.inr ⟨_, rfl, .refl [] _, hspan c rfl⟩)
  · refine from_bind (from_packageInfo hcall) fun isIt d' hedited => ?_
    cases isIt with
    | false => exact from_pure (.inl ⟨rfl, hedited⟩)
    | true => exact from_pure (.inr ⟨_, rfl, hedited⟩)
  · exact from_pure (.inl ⟨rfl, rfl⟩)

theorem from_resolveCall? {call : Tree} (arguments : List Tree) :
    From d (fun step d' => (step = none ∧ d' = d) ∨
        ∃ left, step = some left ∧ Leaves d call.span callee arguments left d')
      (resolveCall? w call callee) := by
  refine from_read (fun _ => rfl) fun isMember _ => ?_
  split
  · refine from_read (fun _ => rfl) fun known _ => ?_
    split
    · exact from_pure (.inr ⟨_, rfl, .refl [] d, rfl⟩)
    · exact from_pure (.inl ⟨rfl, rfl⟩)
  · exact from_pure (.inl ⟨rfl, rfl⟩)

theorem from_builtinCall? (h : d.Ready (.node .call span (callee :: arguments))) :
    From d (fun step d' => (step = none ∧ d' = d) ∨
        ∃ left, step = some left ∧ Leaves d span callee arguments left d')
      (builtinCall? w (.node .call span (callee :: arguments)) callee arguments) := by
  have hcall : d.Accepts (Syntax.Tree.node .call span (callee :: arguments)).span :=
    h.accepts (Tree.not_bare_of_mem List.mem_cons_self)
  refine from_read (fun _ => rfl) fun known _ => ?_
  split
  · refine from_bind (from_resolveFrom h) fun isIt d' hedited => ?_
    cases isIt with
    | false => exact from_pure (.inl ⟨rfl, hedited⟩)
    | true => exact from_pure (.inr ⟨_, rfl, hedited⟩)
  · refine from_bind (from_loadSingle hcall) fun isIt d' hedited => ?_
    cases isIt with
    | false => exact from_pure (.inl ⟨rfl, hedited⟩)
    | true => exact from_pure (.inr ⟨_, rfl, hedited⟩)
  · exact from_pure (.inl ⟨rfl, rfl⟩)

/-- **A call is edited within what is not left to visit.** -/
theorem from_call (h : d.Ready (.node .call span (callee :: arguments))) :
    From d (Leaves d span callee arguments)
      (call w (.node .call span (callee :: arguments)) callee arguments) := by
  have hdescend : Leaves d span callee arguments .descend d := .refl [] d
  unfold call
  dsimp only
  split
  · exact from_pure hdescend
  · rename_i hplain
    refine from_read (fun _ => rfl) fun isLoader hloader => ?_
    split
    · exact from_loaderCall h List.mem_cons_self
    · refine from_bind (from_loadedCall? h) fun loaded d' hloaded => ?_
      obtain ⟨rfl, rfl⟩ | ⟨left, rfl, hleft⟩ := hloaded
      swap
      · exact from_pure hleft
      refine from_bind (from_resolveCall? arguments) fun resolved d' hresolved => ?_
      obtain ⟨rfl, rfl⟩ | ⟨left, rfl, hleft⟩ := hresolved
      swap
      · exact from_pure hleft
      refine from_bind (from_builtinCall? h) fun known d' hknown => ?_
      obtain ⟨rfl, rfl⟩ | ⟨left, rfl, hleft⟩ := hknown
      swap
      · exact from_pure hleft
      dsimp only
      split
      · rename_i method place application
        have hmember : d'.Ready (.node (.member method) place [application]) :=
          h.part List.mem_cons_self
        have happlication : d'.Accepts application.span :=
          (hmember.part List.mem_cons_self).accepts
            ((hmember.laid.arranged.1 application List.mem_cons_self).of_not_mayHoldBare rfl).1
        refine from_read (fun _ => rfl) fun known _ => ?_
        split
        · exact from_bind (from_applicationCall happlication) fun _ d'' hedited =>
            from_pure hedited
        · exact from_pure hdescend
      · exact from_pure hdescend

end

/-! ## Whole walks -/

/-- What is to be shown of a tree: where a draft is ready for it, a walk over it edits
the draft within the tree and offers the whole tree. -/
structure WalkedWithin (w : WalkSetting) (t : Tree) : Prop where
  walk : ∀ d site, d.Ready t →
    From d (fun c d' => d.EditedIn t.region d' ∧ Offers t c) (walk w site t)
  visitParts : ∀ d, d.Ready t → From d (fun _ d' => d.EditedIn t.region d') (visitParts w t)

section

variable {t whole : Tree} {kind : Kind} {span : Span} {parts : List Tree}
variable {candidate : Option Candidate}

/-- What is offered may be put into the text. -/
theorem Offers.accepts {d' : Draft} (h : Offers t candidate) (hready : d.Ready t)
    (hedited : d.EditedIn t.region d') {c : Candidate} (hc : candidate = some c) :
    c.IsSilent ∨ d'.Accepts c.span ∧ c.span ∈ t.region := by
  refine (h c hc).imp_right fun ⟨hbare, hspan⟩ => ?_
  rw [hspan]
  refine ⟨(hready.accepts hbare).edited hedited fun region hregion => ?_,
    Tree.mem_region.2 ⟨hbare, rfl⟩⟩
  obtain ⟨-, rfl⟩ := Tree.mem_region.1 hregion
  exact .refl _

/-- Edits in the parts of a tree are edits in the tree. -/
theorem edited_of_parts {d' : Draft} (ht : t.Laid) (hparts : parts ⊆ t.parts)
    (h : d.EditedIn (parts.flatMap Tree.region) d') : d.EditedIn t.region d' := by
  refine h.mono fun region hregion => ?_
  obtain ⟨part, hpart, hregion⟩ := List.mem_flatMap.1 hregion
  obtain ⟨hbare, rfl⟩ := Tree.mem_region.1 hregion
  exact ⟨t.span, Tree.mem_region.2 ⟨Tree.not_bare_of_mem (hparts hpart), rfl⟩,
    ((ht.arranged.1 part (hparts hpart)).within hbare).2⟩

/-- A part stays ready while a part before it is edited. -/
theorem ready_beside {d' : Draft} {a b : Tree} (hb : d.Ready b) (hbeside : Tree.Beside kind a b)
    (hedited : d.EditedIn a.region d') : d'.Ready b := by
  refine hb.edited hedited fun region hregion => ?_
  obtain ⟨hbare, rfl⟩ := Tree.mem_region.1 hregion
  exact hbeside.admits hb.laid hbare

theorem from_settle {step : Walk (Option Candidate)} (hready : d.Ready t)
    (h : From d (fun c d' => d.EditedIn t.region d' ∧ Offers t c) step) :
    From d (fun _ d' => d.EditedIn t.region d') (settle w step) := by
  refine from_bind h fun candidate d' ⟨hedited, hoffers⟩ => ?_
  split
  · intro s hs
    obtain rfl := hs
    exact hedited.trans
      (Candidate.edited_relocate w.ctx w.source (hoffers.accepts hready hedited rfl))
  · exact from_pure hedited

theorem from_visitAll (hready : ∀ part ∈ parts, d.Ready part)
    (hparts : ∀ part ∈ parts, WalkedWithin w part) (hbeside : parts.Pairwise (Tree.Beside kind)) :
    From d (fun _ d' => d.EditedIn (parts.flatMap Tree.region) d') (visitAll w parts) := by
  induction parts generalizing d with
  | nil => exact from_pure (.refl _ d)
  | cons part rest ih =>
    have hpart := hready part List.mem_cons_self
    obtain ⟨hfirst, hrest⟩ := List.pairwise_cons.1 hbeside
    rw [visitAll]
    refine from_bind (from_settle hpart ((hparts part List.mem_cons_self).walk d _ hpart))
      fun _ d' hedited => ?_
    have hready' : ∀ t ∈ rest, d'.Ready t := fun t ht =>
      ready_beside (hready t (List.mem_cons_of_mem _ ht)) (hfirst t ht) hedited
    refine from_weaken (ih hready' (fun t ht => hparts t (List.mem_cons_of_mem _ ht)) hrest)
      fun _ d'' hedited' => ?_
    exact (hedited.mono fun region hregion => ⟨region, List.mem_append_left _ hregion, .refl _⟩).trans
      (hedited'.mono fun region hregion => ⟨region, List.mem_append_right _ hregion, .refl _⟩)

theorem from_visitLast (hready : ∀ last ∈ parts.getLast?, d.Ready last)
    (hparts : ∀ part ∈ parts, WalkedWithin w part) :
    From d (fun _ d' => d.EditedIn (parts.flatMap Tree.region) d') (visitLast w parts) := by
  induction parts with
  | nil => exact from_pure (.refl _ d)
  | cons part rest ih =>
    cases rest with
    | nil =>
      have hpart := hready part rfl
      rw [visitLast, List.flatMap_singleton]
      exact from_settle hpart ((hparts part List.mem_cons_self).walk d _ hpart)
    | cons next rest =>
      rw [visitLast]
      refine from_weaken (ih (by rwa [List.getLast?_cons_cons] at hready)
        fun t ht => hparts t (List.mem_cons_of_mem _ ht)) fun _ d' hedited => ?_
      exact hedited.mono fun region hregion =>
        ⟨region, List.mem_append_right _ hregion, .refl _⟩

/-- A candidate that may be put into the text either becomes the whole around it,
or it is put there. -/
theorem from_grow (regions : List Span) (hbare : whole.isBare = false) (tried : Bool)
    (hcandidate : ∀ c, candidate = some c → c.IsSilent ∨ d.Accepts c.span ∧ c.span ∈ regions) :
    From d (fun grown d' => d.EditedIn regions d' ∧ Offers whole grown)
      (grow w whole tried candidate) := by
  cases candidate with
  | none => exact from_pure ⟨.refl _ d, offers_none _⟩
  | some c =>
    unfold grow
    dsimp only
    -- the whole is evaluated or not, and the rest is the same
    split
    all_goals
      refine from_read (fun _ => rfl) fun evaluation _ => ?_
      split
      · refine from_pure ⟨.refl _ d, fun grown hgrown => .inr ⟨hbare, ?_⟩⟩
        obtain rfl := Option.some.inj hgrown
        rfl
      · intro s hs
        obtain rfl := hs
        exact ⟨Candidate.edited_relocate w.ctx w.source (hcandidate c rfl), offers_none _⟩

theorem from_descend (regions : List Span) (hbare : whole.isBare = false) (tried : Bool)
    (hcandidate : ∀ c, candidate = some c → c.IsSilent ∨ d.Accepts c.span ∧ c.span ∈ regions)
    (hready : ∀ part ∈ parts, d.Ready part) (hparts : ∀ part ∈ parts, WalkedWithin w part)
    (hbeside : parts.Pairwise (Tree.Beside kind))
    (hregions : ∀ part ∈ parts, ∀ region ∈ regions, part.Admits region) :
    From d (fun c d' => d.EditedIn (regions ++ parts.flatMap Tree.region) d' ∧ Offers whole c)
      (descend w whole tried candidate parts) := by
  induction parts generalizing d regions tried candidate with
  | nil =>
    refine from_weaken (from_grow regions hbare tried hcandidate) fun _ d' ⟨hedited, hoffers⟩ => ?_
    rw [List.flatMap_nil, List.append_nil]
    exact ⟨hedited, hoffers⟩
  | cons part rest ih =>
    obtain ⟨hfirst, hrest⟩ := List.pairwise_cons.1 hbeside
    rw [descend]
    refine from_bind (from_grow regions hbare tried hcandidate) fun grown d₁ ⟨hedited, hoffers⟩ => ?_
    have hleft : d.EditedIn (regions ++ (part :: rest).flatMap Tree.region) d₁ :=
      hedited.mono fun region hregion => ⟨region, List.mem_append_left _ hregion, .refl _⟩
    split
    · exact from_pure ⟨hleft, hoffers⟩
    · have hready₁ : ∀ t ∈ part :: rest, d₁.Ready t := fun t ht =>
        (hready t ht).edited hedited (hregions t ht)
      have hpart := hready₁ part List.mem_cons_self
      refine from_bind ((hparts part List.mem_cons_self).walk d₁ _ hpart)
        fun next d₂ ⟨hedited₁, hoffers₁⟩ => ?_
      have hready₂ : ∀ t ∈ rest, d₂.Ready t := fun t ht =>
        ready_beside (hready₁ t (List.mem_cons_of_mem _ ht)) (hfirst t ht) hedited₁
      refine from_weaken (ih part.region _
        (fun c hc => hoffers₁.accepts hpart hedited₁ hc) hready₂
        (fun t ht => hparts t (List.mem_cons_of_mem _ ht)) hrest fun t ht region hregion => ?_)
        fun c d₃ ⟨hedited₂, hoffers₂⟩ => ⟨?_, hoffers₂⟩
      · obtain ⟨hbare, rfl⟩ := Tree.mem_region.1 hregion
        exact (hfirst t ht).admits (hready t (List.mem_cons_of_mem _ ht)).laid hbare
      · -- the candidate's regions come first, then the part's, then those of the rest
        refine (hleft.trans (hedited₁.mono fun region hregion => ?_)).trans
          (hedited₂.mono fun region hregion => ⟨region, List.mem_append_right _ hregion, .refl _⟩)
        exact ⟨region, List.mem_append_right _ (List.mem_append_left _ hregion), .refl _⟩

/-- An expression whose parts are gone through from the first is edited in its parts. -/
theorem from_descend_parts (h : d.Ready t) (hbare : t.isBare = false)
    (hparts : ∀ part ∈ t.parts, WalkedWithin w part) :
    From d (fun c d' => d.EditedIn t.region d' ∧ Offers t c)
      (descend w t false none t.parts) := by
  refine from_weaken (from_descend [] hbare false ?_ (fun _ => h.part) hparts
    h.laid.arranged.2.1 ?_) fun c d' ⟨hedited, hoffers⟩ =>
      ⟨edited_of_parts h.laid (List.Subset.refl _) hedited, hoffers⟩
  · intro c hc
    cases hc
  · intro part _ region hregion
    cases hregion

theorem from_visitAll_parts (h : d.Ready t) (hparts : ∀ part ∈ t.parts, WalkedWithin w part) :
    From d (fun _ d' => d.EditedIn t.region d') (visitAll w t.parts) :=
  from_weaken (from_visitAll (fun _ => h.part) hparts h.laid.arranged.2.1) fun _ _ hedited =>
    edited_of_parts h.laid (List.Subset.refl _) hedited

theorem from_withScope {α : Type} {Q : Draft → Prop} {scope : ScopeKind} {step : Walk α}
    (h : From d (fun _ d' => Q d') step) :
    From d (fun _ d' => Q d') (withScope w scope span step) := by
  unfold withScope
  split
  · refine from_env (fun _ => rfl) fun _ => from_bind h fun _ d' hQ => ?_
    exact from_env (fun _ => rfl) fun _ => from_pure hQ
  · exact h

/-- The name of the module itself stands on one side where the entry is asked for. -/
theorem isIdentifier_of_entryCheck? {env : Environment} {op : BinaryOp} {left right : Tree}
    {mainIsLeft : Bool} (h : entryCheck? w env op left right = some mainIsLeft) :
    (if mainIsLeft then right else left).isIdentifier "module" = true := by
  unfold entryCheck? at h
  dsimp only at h
  split at h
  · split at h
    · rename_i hmain
      obtain rfl := Option.some.inj h
      exact (Bool.and_eq_true _ _ ▸ hmain).2
    · split at h
      · rename_i hmain
        obtain rfl := Option.some.inj h
        exact (Bool.and_eq_true _ _ ▸ hmain).2
      · cases h
  · cases h

theorem from_conditionalLoad {test first second : Tree} (h : d.Accepts span) :
    From d (fun isIt d' => if isIt then d.EditedIn [span] d' else d' = d)
      (conditionalLoad w span test first second) := by
  refine from_read (fun _ => rfl) fun _ _ => from_read (fun _ => rfl) fun _ _ =>
    from_read (fun _ => rfl) fun _ _ => ?_
  split
  · exact from_overwrite h _ fun _ hedited => hedited
  · exact from_pure rfl

/-- A call is walked within itself if its parts are. -/
theorem from_walk_call {callee : Tree} {arguments : List Tree} (site : Site)
    (h : d.Ready (.node .call span (callee :: arguments)))
    (hparts : ∀ part ∈ callee :: arguments, WalkedWithin w part) :
    From d (fun c d' => d.EditedIn [span] d' ∧ Offers (.node .call span (callee :: arguments)) c)
      (walk w site (.node .call span (callee :: arguments))) := by
  have hbare : (Syntax.Tree.node .call span (callee :: arguments)).isBare = false :=
    Tree.not_bare_of_mem List.mem_cons_self
  have hregion : (Syntax.Tree.node .call span (callee :: arguments)).region = [span] := by
    rw [Tree.region, hbare]
    rfl
  have harranged : Tree.Arranged .call span (callee :: arguments) := h.laid.arranged
  have hcalleeBare := ((harranged.1 callee List.mem_cons_self).of_not_mayHoldBare rfl).1
  have hcallee : d.Ready callee := h.part List.mem_cons_self
  have harguments : ∀ argument ∈ arguments, d.Ready argument :=
    fun argument hargument => h.part (List.mem_cons_of_mem _ hargument)
  have hwalked : ∀ argument ∈ arguments, WalkedWithin w argument :=
    fun argument hargument => hparts argument (List.mem_cons_of_mem _ hargument)
  obtain ⟨hbeside, hapart⟩ := List.pairwise_cons.1 harranged.2.1
  have hinner {d₁ d₂ : Draft} (hedited : d₁.EditedIn (arguments.flatMap Tree.region) d₂) :
      d₁.EditedIn [span] d₂ :=
    hregion ▸ edited_of_parts h.laid (List.subset_cons_self _ _) hedited
  rw [walk]
  refine from_bind (from_call h) fun step d₁ hleft => ?_
  cases step with
  | done => exact from_pure ⟨hleft, offers_none _⟩
  | leaf c =>
    refine from_pure ⟨hleft.1.of_nil _, fun offered hoffered => .inr ⟨hbare, ?_⟩⟩
    obtain rfl := Option.some.inj hoffered
    exact hleft.2
  | visitArguments =>
    have hleft : d.EditedIn callee.region d₁ := by
      rw [Tree.region, hcalleeBare]
      exact hleft
    have hready₁ : ∀ argument ∈ arguments, d₁.Ready argument := fun argument hargument =>
      ready_beside (harguments argument hargument) (hbeside argument hargument) hleft
    refine from_bind (from_visitAll hready₁ hwalked hapart) fun _ d₂ hedited => ?_
    refine from_pure ⟨.trans (hleft.mono fun region hcallee => ?_) (hinner hedited), offers_none _⟩
    obtain ⟨-, rfl⟩ := Tree.mem_region.1 hcallee
    exact ⟨span, List.mem_singleton_self _,
      ((harranged.1 callee List.mem_cons_self).within hcalleeBare).2⟩
  | visitLast =>
    obtain ⟨head, hedited, hwithin, hlast⟩ := hleft
    have hready₁ : ∀ last ∈ arguments.getLast?, d₁.Ready last := fun last hmem => by
      have hready := harguments last (List.mem_of_getLast? hmem)
      refine hready.edited hedited fun region hregion => ?_
      obtain rfl := List.mem_singleton.1 hregion
      exact hready.laid.admits_of_apart fun _ => .inr (hlast last hmem)
    refine from_bind (from_visitLast hready₁ hwalked) fun _ d₂ hedited₂ => ?_
    refine from_pure ⟨.trans (hedited.mono fun region hhead => ?_) (hinner hedited₂), offers_none _⟩
    exact ⟨span, List.mem_singleton_self _, List.mem_singleton.1 hhead ▸ hwithin⟩
  | descend =>
    have hready₁ : ∀ part ∈ callee :: arguments, d₁.Ready part := fun part hpart =>
      (h.part hpart).edited hleft fun _ hregion => absurd hregion List.not_mem_nil
    refine from_bind ((hparts callee List.mem_cons_self).walk d₁ _ (hready₁ _ List.mem_cons_self))
      fun candidate d₂ ⟨hedited, hoffers⟩ => ?_
    refine from_weaken (from_descend callee.region hbare false
      (fun c hc => hoffers.accepts (hready₁ _ List.mem_cons_self) hedited hc)
      (fun argument hargument => ready_beside (hready₁ _ (List.mem_cons_of_mem _ hargument))
        (hbeside argument hargument) hedited) hwalked hapart fun argument hargument region hmem => ?_)
      fun c d₃ ⟨hedited₃, hoffers₃⟩ => ⟨?_, hoffers₃⟩
    · obtain ⟨-, rfl⟩ := Tree.mem_region.1 hmem
      exact (hbeside argument hargument).admits (harguments argument hargument).laid hcalleeBare
    · have hall : d₁.EditedIn ((callee :: arguments).flatMap Tree.region) d₃ :=
        (hedited.mono fun region hmem => ⟨region, List.mem_append_left _ hmem, .refl _⟩).trans
          hedited₃
      exact (hleft.of_nil _).trans
        (hregion ▸ edited_of_parts h.laid (List.Subset.refl _) hall)

theorem edited_of_part {part : Tree} {d' : Draft} (ht : t.Laid) (hpart : part ∈ t.parts)
    (h : d.EditedIn part.region d') : d.EditedIn t.region d' := by
  have hparts : [part] ⊆ t.parts := List.cons_subset.2 ⟨hpart, List.nil_subset _⟩
  exact edited_of_parts ht hparts (List.flatMap_singleton Tree.region part ▸ h)

/-- In the module that the program starts with, one side is overwritten, and the whole
comparison in others. -/
theorem from_entryCheck {side : Tree} (hside : d.Accepts side.span) (hspan : d.Accepts span) :
    From d (fun _ d' => d.EditedIn [if w.isEntry then side.span else span] d')
      (entryCheck w span side) := by
  unfold entryCheck
  split
  · exact fun s hs => hs ▸ hside.edited_overwrite _
  · exact fun s hs => hs ▸ hspan.edited_overwrite _

/-- Where the main module is asked for, the one side is overwritten and the other may
still be visited. -/
theorem from_entrySides {side other : Tree} (h : d.Ready t) (hside : side ∈ t.parts)
    (hother : other ∈ t.parts) (hclear : side.isBare = false → other.Admits side.span)
    (hmodule : side.isIdentifier "module" = true) (hparts : WalkedWithin w other)
    {step : Walk (Option Candidate)} (hstep : step = (entryCheck w t.span side >>= fun _ =>
      if w.isEntry then visitParts w other >>= fun _ => pure none else pure none)) :
    From d (fun c d' => d.EditedIn t.region d' ∧ Offers t c) step := by
  subst hstep
  have hbare : side.isBare = false := Tree.not_bare_of_isIdentifier hmodule (by decide)
  have hregion : t.region = [t.span] := by
    rw [Tree.region, Tree.not_bare_of_mem hside]
    rfl
  refine from_bind (from_entryCheck ((h.part hside).accepts hbare)
    (h.accepts (Tree.not_bare_of_mem hside))) fun _ d₁ hedited => ?_
  split
  · rename_i hentry
    rw [if_pos hentry] at hedited
    have hedited : d.EditedIn side.region d₁ := by
      rw [Tree.region, hbare]
      exact hedited
    have hready : d₁.Ready other := (h.part hother).edited hedited fun region hmem => by
      obtain ⟨-, rfl⟩ := Tree.mem_region.1 hmem
      exact hclear hbare
    refine from_bind (hparts.visitParts d₁ hready) fun _ d₂ hedited₁ =>
      from_pure ⟨?_, offers_none _⟩
    exact (edited_of_part h.laid hside hedited).trans (edited_of_part h.laid hother hedited₁)
  · rename_i hentry
    rw [if_neg hentry] at hedited
    exact from_pure ⟨hregion ▸ hedited, offers_none _⟩

/-- A step that edits the tree and offers nothing. -/
theorem from_andNone {α : Type} {step : Walk α}
    (hstep : From d (fun _ d' => d.EditedIn t.region d') step) :
    From d (fun c d' => d.EditedIn t.region d' ∧ Offers t c)
      (step >>= fun _ => pure (none : Option Candidate)) :=
  from_bind hstep fun _ _ hedited => from_pure ⟨hedited, offers_none _⟩

/-- A step that only learns something, and offers nothing. -/
theorem from_learns {step : Walk Unit} (hstep : ∀ s, (step.run s).2.draft = s.draft) :
    From d (fun c d' => d.EditedIn t.region d' ∧ Offers t c)
      (step >>= fun _ => pure (none : Option Candidate)) :=
  from_env hstep fun _ => from_pure ⟨.refl _ d, offers_none _⟩

/-- A value is visited, and what it offers is put into the text. -/
theorem from_settle_value {value : Tree} (hready : d.Ready value) (hvalue : WalkedWithin w value) :
    From d (fun _ d' => d.EditedIn value.region d') (settle w (walk w .value value)) :=
  from_settle hready (hvalue.walk d _ hready)

/-- What is assigned to a name is a module that is loaded, or a value that is visited. -/
theorem from_assignNamed {name : String} {value : Tree} (h : d.Ready t) (hvalue : value ∈ t.parts)
    (hwalked : WalkedWithin w value) :
    From d (fun c d' => d.EditedIn t.region d' ∧ Offers t c)
      (requiredModule? w value >>= fun m => match m with
        | some m => assign name m.defaultExport >>= fun _ => pure none
        | none => known? w value >>= fun known => settle w (walk w .value value) >>= fun _ =>
            assign name known >>= fun _ => pure none) := by
  refine from_read (fun _ => rfl) fun m _ => ?_
  cases m with
  | some m => exact from_learns fun _ => rfl
  | none =>
    refine from_read (fun _ => rfl) fun known _ =>
      from_bind (from_settle_value (h.part hvalue) hwalked) fun _ d₁ hvalued =>
        from_env (fun _ => rfl) fun _ => ?_
    exact from_pure ⟨edited_of_part h.laid hvalue hvalued, offers_none _⟩

/-- A target is visited, and then the value after it. -/
theorem from_targetThenValue {target value : Tree} (h : d.Ready t) (htarget : target ∈ t.parts)
    (hvalue : value ∈ t.parts) (hbeside : Tree.Beside kind target value)
    (hparts : ∀ part ∈ t.parts, WalkedWithin w part) :
    From d (fun c d' => d.EditedIn t.region d' ∧ Offers t c)
      (visitParts w target >>= fun _ => settle w (walk w .value value) >>= fun _ =>
        pure none) := by
  refine from_bind ((hparts target htarget).visitParts d (h.part htarget)) fun _ d₁ hvisited => ?_
  refine from_bind (from_settle_value (ready_beside (h.part hvalue) hbeside hvisited)
    (hparts value hvalue)) fun _ d₂ hvalued => from_pure ⟨?_, offers_none _⟩
  exact (edited_of_part h.laid htarget hvisited).trans (edited_of_part h.laid hvalue hvalued)

/-- An assignment is walked within itself if its parts are. -/
theorem from_walk_assign {op : Option BinaryOp} {target value : Tree} (site : Site)
    (h : d.Ready (.node (.assign op) span [target, value]))
    (hparts : ∀ part ∈ [target, value], WalkedWithin w part) :
    From d (fun c d' => d.EditedIn (Syntax.Tree.node (.assign op) span [target, value]).region d' ∧
        Offers (.node (.assign op) span [target, value]) c)
      (walk w site (.node (.assign op) span [target, value])) := by
  have htarget : target ∈ [target, value] := List.mem_cons_self
  have hvalue : value ∈ [target, value] := List.mem_cons_of_mem _ List.mem_cons_self
  have hbeside : Tree.Beside (.assign op) target value :=
    (List.pairwise_cons.1 h.laid.arranged.2.1).1 value List.mem_cons_self
  unfold walk
  dsimp only
  split
  · split
    · refine from_read (fun s => ?_) fun isBridge _ => ?_
      · unfold isGrammarBridge
        split <;> rfl
      split
      · exact from_andNone fun s hs => hs ▸ (h.accepts rfl).edited_overwrite _
      · exact from_assignNamed h hvalue (hparts value hvalue)
    · exact from_assignNamed h hvalue (hparts value hvalue)
  · refine from_env (fun _ => rfl) fun _ => from_andNone ?_
    exact from_weaken (from_settle_value (h.part hvalue) (hparts value hvalue))
      fun _ _ hvalued => edited_of_part h.laid hvalue hvalued
  · exact from_env (fun _ => rfl) fun _ => from_targetThenValue h htarget hvalue hbeside hparts

/-- A declaration is walked within itself if its parts are. -/
theorem from_walk_declaration {pattern value : Tree} (site : Site)
    (h : d.Ready (.node .declaration span [pattern, value]))
    (hparts : ∀ part ∈ [pattern, value], WalkedWithin w part) :
    From d (fun c d' => d.EditedIn (Syntax.Tree.node .declaration span [pattern, value]).region d' ∧
        Offers (.node .declaration span [pattern, value]) c)
      (walk w site (.node .declaration span [pattern, value])) := by
  have hpattern : pattern ∈ [pattern, value] := List.mem_cons_self
  have hvalue : value ∈ [pattern, value] := List.mem_cons_of_mem _ List.mem_cons_self
  have hbeside : Tree.Beside .declaration pattern value :=
    (List.pairwise_cons.1 h.laid.arranged.2.1).1 value List.mem_cons_self
  have hvalued : From d (fun _ d₁ => d.EditedIn value.region d₁)
      (settle w (walk w .value value)) := from_settle_value (h.part hvalue) (hparts value hvalue)
  -- the names are visited after the value that stands behind them
  have hpatterned {d₁ : Draft} (hvalued : d.EditedIn value.region d₁) :
      From d₁ (fun c d₂ => d.EditedIn (Syntax.Tree.node .declaration span [pattern, value]).region d₂ ∧
          Offers (.node .declaration span [pattern, value]) c)
        (visitParts w pattern >>= fun _ => pure none) := by
    have hready : d₁.Ready pattern := (h.part hpattern).edited hvalued fun region hmem => by
      obtain ⟨hbare, rfl⟩ := Tree.mem_region.1 hmem
      exact hbeside.admits_before (h.part hpattern).laid hbare rfl
    refine from_bind ((hparts pattern hpattern).visitParts d₁ hready) fun _ d₂ hvisited =>
      from_pure ⟨?_, offers_none _⟩
    exact (edited_of_part h.laid hvalue hvalued).trans (edited_of_part h.laid hpattern hvisited)
  rw [walk]
  refine from_read (fun _ => rfl) fun m _ => ?_
  dsimp only
  split
  · exact from_learns (draft_assignModule _ _)
  · split
    · refine from_read (fun _ => rfl) fun known _ => from_bind hvalued
        fun _ d₁ hvalued => from_env (fun _ => rfl) fun _ => ?_
      exact from_pure ⟨edited_of_part h.laid hvalue hvalued, offers_none _⟩
    · refine from_read (fun _ => rfl) fun known _ => from_bind hvalued fun _ d₁ hvalued => ?_
      split
      · exact from_env (draft_assignMembers _ _) fun _ => hpatterned hvalued
      · exact from_env (fun _ => rfl) fun _ => hpatterned hvalued
    · exact from_env (fun _ => rfl) fun _ => from_targetThenValue h hpattern hvalue hbeside hparts

/-- A comparison is walked within itself if its sides are. -/
theorem from_walk_binary {op : BinaryOp} {left right : Tree} (site : Site)
    (h : d.Ready (.node (.binary op) span [left, right]))
    (hparts : ∀ part ∈ [left, right], WalkedWithin w part) :
    From d (fun c d' => d.EditedIn (Syntax.Tree.node (.binary op) span [left, right]).region d' ∧
        Offers (.node (.binary op) span [left, right]) c)
      (walk w site (.node (.binary op) span [left, right])) := by
  have hleft : left ∈ [left, right] := List.mem_cons_self
  have hright : right ∈ [left, right] := List.mem_cons_of_mem _ List.mem_cons_self
  have hbeside : Tree.Beside (.binary op) left right :=
    (List.pairwise_cons.1 h.laid.arranged.2.1).1 right List.mem_cons_self
  rw [walk]
  refine from_read (fun _ => rfl) fun env _ => ?_
  split
  · rename_i mainIsLeft hcheck
    have hmodule := isIdentifier_of_entryCheck? hcheck
    cases mainIsLeft with
    | true =>
      exact from_entrySides h hright hleft
        (fun hbare => hbeside.admits_before (h.part hleft).laid hbare rfl) hmodule
        (hparts left hleft) rfl
    | false =>
      exact from_entrySides h hleft hright (hbeside.admits (h.part hright).laid) hmodule
        (hparts right hright) rfl
  · exact from_descend_parts h rfl hparts

/-- **A tree whose parts are walked within themselves is walked within itself.** -/
theorem from_walk_of_parts (h : d.Ready t) (hparts : ∀ part ∈ t.parts, WalkedWithin w part)
    (site : Site) :
    From d (fun c d' => d.EditedIn t.region d' ∧ Offers t c) (walk w site t) := by
  have hscope {kind : ScopeKind} {span : Span} :
      From d (fun c d' => d.EditedIn t.region d' ∧ Offers t c)
        (withScope w kind span (visitAll w t.parts) >>= fun _ => pure none) :=
    from_andNone (from_withScope (from_visitAll_parts h hparts))
  unfold walk
  split
  · exact from_identifier h
  · exact from_andNone (from_shorthand (h.accepts rfl))
  · have hwalked := from_walk_call site h hparts
    rw [walk] at hwalked
    exact hwalked
  · refine from_read (fun _ => rfl) fun isMember _ => ?_
    split
    · exact from_pure ⟨.refl _ d, offers_none _⟩
    · exact from_descend_parts h rfl hparts
  · have hwalked := from_walk_binary site h hparts
    rw [walk] at hwalked
    exact hwalked
  · refine from_bind (from_conditionalLoad (h.accepts rfl)) fun isLoad d₁ hload => ?_
    cases isLoad with
    | true => exact from_pure ⟨hload, offers_none _⟩
    | false =>
      obtain rfl : d₁ = d := hload
      exact from_descend_parts h rfl hparts
  · have hwalked := from_walk_assign site h hparts
    unfold walk at hwalked
    exact hwalked
  · rename_i span operand
    have hoperand : operand ∈ [operand] := List.mem_cons_self
    dsimp only
    split
    · exact from_learns fun _ => rfl
    · exact from_andNone (from_weaken ((hparts operand hoperand).visitParts d (h.part hoperand))
        fun _ _ hvisited => edited_of_part h.laid hoperand hvisited)
  · rename_i op span operand
    have hoperand : operand ∈ [operand] := List.mem_cons_self
    refine from_bind ((hparts operand hoperand).walk d _ (h.part hoperand))
      fun candidate d₁ ⟨hwalked, hoffers⟩ => ?_
    refine from_weaken (from_grow operand.region rfl false
      fun c hc => hoffers.accepts (h.part hoperand) hwalked hc) fun grown d₂ ⟨hgrown, hoffers₁⟩ =>
      ⟨edited_of_part h.laid hoperand (hwalked.trans hgrown), hoffers₁⟩
  · exact from_descend_parts h rfl hparts
  · exact from_descend_parts h rfl hparts
  · exact from_descend_parts h rfl hparts
  · exact from_descend_parts h rfl hparts
  · exact hscope
  · exact hscope
  · exact hscope
  · exact hscope
  · exact hscope
  · have hwalked := from_walk_declaration site h hparts
    rw [walk] at hwalked
    exact hwalked
  · exact from_andNone (from_visitAll_parts h hparts)

/-- **All walks are within their trees.** -/
theorem walkedWithin (w : WalkSetting) (t : Tree) : WalkedWithin w t := by
  obtain ⟨kind, span, parts⟩ := t
  have hparts : ∀ part ∈ parts, WalkedWithin w part := fun part _ => walkedWithin w part
  refine ⟨fun d site h => from_walk_of_parts h hparts site, fun d h => ?_⟩
  rw [visitParts]
  exact from_visitAll_parts h hparts
termination_by sizeOf t
decreasing_by
  have hlt := List.sizeOf_lt_of_mem ‹part ∈ parts›
  rw [Tree.node.sizeOf_spec]
  omega

end

end Walk

end ModuleAssets
