import ModuleAssets.Proofs.Relocation.Rewrites
import ModuleAssets.Proofs.Syntax.Outwards
/-!
# The walk — what its steps can do

A walk changes what it has learnt in few ways: it changes the environment, it
edits the draft, and it notes that an engine is set. `Allows` says that a
relation between states holds for all of these, so that it holds of every walk
from its start to its end. Where nothing is written and no scope is entered, the
environment need not even be allowed to change.

What a walk edits depends on where it is: at a node, within the scopes that are open
there, in an environment that has come about so far. A `Course` says which nodes the
walk comes by within which scopes, and what is true of the environments there. Of each
edit it is then known at which node and in which environments it is made.

What a step may do next depends on what it was answered: a candidate that grows
no more is edited where it was found. So what steps answer is kept track of, too.
-/

namespace ModuleAssets

open Syntax
open SpecialCase (argumentExpression)

namespace Walk

/-! ## Courses -/

/-- The scopes that are open in a node that opens one: its own, if that is found, and those
around it. -/
def entered (w : WalkSetting) (around : List Scope) (kind : ScopeKind) (span : Span) :
    List Scope :=
  match w.scopes.lookup kind span with
  | some scope => scope :: around
  | none => around

/-- The nodes that a walk comes by within some open scopes, the innermost first, and the
environments that there may be within these. From a node the walk goes on to its parts, within
the scope that the node opens if it opens one; what is written to is not walked itself, but its
parts are. -/
structure Course (w : WalkSetting) where
  node : List Scope → Tree → Prop
  env : List Scope → Environment → Prop
  part : ∀ {around t}, node around t → ScopeTree.opens t.kind = false →
    ∀ part ∈ t.parts, node around part
  target : ∀ {around t}, node around t → Tree.writes t.kind = true →
    ∀ target ∈ t.parts.head?, ∀ part ∈ target.parts, node around part
  inner : ∀ {around t}, node around t → ScopeTree.opens t.kind = true →
    ∀ part ∈ t.parts, node (entered w around (Tree.scopeKind t.kind) t.span) part
  define : ∀ {around env'}, env around env' → ∀ name v, env around (env'.define name v)
  invalidate : ∀ {around env'}, env around env' → ∀ name, env around (env'.invalidate name)
  enter : ∀ {around env'}, env around env' → ∀ scope, env (scope :: around) (env'.enter scope)
  leave : ∀ {around scope env'}, env (scope :: around) env' → env around (env'.leave scope)

namespace Course

/-- Of the nodes of a tree nothing is said but that they stand in it, and of the environments
nothing. -/
def within (w : WalkSetting) (root : Tree) : Course w where
  node _ t := root.Contains t
  env _ _ := True
  part h _ _ hpart := h.part hpart
  target h _ _ htarget _ hpart := (h.part (List.mem_of_mem_head? htarget)).part hpart
  inner h _ _ hpart := h.part hpart
  define _ _ _ := trivial
  invalidate _ _ := trivial
  enter _ _ := trivial
  leave _ := trivial

/-- What a walk writes on its course: at each node what is written there in the environments
that there may be. -/
def writing {w : WalkSetting} (c : Course w) : Writing where
  rewrites tasks span text :=
    ∃ around t names, c.node around t ∧ Splices w (c.env around) tasks t span text names
  inserts position text :=
    ∃ around t names, c.node around t ∧ Registers w (c.env around) t position text names
  mono htasks h := by
    obtain ⟨around, t, names, ht, htext⟩ := h
    exact ⟨around, t, names, ht, htext.mono htasks⟩

section

variable {w : WalkSetting} {root : Tree} {text : String}

theorem rewrites_within {tasks : List AssetTask} {span : Span}
    (h : (within w root).writing.rewrites tasks span text) : Rewrites w root tasks span text := by
  obtain ⟨_, t, names, ht, htext⟩ := h
  exact ⟨t, names, ht, htext⟩

theorem inserts_within {position : Nat} (h : (within w root).writing.inserts position text) :
    Inserts w root position text := by
  obtain ⟨_, t, names, ht, htext⟩ := h
  exact ⟨t, names, ht, htext⟩

end

end Course

/-! ## Steps -/

/-- The relation holds whatever a walk on its course does to its state. If all is
quiet, that does not include the environment. -/
structure Allows {w : WalkSetting} (c : Course w) (R : WalkState → WalkState → Prop)
    (quiet : Bool) : Prop where
  refl : ∀ s, R s s
  trans : ∀ {s s' s''}, R s s' → R s' s'' → R s s''
  draft : ∀ s d, s.draft.Moves w c.writing d → R s { s with draft := d }
  engine : ∀ s, R s { s with engineIsSet := true }
  env : quiet = false → ∀ s e, R s { s with env := e }

/-- Within the scopes around it, a step leads from each state to one that is related to it, it
leaves an environment that there may be within these scopes, and its answer is as said. -/
def Steps {w : WalkSetting} (c : Course w) (R : WalkState → WalkState → Prop)
    (around : List Scope) {α : Type} (Q : α → Prop) (step : Walk α) : Prop :=
  ∀ s, c.env around s.env →
    R s (step.run s).2 ∧ c.env around (step.run s).2.env ∧ Q (step.run s).1

/-- The candidate, if there is one, is that of the node. -/
def Stems (w : WalkSetting) (E : Environment → Prop) (t : Tree) (candidate : Option Candidate) :
    Prop :=
  ∀ c, candidate = some c → c.StemsFrom w E t

/-- So is the candidate that a call turns out to be. -/
def CallStems (w : WalkSetting) (E : Environment → Prop) (t : Tree) (step : CallStep) : Prop :=
  ∀ c, step = .leaf c → c.StemsFrom w E t

/-- The candidate, if there is one, is that of a node on the course. -/
def StemsOn {w : WalkSetting} (c : Course w) (around : List Scope)
    (candidate : Option Candidate) : Prop :=
  ∀ x, candidate = some x → ∃ t, c.node around t ∧ x.StemsFrom w (c.env around) t

/-- The evaluation is one of the expression in one of the environments, or it says nothing. -/
def Evaluates (w : WalkSetting) (E : Environment → Prop) (t : Tree) (e : Evaluation Outcome) :
    Prop :=
  e = .unknown ∨ ∃ env, E env ∧ e = t.evaluate w.ctx env

theorem Evaluates.exists_env {w : WalkSetting} {E : Environment → Prop} {t : Tree}
    {e : Evaluation Outcome} (h : Evaluates w E t e) {x : Outcome} (hvalue : e.value = some x) :
    ∃ env, E env ∧ e = t.evaluate w.ctx env := by
  obtain rfl | henv := h
  · cases hvalue
  · exact henv

section

variable {w : WalkSetting} {c : Course w} {R : WalkState → WalkState → Prop} {quiet : Bool}
variable {around : List Scope} {α β : Type} {Q : α → Prop} {Q' : β → Prop} {t : Tree}

theorem stems_none : Stems w (c.env around) t none := nofun

theorem Stems.on (ht : c.node around t) {candidate : Option Candidate}
    (h : Stems w (c.env around) t candidate) : StemsOn c around candidate :=
  fun x hx => ⟨t, ht, h x hx⟩

theorem steps_pure (h : Allows c R quiet) {a : α} (ha : Q a) :
    Steps c R around Q (pure a : Walk α) :=
  fun s henv => ⟨h.refl s, henv, ha⟩

theorem steps_bind (h : Allows c R quiet) {step : Walk α} {next : α → Walk β}
    (hstep : Steps c R around Q step) (hnext : ∀ a, Q a → Steps c R around Q' (next a)) :
    Steps c R around Q' (step >>= next) := by
  intro s henv
  obtain ⟨hfirst, henv', ha⟩ := hstep s henv
  obtain ⟨hrest, henv'', hb⟩ := hnext _ ha _ henv'
  exact ⟨h.trans hfirst hrest, henv'', hb⟩

/-- A step that goes on with the state it starts from. -/
theorem steps_get {next : WalkState → Walk α} (hnext : ∀ s, c.env around s.env →
      R s ((next s).run s).2 ∧ c.env around ((next s).run s).2.env ∧ Q ((next s).run s).1) :
    Steps c R around Q (get >>= next) :=
  hnext

theorem steps_overwrite (h : Allows c R quiet) (ht : c.node around t) {span : Span} {text : String}
    {names : List String}
    (htext : ∀ tasks, Splices w (c.env around) tasks t span text names) :
    Steps c R around (fun _ => True) (overwrite span text) :=
  fun s henv => ⟨h.draft s _ (.overwrite .nothing ⟨around, t, names, ht, htext _⟩
    (List.forall_mem_nil _)), henv, trivial⟩

theorem steps_modifyEnv (h : Allows c R false) {f : Environment → Environment}
    (hf : ∀ e, c.env around e → c.env around (f e)) :
    Steps c R around (fun _ => True) (modifyEnv f) :=
  fun s henv => ⟨h.env rfl s _, hf _ henv, trivial⟩

theorem steps_relocate (h : Allows c R quiet) (ht : c.node around t) {x : Candidate}
    (hx : x.StemsFrom w (c.env around) t) :
    Steps c R around (fun _ => True) (relocate w x) := by
  refine fun s henv => ⟨?_, henv, trivial⟩
  show R s { s with draft := x.relocate w.ctx w.source s.draft }
  have hmay : ∀ {tasks text names}, x.Replaced w.ctx w.source tasks text names →
      c.writing.rewrites tasks x.span text := fun htext =>
    ⟨around, t, _, ht, .candidate hx htext⟩
  obtain hsame | hmoves := x.moves_relocate hmay s.draft
  · rw [hsame]
    exact h.refl s
  · exact h.draft s _ hmoves

/-! What only reads leaves the state as it is. -/

theorem steps_env (h : Allows c R quiet) : Steps c R around (c.env around) env :=
  fun s henv => ⟨h.refl s, henv, henv⟩

theorem steps_evaluate (h : Allows c R quiet) (t : Tree) :
    Steps c R around (Evaluates w (c.env around) t) (evaluate w t) :=
  fun s henv => ⟨h.refl s, henv, .inr ⟨s.env, henv, rfl⟩⟩

theorem steps_known? (h : Allows c R quiet) (t : Tree) :
    Steps c R around (fun known => ∀ v ∈ known, HoldsSingle w (c.env around) t v) (known? w t) :=
  fun s henv => ⟨h.refl s, henv, fun _ hv => ⟨s.env, henv, hv⟩⟩

theorem steps_isLoader (h : Allows c R quiet) (t : Tree) :
    Steps c R around (fun b => b = true → ReadsLoader w (c.env around) t) (isLoader w t) :=
  fun s henv => ⟨h.refl s, henv, fun hloader => ⟨s.env, henv, hloader⟩⟩

theorem steps_isLoaderMember (h : Allows c R quiet) (name : String) (t : Tree) :
    Steps c R around (fun _ => True) (isLoaderMember w name t) :=
  fun s henv => ⟨h.refl s, henv, trivial⟩

theorem steps_requiredSpecifier? (h : Allows c R quiet) (t : Tree) :
    Steps c R around (fun specifier? => ∃ env, c.env around env ∧
      Loader.requiredSpecifier? w.grammar env t = specifier?) (requiredSpecifier? w t) :=
  fun s henv => ⟨h.refl s, henv, s.env, henv, rfl⟩

theorem steps_requiredModule? (h : Allows c R quiet) (t : Tree) :
    Steps c R around (fun _ => True) (requiredModule? w t) :=
  fun s henv => ⟨h.refl s, henv, trivial⟩

theorem steps_isGrammarBridge (h : Allows c R quiet) (t : Tree) :
    Steps c R around (fun _ => True) (isGrammarBridge w t) := by
  unfold isGrammarBridge
  split
  · exact fun s henv => ⟨h.refl s, henv, trivial⟩
  · exact steps_pure h trivial

/-! ## Names -/

theorem steps_identifier (h : Allows c R quiet) (site : Site) {name : String} {span : Span}
    {parts : List Tree} (ht : c.node around (.node (.identifier name) span parts)) :
    Steps c R around (Stems w (c.env around) (.node (.identifier name) span parts))
      (identifier w site name span) := by
  refine steps_bind h (steps_env h) fun env henv => ?_
  split
  · rename_i x hx
    exact steps_pure h fun _ heq => Option.some.inj heq ▸ .name henv hx
  · refine steps_bind h (steps_env h) fun env henv => ?_
    split
    · rename_i halias
      exact steps_bind h (steps_overwrite h ht fun _ => .loader henv halias) fun _ _ =>
        steps_pure h stems_none
    · exact steps_pure h stems_none

theorem steps_shorthand (h : Allows c R quiet) {name : String} {span : Span}
    {parts : List Tree} (ht : c.node around (.node (.shorthand name) span parts)) :
    Steps c R around (fun _ => True) (shorthand w name span) := by
  refine steps_bind h (steps_env h) fun env henv => ?_
  split
  · rename_i x hx
    refine steps_get fun s hs => ?_
    split
    · rename_i heq
      obtain ⟨references, hplans, hoccurs⟩ := Candidate.plans_replacement heq
      obtain ⟨names, hreplaced⟩ := Candidate.replaced_replacement (congrArg Prod.snd heq)
      rw [heq] at hreplaced
      refine ⟨h.draft s _ (.overwrite hplans ⟨around, _, names, ht, .shorthand henv hx hreplaced⟩
        fun reference hreference => (hoccurs reference hreference).append_right _), hs, trivial⟩
    · rename_i heq
      obtain rfl := Candidate.replacement_none heq
      exact ⟨h.refl s, hs, trivial⟩
  · refine steps_bind h (steps_env h) fun env henv => ?_
    split
    · rename_i halias
      exact steps_overwrite h ht fun _ => .shorthandLoader henv halias
    · exact steps_pure h trivial

end

/-! ## Names that are written -/

section

variable {w : WalkSetting} {c : Course w} {R : WalkState → WalkState → Prop}
variable {around : List Scope}

theorem steps_invalidateAll (h : Allows c R false) (names : List String) :
    Steps c R around (fun _ => True) (invalidateAll names) := by
  refine steps_modifyEnv h fun e he => ?_
  induction names generalizing e with
  | nil => exact he
  | cons name names ih => exact ih _ (c.invalidate he name)

theorem steps_invalidate (h : Allows c R false) (name : String) :
    Steps c R around (fun _ => True) (modifyEnv (·.invalidate name)) :=
  steps_modifyEnv h fun _ he => c.invalidate he name

theorem steps_assign (h : Allows c R false) (name : String) (value : Option Value) :
    Steps c R around (fun _ => True) (assign name value) := by
  refine steps_modifyEnv h fun e he => ?_
  cases value with
  | some v => exact c.define he name v
  | none => exact c.invalidate he name

theorem steps_assignMember (h : Allows c R false) (member? : String → Option Value)
    (t : Tree) : Steps c R around (fun _ => True) (assignMember member? t) := by
  unfold assignMember
  split
  · dsimp only
    split
    · split
      · exact steps_assign h _ _
      · exact steps_invalidateAll h _
    · split
      · exact steps_assign h _ _
      · exact steps_invalidateAll h _
    · exact steps_pure h trivial
    · exact steps_invalidateAll h _
  · exact steps_assign h _ _
  · exact steps_invalidateAll h _

theorem steps_assignMembers (h : Allows c R false) (member? : String → Option Value)
    (ts : List Tree) : Steps c R around (fun _ => True) (assignMembers member? ts) := by
  induction ts with
  | nil => exact steps_pure h trivial
  | cons t rest ih => exact steps_bind h (steps_assignMember h member? t) fun _ _ => ih

theorem steps_assignModule (h : Allows c R false) (m : KnownModule) (pattern : Tree) :
    Steps c R around (fun _ => True) (assignModule m pattern) := by
  unfold assignModule
  split
  · exact steps_assign h _ _
  · exact steps_assignMembers h _ _
  · exact steps_invalidateAll h _

end

/-! ## Calls -/

section

variable {w : WalkSetting} {c : Course w} {R : WalkState → WalkState → Prop} {quiet : Bool}
variable {around : List Scope} {span : Span} {callee argument : Tree}
variable {arguments rest : List Tree}

/-- A call that is done is no candidate. -/
theorem stems_done {E : Environment → Prop} {t : Tree} : CallStems w E t .done := nofun

/-- An edit is all that happens. -/
theorem steps_edit (h : Allows c R quiet) {t : Tree} (ht : c.node around t) {span : Span}
    {α : Type} {Q : α → Prop} {text : String} {names : List String} {a : α}
    (htext : ∀ tasks, Splices w (c.env around) tasks t span text names) (ha : Q a) :
    Steps c R around Q (overwrite span text >>= fun _ => pure a) :=
  steps_bind h (steps_overwrite h ht htext) fun _ _ => steps_pure h ha

theorem steps_unknownLoad (h : Allows c R quiet)
    (hcall : c.node around (.node .call span (callee :: argument :: rest)))
    (hloader : ReadsLoader w (c.env around) callee) :
    Steps c R around
      (CallStems w (c.env around) (.node .call span (callee :: argument :: rest)))
      (unknownLoad w callee (argumentExpression argument)) := by
  unfold unknownLoad
  split
  · rename_i hright
    exact steps_edit h hcall (fun _ => .fallback hloader hright) stems_done
  · exact steps_edit h hcall (fun _ => .unknownLoad hloader) nofun

/-- An argument is evaluated unless it stands for several. -/
theorem steps_loaderCall (h : Allows c R quiet)
    (hcall : c.node around (.node .call span (callee :: argument :: rest)))
    (hloader : ReadsLoader w (c.env around) callee) :
    Steps c R around
      (CallStems w (c.env around) (.node .call span (callee :: argument :: rest)))
      (loaderCall w span callee argument) := by
  unfold loaderCall
  dsimp only
  -- the argument is evaluated or not, and the rest is the same
  split
  all_goals
    refine steps_bind h (Q := Evaluates w (c.env around) (argumentExpression argument))
      (by first | exact steps_pure h (.inl rfl) | exact steps_evaluate h _)
      fun evaluation hevaluation => ?_
    split
    · exact steps_unknownLoad h hcall hloader
    · rename_i specifier hvalue
      obtain ⟨env, henv, rfl⟩ := hevaluation.exists_env hvalue
      have hholds : Holds w (c.env around) (argumentExpression argument) _ := ⟨env, henv, hvalue⟩
      split
      · rename_i binary hbinary
        obtain hpath : Finds w binary := .inr ⟨_, hbinary⟩
        intro s hs
        exact ⟨h.draft s _ (.overwrite (.addFile .nothing hpath)
          ⟨around, _, _, hcall, .addon hloader hholds hbinary (Plan.mem_addTask _ _)⟩
          fun _ hreference => List.mem_singleton.1 hreference ▸ Loader.occurs_dynamicLoad _),
          hs, stems_done⟩
      · split
        · exact steps_edit h hcall (fun _ => .specifier hloader hholds) stems_done
        · exact steps_pure h stems_done
    · rename_i test first second hvalue
      obtain ⟨env, henv, rfl⟩ := hevaluation.exists_env hvalue
      have hholds : Holds w (c.env around) (argumentExpression argument) _ := ⟨env, henv, hvalue⟩
      split
      · rename_i a b ha hb
        have hfirst : Finds w a := .inr ⟨_, ha⟩
        have hsecond : Finds w b := .inr ⟨_, hb⟩
        intro s hs
        refine ⟨h.draft s _ (.overwrite (.addFile (.addFile .nothing hfirst) hsecond)
          ⟨around, _, _, hcall, .addons hloader hholds ha hb
            (Plan.subset_addFile _ _ _ (Plan.mem_addTask _ _)) (Plan.mem_addTask _ _)⟩
          fun reference hreference => ?_), hs, stems_done⟩
        obtain rfl | hlast := List.mem_cons.1 hreference
        · exact (((Loader.occurs_dynamicLoad _).append_right _).append_left " : ").append_left _
        · exact List.mem_singleton.1 hlast ▸ (Loader.occurs_dynamicLoad _).append_right _
      · split
        · exact steps_edit h hcall (fun _ => .specifiers hloader hholds) stems_done
        · exact steps_pure h stems_done
    · exact steps_pure h stems_done

theorem steps_bindingsCall? (h : Allows c R quiet) {env : Environment} (henv : c.env around env)
    (hcallee : Loader.requiredSpecifier? w.grammar env callee = some "bindings") :
    Steps c R around (Stems w (c.env around) (.node .call span (callee :: arguments)))
      (bindingsCall? w span arguments) := by
  have hfound (request : Option Value) :
      Stems w (c.env around) (.node .call span (callee :: arguments))
        ((w.ctx.packageRoot.bind fun directory =>
            request.bind (Addon.byName? w.ctx.files directory w.ctx.options.nodeAbi)).map
          fun f => { Candidate.ofValue span (.text f.path) with loadsBinary := f.isLoaded }) := by
    intro x hx
    obtain ⟨found, hfound, rfl⟩ := Option.map_eq_some_iff.1 hx
    obtain ⟨directory, hdirectory, hfound⟩ := Option.bind_eq_some_iff.1 hfound
    obtain ⟨value, -, hfound⟩ := Option.bind_eq_some_iff.1 hfound
    exact .binary henv hcallee hdirectory hfound
  unfold bindingsCall?
  dsimp only
  split
  · exact steps_bind h (steps_pure (Q := fun _ => True) h trivial) fun _ _ =>
      steps_pure h (hfound _)
  · split
    · exact steps_bind h (steps_pure (Q := fun _ => True) h trivial) fun _ _ =>
        steps_pure h (hfound _)
    · exact steps_bind h (steps_known? h _) fun _ _ => steps_pure h (hfound _)

theorem steps_packageInfo (h : Allows c R quiet)
    (hcall : c.node around (.node .call span (callee :: arguments))) {env : Environment}
    (henv : c.env around env)
    (hcallee : Loader.requiredSpecifier? w.grammar env callee = some "pkginfo") :
    Steps c R around (fun _ => True) (packageInfo w span arguments) := by
  refine steps_bind h (steps_env h) fun env _ => ?_
  dsimp only
  split
  · exact steps_edit h hcall (fun _ => .packageInfo _ henv hcallee) trivial
  · exact steps_pure h trivial

theorem steps_resolveFrom (h : Allows c R quiet)
    (hcall : c.node around (.node .call span (callee :: arguments)))
    (hcallee : HoldsSingle w (c.env around) callee (.builtin .resolveFrom)) :
    Steps c R around (fun _ => True) (resolveFrom w span arguments) := by
  unfold resolveFrom
  split
  · split
    · exact steps_pure h trivial
    · refine steps_bind h (steps_known? h _) fun known hknown => ?_
      split
      · split
        · rename_i heq
          have hdirectory := heq ▸ hknown _ rfl
          exact steps_edit h hcall (fun _ => .resolveFrom hcallee hdirectory) trivial
        · exact steps_pure h trivial
      · exact steps_pure h trivial
  · exact steps_pure h trivial

theorem steps_loadSingle (h : Allows c R quiet)
    (hcall : c.node around (.node .call span (callee :: arguments)))
    (hcallee : HoldsSingle w (c.env around) callee (.builtin .nbindInit)) :
    Steps c R around (fun _ => True) (loadSingle w (.node .call span (callee :: arguments))) := by
  refine steps_bind h (steps_known? h _) fun known hknown => ?_
  split
  · split
    · rename_i hrelative
      exact steps_edit h hcall (fun _ => .singleAddon hcallee (hknown _ rfl) hrelative) trivial
    · exact steps_pure h trivial
  · exact steps_pure h trivial

theorem steps_applicationCall (h : Allows c R quiet) {method : String} {place : Span}
    {application : Tree} (hcall : c.node around
      (.node .call span (.node (.member method) place [application] :: arguments)))
    (happlication : HoldsSingle w (c.env around) application (.builtin .expressApp)) :
    Steps c R around (fun _ => True) (applicationCall w method application arguments) := by
  unfold applicationCall
  split
  · exact fun s hs => ⟨h.engine s, hs, trivial⟩
  · refine steps_get fun s hs => ?_
    split
    · rename_i hset
      obtain ⟨rfl, -⟩ := hset
      split
      · refine (steps_bind h (steps_known? h _) fun known hknown => ?_ :
          Steps c R around (fun _ => True) _) s hs
        split
        · exact fun s hs => ⟨h.draft s _ (.appendRight
            ⟨around, _, _, hcall, .engine happlication (hknown _ rfl)⟩), hs, trivial⟩
        · exact steps_pure h trivial
      · exact ⟨h.refl s, hs, trivial⟩
    · exact ⟨h.refl s, hs, trivial⟩

/-- Some step for a call, if there is one, is that of the call. -/
theorem steps_loadedCall? (h : Allows c R quiet)
    (hcall : c.node around (.node .call span (callee :: arguments))) :
    Steps c R around
      (fun step => ∀ s ∈ step, CallStems w (c.env around) (.node .call span (callee :: arguments)) s)
      (loadedCall? w span callee arguments) := by
  refine steps_bind h (steps_requiredSpecifier? h _) fun specifier? hspecifier => ?_
  obtain ⟨env, henv, hcallee⟩ := hspecifier
  split
  · refine steps_bind h (steps_bindingsCall? h henv hcallee) fun candidate hcandidate =>
      steps_pure h fun step hstep => ?_
    obtain ⟨x, hx, rfl⟩ := Option.map_eq_some_iff.1 hstep
    exact fun _ heq => CallStep.leaf.inj heq ▸ hcandidate x hx
  · refine steps_bind h (steps_packageInfo h hcall henv hcallee) fun found _ =>
      steps_pure h fun step hstep => ?_
    split at hstep
    · exact Option.some.inj hstep ▸ stems_done
    · cases hstep
  · exact steps_pure h nofun

theorem steps_resolveCall? (h : Allows c R quiet) {call : Tree} (hkind : call.kind = .call)
    (callee : Tree) :
    Steps c R around (fun step => ∀ s ∈ step, CallStems w (c.env around) call s)
      (resolveCall? w call callee) := by
  refine steps_bind h (steps_isLoaderMember h _ _) fun isMember _ => ?_
  split
  · refine steps_bind h (steps_known? h _) fun known hknown => ?_
    split
    · obtain ⟨env, henv, hvalue⟩ := hknown _ rfl
      refine steps_pure h fun step hstep => ?_
      obtain rfl := Option.some.inj hstep
      exact fun _ heq => CallStep.leaf.inj heq ▸ .module_ henv hkind hvalue
    · exact steps_pure h nofun
  · exact steps_pure h nofun

theorem steps_builtinCall? (h : Allows c R quiet)
    (hcall : c.node around (.node .call span (callee :: arguments))) :
    Steps c R around
      (fun step => ∀ s ∈ step, CallStems w (c.env around) (.node .call span (callee :: arguments)) s)
      (builtinCall? w (.node .call span (callee :: arguments)) callee arguments) := by
  refine steps_bind h (steps_known? h _) fun known hknown => ?_
  split
  · refine steps_bind h (steps_resolveFrom h hcall (hknown _ rfl)) fun found _ =>
      steps_pure h fun step hstep => ?_
    split at hstep
    · obtain rfl := Option.some.inj hstep
      exact nofun
    · cases hstep
  · refine steps_bind h (steps_loadSingle h hcall (hknown _ rfl)) fun found _ =>
      steps_pure h fun step hstep => ?_
    split at hstep
    · exact Option.some.inj hstep ▸ stems_done
    · cases hstep
  · exact steps_pure h nofun

/-- A call that is an expression like others is no candidate yet. -/
theorem stems_descend {E : Environment → Prop} {t : Tree} : CallStems w E t .descend := nofun

theorem steps_call (h : Allows c R quiet)
    (hcall : c.node around (.node .call span (callee :: arguments))) :
    Steps c R around (CallStems w (c.env around) (.node .call span (callee :: arguments)))
      (call w (.node .call span (callee :: arguments)) callee arguments) := by
  unfold call
  dsimp only
  split
  · exact steps_pure h stems_descend
  · refine steps_bind h (steps_isLoader h _) fun isLoader hloader => ?_
    split
    · exact steps_loaderCall h hcall (hloader rfl)
    · refine steps_bind h (steps_loadedCall? h hcall) fun loaded hloaded => ?_
      split
      · exact steps_pure h (hloaded _ rfl)
      · refine steps_bind h (steps_resolveCall? h rfl _) fun resolved hresolved => ?_
        split
        · exact steps_pure h (hresolved _ rfl)
        · refine steps_bind h (steps_builtinCall? h hcall) fun known hknown => ?_
          split
          · exact steps_pure h (hknown _ rfl)
          · split
            · refine steps_bind h (steps_known? h _) fun application happlication => ?_
              split
              · exact steps_bind h (steps_applicationCall h hcall (happlication _ rfl)) fun _ _ =>
                  steps_pure h stems_descend
              · exact steps_pure h stems_descend
            · exact steps_pure h stems_descend

/-! ## Other forms -/

theorem steps_entryCheck (h : Allows c R quiet) {op : BinaryOp} {left right : Tree}
    (ht : c.node around (.node (.binary op) span [left, right])) {env : Environment}
    (henv : c.env around env) {mainIsLeft : Bool}
    (hmain : entryCheck? w env op left right = some mainIsLeft) :
    Steps c R around (fun _ => True) (entryCheck w span (if mainIsLeft then right else left)) := by
  unfold entryCheck
  split
  · rename_i hentry
    exact steps_overwrite h ht fun _ => .mainModule henv hmain hentry
  · rename_i hentry
    exact steps_overwrite h ht fun _ => .notMain henv hmain (Bool.not_eq_true _ ▸ hentry)

theorem steps_conditionalLoad (h : Allows c R quiet) {test first second : Tree}
    (ht : c.node around (.node .conditional span [test, first, second])) :
    Steps c R around (fun _ => True) (conditionalLoad w span test first second) := by
  refine steps_bind h (steps_requiredSpecifier? h _) fun _ _ =>
    steps_bind h (steps_requiredSpecifier? h _) fun _ _ =>
    steps_bind h (steps_known? h _) fun known hknown => ?_
  split
  · exact steps_edit h ht (fun _ => .chosenLoad (hknown _ rfl)) trivial
  · exact steps_pure h trivial

theorem steps_grow (h : Allows c R quiet) (whole : Tree) (tried : Bool)
    {candidate : Option Candidate} (hcandidate : StemsOn c around candidate) :
    Steps c R around (Stems w (c.env around) whole) (grow w whole tried candidate) := by
  cases candidate with
  | none => exact steps_pure h stems_none
  | some x =>
    obtain ⟨t, ht, hx⟩ := hcandidate x rfl
    unfold grow
    dsimp only
    -- the whole is evaluated or not, and the rest is the same
    split
    all_goals
      refine steps_bind h (Q := Evaluates w (c.env around) whole)
        (by first | exact steps_pure h (.inl rfl) | exact steps_evaluate h _)
        fun evaluation hevaluation => ?_
      split
      · rename_i outcome hvalue
        obtain ⟨env, henv, rfl⟩ := hevaluation.exists_env hvalue
        exact steps_pure h fun _ heq => Option.some.inj heq ▸ .grown henv hvalue
      · exact steps_bind h (steps_relocate h ht hx) fun _ _ => steps_pure h stems_none

theorem steps_settle (h : Allows c R quiet) {t : Tree} (ht : c.node around t)
    {step : Walk (Option Candidate)} (hstep : Steps c R around (Stems w (c.env around) t) step) :
    Steps c R around (fun _ => True) (settle w step) := by
  refine steps_bind h hstep fun candidate hcandidate => ?_
  split
  · exact steps_relocate h ht (hcandidate _ rfl)
  · exact steps_pure h trivial

theorem steps_withScope (h : Allows c R false) {α : Type} {Q : α → Prop} (kind : ScopeKind)
    (span : Span) {step : Walk α} (hstep : Steps c R (entered w around kind span) Q step) :
    Steps c R around Q (withScope w kind span step) := by
  unfold withScope
  unfold entered at hstep
  split
  · rename_i scope hscope
    rw [hscope] at hstep
    intro s hs
    obtain ⟨hinner, hs', ha⟩ := hstep { s with env := s.env.enter scope } (c.enter hs scope)
    exact ⟨h.trans (h.env rfl s _) (h.trans hinner (h.env rfl _ _)), c.leave hs', ha⟩
  · rename_i hscope
    rwa [hscope] at hstep

end

/-! ## Whole walks -/

/-- A node at which a walk changes the environment: something is written, or a
scope is entered. -/
def isLoud : Kind → Bool
  | .assign _ | .update | .declaration | .function _ | .functionDeclaration _ | .arrow | .block
  | .catch_ => true
  | _ => false

mutual

/-- No node of the tree is loud. -/
def isQuiet : Tree → Bool
  | .node kind _ parts => !isLoud kind && isQuietIn parts

/-- `isQuiet` for trees one after another. -/
def isQuietIn : List Tree → Bool
  | [] => true
  | t :: rest => isQuiet t && isQuietIn rest

end

section

variable {w : WalkSetting} {c : Course w} {R : WalkState → WalkState → Prop} {quiet : Bool}
variable {around : List Scope}

/-- What is to be shown of a node on the course: walks and visits are steps, and the candidate
that it turns out to be is its own. -/
structure Walked (c : Course w) (R : WalkState → WalkState → Prop) (around : List Scope)
    (t : Tree) : Prop where
  node : c.node around t
  walk : ∀ site, Steps c R around (Stems w (c.env around) t) (walk w site t)
  visitParts : (∀ part ∈ t.parts, c.node around part) →
    Steps c R around (fun _ => True) (visitParts w t)

theorem steps_visitAll (h : Allows c R quiet) {parts : List Tree}
    (hparts : ∀ part ∈ parts, Walked c R around part) :
    Steps c R around (fun _ => True) (visitAll w parts) := by
  induction parts with
  | nil => exact steps_pure h trivial
  | cons part rest ih =>
    rw [visitAll]
    have hpart := hparts part List.mem_cons_self
    exact steps_bind h (steps_settle h hpart.node (hpart.walk _)) fun _ _ =>
      ih fun part hpart => hparts part (List.mem_cons_of_mem _ hpart)

theorem steps_visitLast (h : Allows c R quiet) {parts : List Tree}
    (hparts : ∀ part ∈ parts, Walked c R around part) :
    Steps c R around (fun _ => True) (visitLast w parts) := by
  induction parts with
  | nil => exact steps_pure h trivial
  | cons part rest ih =>
    cases rest with
    | nil =>
      have hpart := hparts part List.mem_cons_self
      exact steps_settle h hpart.node (hpart.walk _)
    | cons next rest =>
      rw [visitLast]
      exact ih fun part hpart => hparts part (List.mem_cons_of_mem _ hpart)

theorem steps_descend (h : Allows c R quiet) (whole : Tree) (tried : Bool)
    {candidate : Option Candidate} (hcandidate : StemsOn c around candidate) {parts : List Tree}
    (hparts : ∀ part ∈ parts, Walked c R around part) :
    Steps c R around (Stems w (c.env around) whole) (descend w whole tried candidate parts) := by
  induction parts generalizing tried candidate with
  | nil => exact steps_grow h whole _ hcandidate
  | cons part rest ih =>
    have hpart := hparts part List.mem_cons_self
    rw [descend]
    refine steps_bind h (steps_grow h whole _ hcandidate) fun grown hgrown => ?_
    split
    · exact steps_pure h hgrown
    · exact steps_bind h (hpart.walk _) fun next hnext =>
        ih _ (hnext.on hpart.node) fun part hpart => hparts part (List.mem_cons_of_mem _ hpart)

/-- At a loud node the environment may change. -/
theorem Allows.loud (h : Allows c R quiet) {kind : Kind}
    (hquiet : quiet = true → isLoud kind = false) (hloud : isLoud kind = true) :
    Allows c R false := by
  cases quiet with
  | false => exact h
  | true => exact absurd (hloud.symm.trans (hquiet rfl)) Bool.false_ne_true.symm

/-- The side of the loader's main module is a member of the loader. -/
theorem not_opens_of_entryCheck? {env : Environment} {op : BinaryOp} {left right : Tree}
    {mainIsLeft : Bool} (h : entryCheck? w env op left right = some mainIsLeft) :
    ScopeTree.opens (if mainIsLeft then left else right).kind = false := by
  have hmember {t other : Tree}
      (h : (Loader.isLoaderMember w.grammar env "main" t && other.isIdentifier "module") = true) :
      ScopeTree.opens t.kind = false := by
    have hmain := (Bool.and_eq_true _ _ ▸ h).1
    unfold Loader.isLoaderMember at hmain
    split at hmain
    · rfl
    · exact absurd hmain Bool.false_ne_true
  unfold entryCheck? at h
  dsimp only at h
  split at h
  · split at h
    · rename_i hmain
      obtain rfl := Option.some.inj h
      exact hmember hmain
    · split at h
      · rename_i hmain
        obtain rfl := Option.some.inj h
        exact hmember hmain
      · cases h
  · cases h

/-- What is done for no candidate. -/
theorem steps_none (h : Allows c R quiet) {t : Tree} {step : Walk Unit}
    (hstep : Steps c R around (fun _ => True) step) :
    Steps c R around (Stems w (c.env around) t) (step >>= fun _ => pure (none : Option Candidate)) :=
  steps_bind h hstep fun _ _ => steps_pure h stems_none

theorem stemsOn_none : StemsOn c around none := nofun

/-- A call whose callee and arguments are walked in steps. -/
theorem steps_walk_call (h : Allows c R quiet) {span : Span} {callee : Tree} {arguments : List Tree}
    (ht : c.node around (.node .call span (callee :: arguments)))
    (hparts : ∀ part ∈ callee :: arguments, Walked c R around part) (site : Site) :
    Steps c R around (Stems w (c.env around) (.node .call span (callee :: arguments)))
      (walk w site (.node .call span (callee :: arguments))) := by
  obtain ⟨hcallee, harguments⟩ := List.forall_mem_cons.1 hparts
  rw [walk]
  refine steps_bind h (steps_call h ht) fun step hstep => ?_
  split
  · exact steps_pure h stems_none
  · exact steps_pure h fun _ heq => hstep _ (Option.some.inj heq ▸ rfl)
  · exact steps_none h (steps_visitAll h harguments)
  · exact steps_none h (steps_visitLast h harguments)
  · exact steps_bind h (hcallee.walk _) fun _ hcandidate =>
      steps_descend h _ _ (hcandidate.on hcallee.node) harguments

/-- A binary operation, which may ask for the main module. -/
theorem steps_walk_binary (h : Allows c R quiet) {op : BinaryOp} {span : Span} {left right : Tree}
    (ht : c.node around (.node (.binary op) span [left, right]))
    (hparts : ∀ part ∈ [left, right], Walked c R around part) (site : Site) :
    Steps c R around (Stems w (c.env around) (.node (.binary op) span [left, right]))
      (walk w site (.node (.binary op) span [left, right])) := by
  obtain ⟨hleft, hright, -⟩ : Walked c R around left ∧ Walked c R around right ∧ _ := by
    simpa only [List.forall_mem_cons] using hparts
  rw [walk]
  refine steps_bind h (steps_env h) fun env henv => ?_
  split
  · rename_i mainIsLeft hmain
    have hside := not_opens_of_entryCheck? hmain
    refine steps_bind h (steps_entryCheck h ht henv hmain) fun _ _ => ?_
    -- the other side is not walked, and the side of the main module only in its parts
    split
    · split
      · rename_i hleftMain
        rw [if_pos hleftMain] at hside
        exact steps_none h (hleft.visitParts (c.part hleft.node hside))
      · rename_i hrightMain
        rw [if_neg hrightMain] at hside
        exact steps_none h (hright.visitParts (c.part hright.node hside))
    · exact steps_pure h stems_none
  · exact steps_descend h _ _ stemsOn_none hparts

/-- An assignment. The walk of its value comes before what is known of the name changes. -/
theorem steps_walk_assign (h : Allows c R quiet) (hloud : Allows c R false) {op : Option BinaryOp}
    {span : Span} {target value : Tree}
    (ht : c.node around (.node (.assign op) span [target, value]))
    (htarget : Steps c R around (fun _ => True) (visitParts w target))
    (hvalue : Walked c R around value) (site : Site) :
    Steps c R around (Stems w (c.env around) (.node (.assign op) span [target, value]))
      (walk w site (.node (.assign op) span [target, value])) := by
  have hsettled : Steps c R around (fun _ => True) (settle w (walk w .value value)) :=
    steps_settle h hvalue.node (hvalue.walk _)
  unfold walk
  dsimp only
  split
  · rename_i name hname
    -- a loader may be bridged first; the rest is the same
    split
    · refine steps_bind h (steps_isGrammarBridge h _) fun isBridge _ => ?_
      split
      · rename_i hloader _ _
        exact steps_none h (steps_overwrite h ht fun _ => .grammarBridge (hloader ▸ hname))
      · refine steps_bind h (steps_requiredModule? h _) fun m _ => ?_
        split
        · exact steps_none h (steps_assign hloud _ _)
        · exact steps_bind h (steps_known? h _) fun _ _ => steps_bind h hsettled fun _ _ =>
            steps_none h (steps_assign hloud _ _)
    · refine steps_bind h (steps_requiredModule? h _) fun m _ => ?_
      split
      · exact steps_none h (steps_assign hloud _ _)
      · exact steps_bind h (steps_known? h _) fun _ _ => steps_bind h hsettled fun _ _ =>
          steps_none h (steps_assign hloud _ _)
  · exact steps_bind h (steps_invalidate hloud _) fun _ _ => steps_none h hsettled
  · exact steps_bind h (steps_invalidateAll hloud _) fun _ _ =>
      steps_bind h htarget fun _ _ => steps_none h hsettled

/-- A declaration with a value. -/
theorem steps_walk_declaration (h : Allows c R quiet) (hloud : Allows c R false) (span : Span)
    {pattern value : Tree} (hpattern : Steps c R around (fun _ => True) (visitParts w pattern))
    (hvalue : Walked c R around value) (site : Site) :
    Steps c R around (Stems w (c.env around) (.node .declaration span [pattern, value]))
      (walk w site (.node .declaration span [pattern, value])) := by
  have hsettled : Steps c R around (fun _ => True) (settle w (walk w .value value)) :=
    steps_settle h hvalue.node (hvalue.walk _)
  rw [walk]
  refine steps_bind h (steps_requiredModule? h _) fun m _ => ?_
  split
  · exact steps_none h (steps_assignModule hloud _ _)
  · split
    · exact steps_bind h (steps_known? h _) fun _ _ => steps_bind h hsettled fun _ _ =>
        steps_none h (steps_assign hloud _ _)
    · refine steps_bind h (steps_known? h _) fun _ _ => steps_bind h hsettled fun _ _ => ?_
      split
      · exact steps_bind h (steps_assignMembers hloud _ _) fun _ _ => steps_none h hpattern
      · exact steps_bind h (steps_invalidateAll hloud _) fun _ _ => steps_none h hpattern
    · exact steps_bind h (steps_invalidateAll hloud _) fun _ _ =>
        steps_bind h hpattern fun _ _ => steps_none h hsettled

/-- A node whose parts are walked in steps is walked in steps. -/
theorem steps_walk_of_parts (h : Allows c R quiet) {t : Tree} (ht : c.node around t)
    (hquiet : quiet = true → isLoud t.kind = false)
    (hparts : ∀ part ∈ t.parts, ∀ {around}, c.node around part → Walked c R around part)
    (site : Site) : Steps c R around (Stems w (c.env around) t) (walk w site t) := by
  -- the parts of a node that opens no scope, and of one that opens one
  have hclosed (hopens : ScopeTree.opens t.kind = false) :
      ∀ part ∈ t.parts, Walked c R around part :=
    fun part hpart => hparts part hpart (c.part ht hopens part hpart)
  have hopened (hopens : ScopeTree.opens t.kind = true) (hloud : Allows c R false) :
      Steps c R around (fun _ => True)
        (withScope w (Tree.scopeKind t.kind) t.span (visitAll w t.parts)) :=
    steps_withScope hloud _ _ (steps_visitAll h fun part hpart =>
      hparts part hpart (c.inner ht hopens part hpart))
  have hwritten (hwrites : Tree.writes t.kind = true) {target : Tree}
      (htarget : target ∈ t.parts.head?) (hwalked : Walked c R around target) :
      Steps c R around (fun _ => True) (visitParts w target) :=
    hwalked.visitParts (c.target ht hwrites target htarget)
  unfold walk
  split
  · exact steps_identifier h _ ht
  · exact steps_none h (steps_shorthand h ht)
  · rename_i span callee arguments
    have hcall := steps_walk_call h ht (hclosed rfl) site
    rwa [walk] at hcall
  · refine steps_bind h (steps_isLoaderMember h _ _) fun isMember _ => ?_
    split
    · exact steps_pure h stems_none
    · exact steps_descend h _ _ stemsOn_none (hclosed rfl)
  · rename_i op span left right
    have hbinary := steps_walk_binary h ht (hclosed rfl) site
    rwa [walk] at hbinary
  · refine steps_bind h (steps_conditionalLoad h ht) fun isLoad _ => ?_
    split
    · exact steps_pure h stems_none
    · exact steps_descend h _ _ stemsOn_none (hclosed rfl)
  · rename_i op span target value
    have hvalue := hclosed rfl value (List.mem_cons_of_mem _ List.mem_cons_self)
    have hassign := steps_walk_assign h (h.loud hquiet rfl) ht
      (hwritten rfl rfl (hclosed rfl target List.mem_cons_self)) hvalue site
    unfold walk at hassign
    exact hassign
  · rename_i span operand
    have hloud := h.loud hquiet rfl
    have hoperand := hwritten rfl rfl (hclosed rfl operand List.mem_cons_self)
    dsimp only
    split
    · exact steps_none h (steps_invalidate hloud _)
    · exact steps_none h hoperand
  · rename_i op span operand
    have hoperand : Walked c R around operand := hclosed rfl operand List.mem_cons_self
    exact steps_bind h (hoperand.walk _) fun _ hcandidate =>
      steps_descend h _ _ (hcandidate.on hoperand.node) (fun _ => nofun)
  · exact steps_descend h _ _ stemsOn_none (hclosed rfl)
  · exact steps_descend h _ _ stemsOn_none (hclosed rfl)
  · exact steps_descend h _ _ stemsOn_none (hclosed rfl)
  · exact steps_descend h _ _ stemsOn_none (hclosed rfl)
  · exact steps_none h (hopened rfl (h.loud hquiet rfl))
  · exact steps_none h (hopened rfl (h.loud hquiet rfl))
  · exact steps_none h (hopened rfl (h.loud hquiet rfl))
  · exact steps_none h (hopened rfl (h.loud hquiet rfl))
  · exact steps_none h (hopened rfl (h.loud hquiet rfl))
  · rename_i span pattern value
    have hvalue := hclosed rfl value (List.mem_cons_of_mem _ List.mem_cons_self)
    have hdeclaration := steps_walk_declaration h (h.loud hquiet rfl) span
      (hwritten rfl rfl (hclosed rfl pattern List.mem_cons_self)) hvalue site
    rwa [walk] at hdeclaration
  · rename_i kind span parts _ _ _ _ _ _ _ _ _ _ _ _ _ hfunction hdeclaration harrow hblock hcatch _
    have hopens : ScopeTree.opens kind = false := by
      unfold ScopeTree.opens
      split
      · exact (hdeclaration _ rfl).elim
      · exact (hfunction _ rfl).elim
      · exact (harrow rfl).elim
      · exact (hblock rfl).elim
      · exact (hcatch rfl).elim
      · rfl
    exact steps_none h (steps_visitAll h (hclosed hopens))

theorem isQuiet_of_mem {parts : List Tree} (h : isQuietIn parts = true) {part : Tree}
    (hpart : part ∈ parts) : isQuiet part = true := by
  induction parts with
  | nil => exact absurd hpart List.not_mem_nil
  | cons t rest ih =>
    rw [isQuietIn, Bool.and_eq_true] at h
    obtain rfl | hrest := List.mem_cons.1 hpart
    · exact h.1
    · exact ih h.2 hrest

/-- **All walks are made of steps.** -/
theorem walked (h : Allows c R quiet) :
    ∀ t : Tree, (quiet = true → isQuiet t = true) → ∀ {around : List Scope}, c.node around t →
      Walked c R around t
  | .node kind span parts, hquiet, around, ht => by
    have hkind : quiet = true → isLoud kind = false ∧ isQuietIn parts = true := fun hq => by
      have hnode := hquiet hq
      rw [isQuiet, Bool.and_eq_true, Bool.not_eq_true'] at hnode
      exact hnode
    have hparts : ∀ part ∈ parts, ∀ {around}, c.node around part → Walked c R around part :=
      fun part hpart => walked h part fun hq => isQuiet_of_mem (hkind hq).2 hpart
    refine ⟨ht, steps_walk_of_parts h ht (fun hq => (hkind hq).1) hparts, fun hnodes => ?_⟩
    rw [visitParts]
    exact steps_visitAll h fun part hpart => hparts part hpart (hnodes part hpart)
termination_by t => sizeOf t
decreasing_by
  have hlt := List.sizeOf_lt_of_mem hpart
  rw [Tree.node.sizeOf_spec]
  omega

end

end Walk

end ModuleAssets
