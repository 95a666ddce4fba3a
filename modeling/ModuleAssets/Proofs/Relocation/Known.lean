import ModuleAssets.Build
import ModuleAssets.Proofs.Relocation.Learnt
/-!
# Control flow — what is known holds

A walk visits both branches one after the other, and the parts of a loop once.
What it has learnt at the end of one branch it still takes for known in the
other and after both, and what it knew before a loop it takes for known in all
rounds. So known values are right only where nothing of this is used: `forgets`
asks that names written in a branch are unknown right after it, and names
written in a loop throughout the loop and right after it.

With this condition every run agrees with the walk at every place it comes to.
Without it a single loop is enough for the two to part.
-/

namespace ModuleAssets.Flow

open Syntax Syntax.Tree Walk

/-! ## The condition -/

/-- None of the names is known. -/
def isUnknown (env : Environment) (names : List String) : Bool :=
  names.all fun name => (env.lookup? name).isNone

section

variable (w : WalkSetting)

/-- None of the names is known before any of the parts, nor after them. -/
def staysUnknown (names : List String) : WalkState → List Tree → Bool
  | s, [] => isUnknown s.env names
  | s, t :: rest => isUnknown s.env names && staysUnknown names (past w t s) rest

mutual

/-- What a branch writes is unknown after it, what a loop writes is unknown
throughout the loop and after it, and a name that is declared without a value
is unknown there. -/
def forgets (s : WalkState) : Tree → Bool
  | node .block span parts => forgetsIn { s with env := inside w span s.env } parts
  | node .if_ _ (test :: yes :: no) =>
    let tested := past w test s
    let afterYes := past w yes tested
    forgets s test && forgets tested yes && isUnknown afterYes.env (writes w yes) &&
      (forgetsIn afterYes no && isUnknown (pastAll w no afterYes).env (writesIn w no))
  | node .declaration _ [pattern] => isUnknown s.env pattern.boundNames
  | node .declaration _ _ | node (.assign _) _ _ | node .update _ _ => true
  | node kind span parts =>
    let head := headLength kind parts
    isUnknown s.env (node kind span parts).boundNames && forgetsIn s parts &&
      (role kind != .loop ||
        staysUnknown w (writesIn w (parts.drop head)) (pastAll w (parts.take head) s)
          (parts.drop head))

/-- `forgets` for trees one after another. -/
def forgetsIn (s : WalkState) : List Tree → Bool
  | [] => true
  | t :: rest => forgets s t && forgetsIn (past w t s) rest

end

/-! ## Places -/

/-- The environment with which the parts of a node are visited. Names that get
an unknown value forget theirs before the value is visited. -/
def opened : Tree → Environment → Environment
  | node .block span _, env => inside w span env
  | node (.assign none) _ [node (.binding _) _ _, _], env => env
  | node (.assign _) _ [target, _], env => env.learnAll (unknown target.boundNames)
  | node .declaration _ [node (.binding _) _ _, _], env => env
  | node .declaration _ [node .objectPattern _ _, _], env => env
  | node .declaration _ [pattern, _], env => env.learnAll (unknown pattern.boundNames)
  | _, env => env

/-- The state with which a walk comes to a place. -/
def arrive : Tree → List Nat → WalkState → WalkState
  | _, [], s => s
  | node kind span parts, i :: place, s =>
    match parts[i]? with
    | some t =>
      arrive t place
        (pastAll w (parts.take i) { s with env := opened w (node kind span parts) s.env })
    | none => s

end

variable {w : WalkSetting} {ρ σ σ' : Environment} {s : WalkState}

theorem isUnknown_iff {env : Environment} {names : List String} :
    isUnknown env names = true ↔ ∀ name ∈ names, env.lookup? name = none := by
  simp [isUnknown]

theorem isUnknown_of_staysUnknown {names : List String} {parts : List Tree}
    (h : staysUnknown w names s parts = true) (i : Nat) :
    isUnknown (pastAll w (parts.take i) s).env names = true := by
  induction parts generalizing s i with
  | nil =>
    rw [List.take_nil]
    exact h
  | cons t rest ih =>
    rw [staysUnknown, Bool.and_eq_true] at h
    cases i with
    | zero => exact h.1
    | succ i => exact ih h.2 i

theorem forgets_of_getElem? {parts : List Tree} (h : forgetsIn w s parts = true) {i : Nat}
    {part : Tree} (hpart : parts[i]? = some part) :
    forgets w (pastAll w (parts.take i) s) part = true := by
  induction parts generalizing s i with
  | nil => simp at hpart
  | cons t rest ih =>
    rw [forgetsIn, Bool.and_eq_true] at h
    cases i with
    | zero =>
      rw [List.getElem?_cons_zero, Option.some.injEq] at hpart
      exact hpart ▸ h.1
    | succ i => exact ih h.2 hpart

theorem forgetsIn_take {parts : List Tree} (h : forgetsIn w s parts = true) (i : Nat) :
    forgetsIn w s (parts.take i) = true := by
  induction parts generalizing s i with
  | nil =>
    rw [List.take_nil]
    exact h
  | cons t rest ih =>
    rw [forgetsIn, Bool.and_eq_true] at h
    cases i with
    | zero => rfl
    | succ i =>
      rw [List.take_succ_cons, forgetsIn, h.1, ih h.2]
      rfl

/-- The condition at nodes that are neither blocks nor branches and write to no
names by themselves. -/
theorem forgets_node {kind : Kind} {span : Span} {parts : List Tree}
    (hkind : role kind ≠ .block ∧ role kind ≠ .branch ∧ role kind ≠ .writing)
    (h : forgets w s (node kind span parts) = true) :
    isUnknown s.env (node kind span parts).boundNames = true ∧ forgetsIn w s parts = true ∧
      (role kind = .loop → staysUnknown w (writesIn w (parts.drop (headLength kind parts)))
        (pastAll w (parts.take (headLength kind parts)) s)
        (parts.drop (headLength kind parts)) = true) := by
  obtain ⟨hblock, hbranch, hwriting⟩ := hkind
  unfold forgets at h
  split at h
  · rename_i heq
    exact absurd ((node.inj heq).1 ▸ rfl) hblock
  · rename_i heq
    exact absurd ((node.inj heq).1 ▸ rfl) hbranch
  · rename_i heq
    exact absurd ((node.inj heq).1 ▸ rfl) hwriting
  · rename_i heq
    exact absurd ((node.inj heq).1 ▸ rfl) hwriting
  · rename_i heq
    exact absurd ((node.inj heq).1 ▸ rfl) hwriting
  · rename_i heq
    exact absurd ((node.inj heq).1 ▸ rfl) hwriting
  · rename_i heq
    obtain ⟨rfl, rfl, rfl⟩ := node.inj heq
    simp only [Bool.and_eq_true, Bool.or_eq_true, bne_iff_ne, ne_eq] at h
    exact ⟨h.1.1, h.1.2, fun hloop => h.2.resolve_left fun hne => hne hloop⟩

theorem forgets_branch {span : Span} {test yes : Tree} {no : List Tree}
    (h : forgets w s (node .if_ span (test :: yes :: no)) = true) :
    let afterYes := past w yes (past w test s)
    forgets w s test = true ∧ forgets w (past w test s) yes = true ∧
      isUnknown afterYes.env (writes w yes) = true ∧ forgetsIn w afterYes no = true ∧
      isUnknown (pastAll w no afterYes).env (writesIn w no) = true := by
  simp only [forgets, Bool.and_eq_true] at h
  exact ⟨h.1.1.1, h.1.1.2, h.1.2, h.2.1, h.2.2⟩

/-! ## What is written on both sides -/

theorem gives_iff {ctx : ModuleContext} {env : Environment} {t : Tree} {v : Value} :
    (t.evaluate ctx env).single.value = some v ↔ Gives ctx env t (.single v) := by
  simp [Gives, Option.bind_eq_some_iff]

theorem requiredModule?_congr (h : ρ.Agrees σ) (grammar : Grammar) (t : Tree) :
    Loader.requiredModule? grammar σ t = Loader.requiredModule? grammar ρ t := by
  have hvisible : σ.loaderVisible = ρ.loaderVisible := by
    rw [Environment.loaderVisible, Environment.depth?, h.loader]
    rfl
  have hloader (t : Tree) : Loader.isLoader grammar σ t = Loader.isLoader grammar ρ t := by
    rw [Loader.isLoader, Loader.isLoader, hvisible]
  rw [Loader.requiredModule?, Loader.requiredModule?]
  congr 1
  unfold Loader.requiredSpecifier?
  split
  · rw [hloader]
  · rfl

/-- The store of a run knows no less of a value. -/
theorem given_of_agrees (h : ρ.Agrees σ) (value : Tree) :
    (∀ v, (given w ρ value).whole = some v → (given w σ value).whole = some v) ∧
      ∀ key v, (given w ρ value).member? key = some v → (given w σ value).member? key = some v := by
  have hknown (v : Value) (hv : (value.evaluate w.ctx ρ).single.value = some v) :
      (value.evaluate w.ctx σ).single.value = some v :=
    gives_iff.2 (gives_of_agrees h (gives_iff.1 hv))
  rw [given, given, requiredModule?_congr h]
  split
  · exact ⟨fun _ hv => hv, fun _ _ hv => hv⟩
  · refine ⟨hknown, fun key v hv => ?_⟩
    dsimp only at hv ⊢
    unfold memberOf? at hv
    split at hv
    · rename_i members heq
      rw [hknown _ heq]
      exact hv
    · cases hv

theorem forall₂_confirms_self {entries : List (String × Option Value)} :
    List.Forall₂ Environment.Confirms entries entries :=
  List.forall₂_same.2 fun _ _ => ⟨rfl, fun _ hv => hv⟩

theorem confirms_giveMember {f g : String → Option Value}
    (h : ∀ key v, f key = some v → g key = some v) (t : Tree) :
    List.Forall₂ Environment.Confirms (giveMember f t) (giveMember g t) := by
  unfold giveMember
  split
  · exact .cons ⟨rfl, h _⟩ .nil
  · exact .cons ⟨rfl, h _⟩ .nil
  · exact .cons ⟨rfl, h _⟩ .nil
  · exact forall₂_confirms_self

theorem confirms_give (h : ρ.Agrees σ) (value t : Tree) :
    List.Forall₂ Environment.Confirms ((given w ρ value).give t) ((given w σ value).give t) := by
  obtain ⟨hwhole, hmember⟩ := given_of_agrees (w := w) h value
  unfold Given.give
  split
  · exact .cons ⟨rfl, hwhole⟩ .nil
  · rename_i members
    induction members with
    | nil => exact .nil
    | cons t rest ih =>
      rw [List.flatMap_cons, List.flatMap_cons]
      exact List.rel_append (confirms_giveMember hmember t) ih
  · exact forall₂_confirms_self

theorem effects?_of_agrees (h : ρ.Agrees σ) {t : Tree} {held : List (String × Option Value)}
    (hheld : effects? w σ t = some held) :
    ∃ known, effects? w ρ t = some known ∧ List.Forall₂ Environment.Confirms known held := by
  unfold effects? at hheld ⊢
  split at hheld
  · obtain rfl := Option.some.inj hheld
    exact ⟨_, rfl, forall₂_confirms_self⟩
  · obtain rfl := Option.some.inj hheld
    exact ⟨_, rfl, confirms_give h _ _⟩
  · obtain rfl := Option.some.inj hheld
    exact ⟨_, rfl, .cons ⟨rfl, (given_of_agrees h _).1⟩ .nil⟩
  · obtain rfl := Option.some.inj hheld
    exact ⟨_, rfl, forall₂_confirms_self⟩
  · obtain rfl := Option.some.inj hheld
    exact ⟨_, rfl, forall₂_confirms_self⟩
  · exact ⟨_, hheld, forall₂_confirms_self⟩

theorem effects?_node {kind : Kind} {span : Span} {parts : List Tree}
    {held : List (String × Option Value)} (h : effects? w σ (node kind span parts) = some held) :
    role kind = .writing ∨ (role kind = .value ∨ role kind = .pattern) ∧
      held = unknown (node kind span parts).boundNames := by
  unfold effects? at h
  split at h
  · rename_i heq
    exact .inl ((node.inj heq).1 ▸ rfl)
  · rename_i heq
    exact .inl ((node.inj heq).1 ▸ rfl)
  · rename_i heq
    exact .inl ((node.inj heq).1 ▸ rfl)
  · rename_i heq
    exact .inl ((node.inj heq).1 ▸ rfl)
  · rename_i heq
    exact .inl ((node.inj heq).1 ▸ rfl)
  · split at h
    · rename_i hpattern
      exact .inr ⟨(isPattern_node hpattern).1, (Option.some.inj h).symm⟩
    · cases h

/-! ## Runs -/

/-- A node that takes a value from around it. Its names are unknown before. -/
theorem agrees_received {names : List String} (h : ρ.Agrees σ)
    (hunknown : isUnknown ρ names = true)
    (hstores : Environment.Stores (unknown names) σ σ') : ρ.Agrees σ' := by
  have hchanges := Environment.Changes.stores hstores
  rw [map_fst_unknown] at hchanges
  exact h.of_unknown (.refl _ _) hchanges (isUnknown_iff.1 hunknown)

/-- A node that writes to names, in the walk and in a run. -/
theorem agrees_written {t : Tree} {held : List (String × Option Value)} (ht : Simple t)
    (hforgets : forgets w s t = true) (h : s.env.Agrees σ) (hheld : effects? w σ t = some held)
    (hstores : Environment.Stores held σ σ') : (past w t s).env.Agrees σ' := by
  have hreceived {kind : Kind} {span : Span} {parts : List Tree}
      (hkind : role kind = .value ∨ role kind = .pattern)
      (hquiet : isQuiet (node kind span parts) = true)
      (hforgets : forgets w s (node kind span parts) = true)
      (hheld : effects? w σ (node kind span parts) = some held) :
      (past w (node kind span parts) s).env.Agrees σ' := by
    have hnode : role kind ≠ .block ∧ role kind ≠ .branch ∧ role kind ≠ .writing := by
      obtain hkind | hkind := hkind <;> simp [hkind]
    obtain hwriting | ⟨-, rfl⟩ := effects?_node hheld
    · exact absurd hwriting hnode.2.2
    · rw [env_past_of_isQuiet hquiet]
      exact agrees_received h (forgets_node hnode hforgets).1 hstores
  have hnone {kind : Kind} {span : Span} {parts : List Tree}
      (hkind : role kind = .list ∨ role kind = .block ∨ role kind = .branch ∨ role kind = .loop)
      (hheld : effects? w σ (node kind span parts) = some held) : False := by
    obtain hwriting | ⟨hvalue | hpattern, -⟩ := effects?_node hheld
    · simp [hwriting] at hkind
    · simp [hvalue] at hkind
    · simp [hpattern] at hkind
  cases ht with
  | value ht =>
    obtain ⟨kind, span, parts⟩ := t
    have hkind := ht
    rw [isValue, Bool.and_eq_true, beq_iff_eq] at hkind
    exact hreceived (.inl hkind.1) (isQuiet_of_isValue ht) hforgets hheld
  | pattern ht =>
    obtain ⟨kind, span, parts⟩ := t
    exact hreceived (isPattern_node ht).1 (isQuiet_of_isPattern ht) hforgets hheld
  | declared hpattern =>
    obtain rfl : _ = held := Option.some.inj hheld
    rw [env_past_declared _ hpattern]
    exact agrees_received h hforgets hstores
  | @defined span pattern value hpattern hvalue =>
    obtain rfl : _ = held := Option.some.inj hheld
    rw [env_past_defined span hpattern hvalue]
    exact h.stores (confirms_give h value pattern) hstores
  | @assigned op span target value htarget hvalue =>
    obtain ⟨known, hknown, hconfirms⟩ := effects?_of_agrees h hheld
    rw [env_past_assigned op span htarget hvalue s hknown]
    exact h.stores hconfirms hstores
  | @updated span place name hname =>
    obtain rfl : _ = held := Option.some.inj hheld
    rw [env_past_updated]
    have hsame : List.Forall₂ Environment.Confirms [(name, none)] [(name, none)] :=
      forall₂_confirms_self
    exact h.stores hsame hstores
  | list hkind => exact (hnone (.inl hkind) hheld).elim
  | block => exact (hnone (.inr (.inl rfl)) hheld).elim
  | branch => exact (hnone (.inr (.inr (.inl rfl))) hheld).elim
  | loop hkind => exact (hnone (.inr (.inr (.inr hkind))) hheld).elim

theorem Simple.parts {kind : Kind} {span : Span} {parts : List Tree}
    (h : Simple (node kind span parts))
    (hkind : role kind = .list ∨ role kind = .block ∨ role kind = .loop) :
    ∀ part ∈ parts, Simple part := by
  cases h with
  | value ht =>
    rw [isValue, Bool.and_eq_true, beq_iff_eq] at ht
    simp [ht.1] at hkind
  | pattern ht => obtain hrole | hrole := (isPattern_node ht).1 <;> simp [hrole] at hkind
  | list _ hparts => exact hparts
  | block hparts => exact hparts
  | loop _ hparts => exact hparts
  | declared | defined | assigned | updated | branch => simp [role] at hkind

theorem Simple.branches {span : Span} {test yes : Tree} {no : List Tree}
    (h : Simple (node .if_ span (test :: yes :: no))) :
    Simple test ∧ Simple yes ∧ ∀ part ∈ no, Simple part := by
  cases h with
  | value ht => simp [isValue, role] at ht
  | pattern ht => simp [isPattern] at ht
  | list hkind => cases hkind
  | branch htest hyes hno => exact ⟨htest, hyes, hno⟩
  | loop hkind => cases hkind

theorem agrees_inside (h : ρ.Agrees σ) (span : Span) :
    (inside w span ρ).Agrees (inside w span σ) := by
  rw [inside, inside]
  split
  · exact h.enter _
  · exact h

theorem agrees_outside (h : ρ.Agrees σ) {span : Span} {names names' : List String}
    {ρ' : Environment} (hρ : Environment.Changes names (inside w span ρ) ρ')
    (hσ : Environment.Changes names' (inside w span σ) σ') (hinner : ρ'.Agrees σ') :
    (outside w span ρ').Agrees (outside w span σ') := by
  rw [inside] at hρ hσ
  rw [outside, outside]
  cases hscope : w.scopes.lookup .block span with
  | none => exact hinner
  | some scope =>
    rw [hscope] at hρ hσ
    exact h.leave hρ hσ hinner

theorem past_if (span : Span) (test yes : Tree) (no : List Tree) (s : WalkState) :
    past w (node .if_ span (test :: yes :: no)) s =
      pastAll w no (past w yes (past w test s)) := rfl

/-- What is to be shown of a run: if what the walk knows holds at its start, it
holds at its end. Rounds are looked at together with their loop. -/
def Task.Keeps (w : WalkSetting) (σ σ' : Environment) : Task → Prop
  | one t => ∀ s : WalkState, Simple t → forgets w s t = true → s.env.Agrees σ →
    (past w t s).env.Agrees σ'
  | all ts => ∀ s : WalkState, (∀ t ∈ ts, Simple t) → forgetsIn w s ts = true → s.env.Agrees σ →
    (pastAll w ts s).env.Agrees σ'
  | rounds _ => True

theorem keeps_of_runs {task : Task} (h : Runs w task σ σ') : task.Keeps w σ σ' := by
  induction h with
  | nil => exact fun s _ _ hagrees => hagrees
  | cons _ _ ih ihrest =>
    intro s hsimple hforgets hagrees
    rw [forgetsIn, Bool.and_eq_true] at hforgets
    rw [List.forall_mem_cons] at hsimple
    exact ihrest _ hsimple.2 hforgets.2 (ih s hsimple.1 hforgets.1 hagrees)
  | stop => trivial
  | round => trivial
  | value ht =>
    intro s _ _ hagrees
    rwa [env_past_of_isQuiet (isQuiet_of_isValue ht)]
  | write ht hstores =>
    intro s hsimple hforgets hagrees
    exact agrees_written hsimple hforgets hagrees ht hstores
  | list hkind _ ih =>
    intro s hsimple hforgets hagrees
    rw [past_parts (.inl hkind)]
    exact ih s (hsimple.parts (.inl hkind))
      (forgets_node (by simp [hkind]) hforgets).2.1 hagrees
  | @block span parts σ σ' h ih =>
    intro s hsimple hforgets hagrees
    rw [env_past_block]
    have hparts := hsimple.parts (.inr (.inl rfl))
    exact agrees_outside hagrees (changes_pastAll hparts { s with env := inside w span s.env })
      (changes_of_runs h) (ih _ hparts hforgets (agrees_inside hagrees span))
  | yes _ _ _ ihtest ih =>
    intro s hsimple hforgets hagrees
    obtain ⟨htest, hyes, hno⟩ := hsimple.branches
    obtain ⟨hftest, hfyes, -, -, hunknown⟩ := forgets_branch hforgets
    rw [past_if]
    -- the walk goes on with the other branch, whose names it then does not know
    exact (ih _ hyes hfyes (ihtest s htest hftest hagrees)).of_unknown (changes_pastAll hno _)
      (.refl _ _) (isUnknown_iff.1 hunknown)
  | no _ _ _ ihtest ih =>
    intro s hsimple hforgets hagrees
    obtain ⟨htest, hyes, hno⟩ := hsimple.branches
    obtain ⟨hftest, -, hunknown, hfno, -⟩ := forgets_branch hforgets
    rw [past_if]
    exact ih _ hno hfno ((ihtest s htest hftest hagrees).of_unknown (changes_past hyes _)
      (.refl _ _) (isUnknown_iff.1 hunknown))
  | @loop kind span parts σ σ' σ'' hkind _ hrounds ihhead _ =>
    intro s hsimple hforgets hagrees
    have hparts := hsimple.parts (.inr (.inr hkind))
    obtain ⟨-, hfparts, hstays⟩ := forgets_node (by simp [hkind]) hforgets
    have hhead := ihhead s (fun t ht => hparts t (List.mem_of_mem_take ht))
      (forgetsIn_take hfparts _) hagrees
    have hunknown := isUnknown_of_staysUnknown (hstays hkind)
      (parts.drop (headLength kind parts)).length
    rw [List.take_length] at hunknown
    rw [past_parts (.inr (.inr hkind)), ← List.take_append_drop (headLength kind parts) parts,
      pastAll_append]
    exact hhead.of_unknown (changes_pastAll (fun t ht => hparts t (List.mem_of_mem_drop ht)) _)
      (changes_of_runs hrounds) (isUnknown_iff.1 hunknown)

/-! ## Places -/

theorem arrive_cons {t part : Tree} {i : Nat} (hpart : t.parts[i]? = some part) (place : List Nat)
    (s : WalkState) : arrive w t (i :: place) s =
      arrive w part place (pastAll w (t.parts.take i) { s with env := opened w t s.env }) := by
  obtain ⟨kind, span, parts⟩ := t
  have hpart' : parts[i]? = some part := hpart
  simp only [arrive, hpart', Tree.parts]

theorem isQuiet_parts {t : Tree} (h : isQuiet t = true) : isQuietIn t.parts = true := by
  obtain ⟨kind, span, parts⟩ := t
  rw [isQuiet, Bool.and_eq_true] at h
  exact h.2

theorem env_pastAll_of_isQuiet {ts : List Tree} (h : isQuietIn ts = true) (s : WalkState) :
    (pastAll w ts s).env = s.env := by
  induction ts generalizing s with
  | nil => rfl
  | cons t rest ih =>
    rw [isQuietIn, Bool.and_eq_true] at h
    rw [pastAll_cons, ih h.2, env_past_of_isQuiet h.1]

theorem isQuietIn_take {ts : List Tree} (h : isQuietIn ts = true) (i : Nat) :
    isQuietIn (ts.take i) = true := by
  induction ts generalizing i with
  | nil => rw [List.take_nil]; rfl
  | cons t rest ih =>
    rw [isQuietIn, Bool.and_eq_true] at h
    cases i with
    | zero => rfl
    | succ i =>
      rw [List.take_succ_cons, isQuietIn, h.1, ih h.2]
      rfl

/-- Only blocks and writing nodes change what their parts are visited with. -/
theorem opened_of_role {kind : Kind} (hblock : role kind ≠ .block) (hwriting : role kind ≠ .writing)
    (span : Span) (parts : List Tree) (env : Environment) :
    opened w (node kind span parts) env = env := by
  unfold opened
  split
  · rename_i heq
    exact absurd ((node.inj heq).1 ▸ rfl) hblock
  · rfl
  · rename_i heq
    exact absurd ((node.inj heq).1 ▸ rfl) hwriting
  · rfl
  · rfl
  · rename_i heq
    exact absurd ((node.inj heq).1 ▸ rfl) hwriting
  · rfl

theorem role_of_not_isLoud {kind : Kind} (h : isLoud kind = false) :
    role kind ≠ .block ∧ role kind ≠ .writing := by
  cases kind with
  | block | assign | update | declaration => cases h
  | _ => exact ⟨nofun, nofun⟩

/-- All of an expression is visited with one environment. -/
theorem env_arrive_of_isQuiet {t u : Tree} (h : isQuiet t = true) {place : List Nat}
    (hplace : t.partAt? place = some u) (s : WalkState) : (arrive w t place s).env = s.env := by
  induction place generalizing t s with
  | nil => rw [arrive]
  | cons i place ih =>
    obtain ⟨kind, span, parts⟩ := t
    have hparts := isQuiet_parts h
    rw [isQuiet, Bool.and_eq_true, Bool.not_eq_true'] at h
    rw [partAt?, Option.bind_eq_some_iff] at hplace
    obtain ⟨part, hpart, hplace⟩ := hplace
    rw [arrive_cons hpart, ih (isQuiet_of_mem hparts (List.mem_of_getElem? hpart)) hplace,
      env_pastAll_of_isQuiet (isQuietIn_take hparts i)]
    obtain ⟨hblock, hwriting⟩ := role_of_not_isLoud h.1
    exact opened_of_role hblock hwriting span parts s.env

/-- Before a value is visited that is written to names, these are at most
forgotten. -/
theorem agrees_opened (h : ρ.Agrees σ) {kind : Kind} (hkind : role kind = .writing) (span : Span)
    (target value : Tree) : (opened w (node kind span [target, value]) ρ).Agrees σ := by
  unfold opened
  split
  · rename_i heq
    rw [(node.inj heq).1] at hkind
    cases hkind
  · exact h
  · exact h.forget _
  · exact h
  · exact h
  · exact h.forget _
  · exact h

theorem Simple.target {kind : Kind} {span : Span} {target value : Tree}
    (h : Simple (node kind span [target, value])) (hkind : role kind = .writing) :
    isPattern target = true := by
  cases h with
  | value ht =>
    rw [isValue, Bool.and_eq_true, beq_iff_eq] at ht
    simp [ht.1] at hkind
  | pattern ht => obtain hrole | hrole := (isPattern_node ht).1 <;> simp [hrole] at hkind
  | defined hpattern => exact hpattern
  | assigned htarget => exact (isTarget_cases htarget).1
  | list hlist => simp [hlist] at hkind
  | loop hloop => simp [hloop] at hkind
  | block => cases hkind
  | branch => cases hkind

theorem agrees_comesTo {t : Tree} {place : List Nat} (h : ComesTo w t σ place σ')
    (hsimple : Simple t) (hforgets : forgets w s t = true) (hagrees : s.env.Agrees σ) :
    (arrive w t place s).env.Agrees σ' := by
  induction h generalizing s with
  | here =>
    rw [arrive]
    exact hagrees
  | value ht hplace => rwa [env_arrive_of_isQuiet (isQuiet_of_isValue ht) hplace]
  | @written kind span target value u σ place hkind hvalue hplace =>
    have htarget : isQuietIn [target] = true := by
      rw [isQuietIn, isQuiet_of_isPattern (hsimple.target hkind)]
      rfl
    have hpart : (node kind span [target, value]).parts[1]? = some value := rfl
    rw [arrive_cons hpart, env_arrive_of_isQuiet (isQuiet_of_isValue hvalue) hplace]
    show (pastAll w [target] _).env.Agrees σ
    rw [env_pastAll_of_isQuiet htarget]
    exact agrees_opened hagrees hkind span target value
  | @list kind span parts part i σ σ' σ'' place hkind hpart hbefore h ih =>
    have hparts := hsimple.parts (.inl hkind)
    have hfparts := (forgets_node (by simp [hkind]) hforgets).2.1
    rw [arrive_cons (t := node kind span parts) hpart,
      opened_of_role (by simp [hkind]) (by simp [hkind])]
    exact ih (hparts part (List.mem_of_getElem? hpart)) (forgets_of_getElem? hfparts hpart)
      (keeps_of_runs hbefore s (fun t ht => hparts t (List.mem_of_mem_take ht))
        (forgetsIn_take hfparts i) hagrees)
  | @block span parts part i σ σ' σ'' place hpart hbefore h ih =>
    have hparts := hsimple.parts (.inr (.inl rfl))
    rw [arrive_cons (t := node .block span parts) hpart]
    exact ih (hparts part (List.mem_of_getElem? hpart)) (forgets_of_getElem? hforgets hpart)
      (keeps_of_runs hbefore { s with env := inside w span s.env }
        (fun t ht => hparts t (List.mem_of_mem_take ht)) (forgetsIn_take hforgets i)
        (agrees_inside hagrees span))
  | @test span test yes no σ σ' place h ih =>
    have hpart : (node .if_ span (test :: yes :: no)).parts[0]? = some test := rfl
    rw [arrive_cons hpart]
    exact ih hsimple.branches.1 (forgets_branch hforgets).1 hagrees
  | @yes span test yes no σ σ' σ'' place htest hguard h ih =>
    obtain ⟨hstest, hsyes, -⟩ := hsimple.branches
    obtain ⟨hftest, hfyes, -, -, -⟩ := forgets_branch hforgets
    have hpart : (node .if_ span (test :: yes :: no)).parts[1]? = some yes := rfl
    rw [arrive_cons hpart]
    exact ih hsyes hfyes (keeps_of_runs htest s hstest hftest hagrees)
  | @no span test yes part no i σ σ' σ'' σ₃ place hpart htest hguard hbefore h ih =>
    obtain ⟨hstest, hsyes, hsno⟩ := hsimple.branches
    obtain ⟨hftest, -, hunknown, hfno, -⟩ := forgets_branch hforgets
    have hpart' : (node .if_ span (test :: yes :: no)).parts[i + 2]? = some part := hpart
    rw [arrive_cons hpart']
    have hafter := (keeps_of_runs htest s hstest hftest hagrees).of_unknown (changes_past hsyes _)
      (.refl _ _) (isUnknown_iff.1 hunknown)
    exact ih (hsno part (List.mem_of_getElem? hpart)) (forgets_of_getElem? hfno hpart)
      (keeps_of_runs hbefore _ (fun t ht => hsno t (List.mem_of_mem_take ht))
        (forgetsIn_take hfno i) hafter)
  | @head kind span parts part i σ σ' σ'' place hkind hi hpart hbefore h ih =>
    have hparts := hsimple.parts (.inr (.inr hkind))
    have hfparts := (forgets_node (by simp [hkind]) hforgets).2.1
    rw [arrive_cons (t := node kind span parts) hpart,
      opened_of_role (by simp [hkind]) (by simp [hkind])]
    exact ih (hparts part (List.mem_of_getElem? hpart)) (forgets_of_getElem? hfparts hpart)
      (keeps_of_runs hbefore s (fun t ht => hparts t (List.mem_of_mem_take ht))
        (forgetsIn_take hfparts i) hagrees)
  | @round kind span parts part i σ σ' σ'' σ₃ place hkind hi hpart hhead hrounds h ih =>
    have hparts := hsimple.parts (.inr (.inr hkind))
    obtain ⟨-, hfparts, hstays⟩ := forgets_node (by simp [hkind]) hforgets
    rw [arrive_cons (t := node kind span parts) hpart,
      opened_of_role (by simp [hkind]) (by simp [hkind])]
    refine ih (hparts part (List.mem_of_getElem? hpart)) (forgets_of_getElem? hfparts hpart) ?_
    -- up to the part the walk has gone through the head, and then through a part of the rest
    have hafter := keeps_of_runs hhead s (fun t ht => hparts t (List.mem_of_mem_take ht))
      (forgetsIn_take hfparts _) hagrees
    have hunknown := isUnknown_of_staysUnknown (hstays hkind) (i - headLength kind parts)
    have hchanges : Environment.Changes (writesIn w (parts.drop (headLength kind parts)))
        (pastAll w (parts.take (headLength kind parts)) s).env
        (pastAll w ((parts.drop (headLength kind parts)).take (i - headLength kind parts))
          (pastAll w (parts.take (headLength kind parts)) s)).env :=
      (changes_pastAll (fun t ht => hparts t (List.mem_of_mem_drop (List.mem_of_mem_take ht)))
        _).mono (writesIn_subset (List.take_subset _ _))
    have htake : parts.take i = parts.take (headLength kind parts) ++
        (parts.drop (headLength kind parts)).take (i - headLength kind parts) := by
      rw [← List.take_add, Nat.add_sub_cancel' hi]
    show (pastAll w (parts.take i) s).env.Agrees σ''
    rw [htake, pastAll_append]
    exact hafter.of_unknown hchanges (changes_of_runs hrounds) (isUnknown_iff.1 hunknown)

/-! ## Main statement -/

/-- The state with which the walk through a module begins. -/
def start (w : WalkSetting) (program : Tree) (draft : Draft) : WalkState :=
  let root := (w.scopes.get? ScopeTree.root).getD default
  let env :=
    Environment.ofModule w.ctx.id w.ctx.directory w.ctx.options.nodeEnv (w.grammar == .script)
  ⟨Build.defineImports program (env.enter root), draft, false⟩

theorem walkProgram_eq (w : WalkSetting) (program : Tree) (draft : Draft) :
    Build.walkProgram w program draft = (pastAll w program.parts (start w program draft)).draft :=
  rfl

/-- A name that is read makes a candidate of nothing but what it is known to
hold. -/
theorem lookup?_of_candidate {site : Site} {name : String} {span : Span} {parts : List Tree}
    {c : Candidate}
    (h : ((walk w site (node (.identifier name) span parts)).run s).1 = some c) :
    ∃ v, c.outcome = .single v ∧ s.env.lookup? name = some v := by
  have hrun (next : Environment → Walk (Option Candidate)) :
      ((env >>= next).run s).1 = ((next s.env).run s).1 := rfl
  rw [walk, identifier, hrun] at h
  split at h
  · rename_i c' hname
    obtain rfl : c' = c := Option.some.inj h
    unfold Candidate.ofName? at hname
    split at hname
    · rename_i path hpath
      split at hname
      · obtain rfl := Option.some.inj hname
        exact ⟨_, rfl, hpath⟩
      · cases hname
    · rename_i b hb
      split at hname
      · obtain rfl := Option.some.inj hname
        exact ⟨_, rfl, hb⟩
      · cases hname
    · cases hname
  · rw [hrun] at h
    split at h
    · cases h
    · cases h

/-- **What is known holds.** For a module of declarations, assignments, branches,
loops and expressions, walked from a state with which the store of a run agrees:
if the names that branches and loops write are forgotten, then wherever the run
comes to, each name that the walk knows there holds the known value, each
expression that the walk evaluates there has the value it is known to have, and
a name that is read there becomes a candidate of the value it holds. -/
theorem holds_of_known {t : Tree} {place : List Nat} (hmodule : Simple t)
    (hforgets : forgets w s t = true) (hstart : s.env.Agrees σ) (hrun : ComesTo w t σ place σ') :
    (∀ name v, (arrive w t place s).env.lookup? name = some v → σ'.lookup? name = some v) ∧
      (∀ e v, Gives w.ctx (arrive w t place s).env e (.single v) →
        Gives w.ctx σ' e (.single v)) ∧
      ∀ site name span parts c,
        ((walk w site (node (.identifier name) span parts)).run (arrive w t place s)).1 = some c →
          ∃ v, c.outcome = .single v ∧ σ'.lookup? name = some v := by
  have hagrees := agrees_comesTo hrun hmodule hforgets hstart
  refine ⟨fun name v hv => hagrees.value hv, fun e v hv => gives_of_agrees hagrees hv, ?_⟩
  intro site name span parts c hc
  obtain ⟨v, hv, hknown⟩ := lookup?_of_candidate hc
  exact ⟨v, hv, hagrees.value hknown⟩

/-! ## Two loops -/

/-- The module `let p = '/pkg/a.txt'; for (target of xs) body`. -/
def loopModule (target : String) (stop : Nat) (body : Tree) : Tree :=
  let path := node .declaration ⟨4, 20⟩
    [node (.binding "p") ⟨4, 5⟩ [], node (.text (some "/pkg/a.txt")) ⟨8, 20⟩ []]
  node (.program .script) ⟨0, stop⟩
    [node (.declarations .let_) ⟨0, 21⟩ [path],
      node (.forEach true) ⟨22, stop⟩
        [node (.binding target) ⟨27, 28⟩ [], node (.identifier "xs") ⟨32, 34⟩ [], body]]

/-- The body `q = p;`, in which `p` is read at the place `[0, 1]`. -/
def assignBody : Tree :=
  node .expressionStatement ⟨36, 42⟩
    [node (.assign none) ⟨36, 41⟩
      [node (.binding "q") ⟨36, 37⟩ [], node (.identifier "p") ⟨40, 41⟩ []]]

/-- The body `q(p);`, the same place. -/
def callBody : Tree :=
  node .expressionStatement ⟨36, 41⟩
    [node .call ⟨36, 40⟩ [node (.identifier "q") ⟨36, 37⟩ [], node (.identifier "p") ⟨38, 39⟩ []]]

/-- A package with one file. -/
def onePackage : FileTree :=
  ⟨.directory [("pkg", .directory [("a.txt", .file ByteArray.empty 0o644)])]⟩

/-- The setting of a module in the package. -/
def loopSetting (program : Tree) (source : String) : WalkSetting :=
  ⟨(Build.ofOptions default).context onePackage "/pkg/m.js", source, .script,
    ScopeTree.ofTree program, false⟩

/-- The state with which its walk begins. -/
def loopStart (program : Tree) (source : String) : WalkState :=
  start (loopSetting program source) program
    (Draft.start source (.ofExisting []))

theorem simple_loopModule {target : String} (htarget : target ≠ Environment.loaderName)
    (stop : Nat) {body : Tree} (hbody : Simple body) : Simple (loopModule target stop body) := by
  refine .list rfl (List.forall_mem_cons.2 ⟨?_, List.forall_mem_singleton.2 ?_⟩)
  · exact .list rfl (List.forall_mem_singleton.2 (.defined rfl rfl))
  · refine .loop rfl (List.forall_mem_cons.2 ⟨.pattern ?_, List.forall_mem_cons.2
      ⟨.value rfl, List.forall_mem_singleton.2 hbody⟩⟩)
    simpa [isPattern] using htarget

/-- A run of the loop comes to the read of `p` after one item. -/
theorem comesTo_loopModule {w : WalkSetting} {target : String}
    (htarget : target ≠ Environment.loaderName) (stop : Nat) {body : Tree}
    (hbody : ∀ σ, ComesTo w body σ [0, 1] σ) (σ : Environment) (item : Value) :
    ComesTo w (loopModule target stop body) σ [1, 2, 0, 1]
      ((σ.write "p" (some (.text "/pkg/a.txt"))).write target (some item)) := by
  have hitem : effects? w (σ.write "p" (some (.text "/pkg/a.txt")))
      (node (.binding target) ⟨27, 28⟩ []) = some [(target, none)] := by
    simp [effects?, isPattern, htarget, unknown, boundNames]
  have hdeclared : Runs w (.all [node (.declarations .let_) ⟨0, 21⟩ [node .declaration ⟨4, 20⟩
      [node (.binding "p") ⟨4, 5⟩ [], node (.text (some "/pkg/a.txt")) ⟨8, 20⟩ []]]]) σ
      (σ.write "p" (some (.text "/pkg/a.txt"))) :=
    .cons (.list rfl (.cons (.write rfl (.cons (fun v hv => hv) .nil)) .nil)) .nil
  have hround : Runs w (.one (node (.binding target) ⟨27, 28⟩ []))
      (σ.write "p" (some (.text "/pkg/a.txt")))
      ((σ.write "p" (some (.text "/pkg/a.txt"))).write target (some item)) :=
    .write hitem (.cons (fun v hv => (Option.some_ne_none v hv.symm).elim) .nil)
  exact .list rfl rfl hdeclared (.round rfl (Nat.zero_le 2) rfl .nil
    (.round List.mem_cons_self hround .stop) (hbody _))

/-- The loop writes `r`, and what is known of `p` holds in all rounds. -/
theorem holds_of_known_call :
    let source := "let p = '/pkg/a.txt'; for (r of xs) q(p);"
    let program := loopModule "r" 41 callBody
    let w := loopSetting program source
    let s := loopStart program source
    let σ := (s.env.write "p" (some (.text "/pkg/a.txt"))).write "r" (some .null)
    Simple program ∧ forgets w s program = true ∧ s.env.Agrees s.env ∧
      ComesTo w program s.env [1, 2, 0, 1] σ ∧
      ((arrive w program [1, 2, 0, 1] s).env.lookup? "p").bind Value.text? = some "/pkg/a.txt" ∧
      ∀ name v, (arrive w program [1, 2, 0, 1] s).env.lookup? name = some v →
        σ.lookup? name = some v := by
  intro source program w s σ
  have hmodule : Simple program :=
    simple_loopModule (by decide) 41 (.list rfl (List.forall_mem_singleton.2 (.value rfl)))
  have hforgets : forgets w s program = true := by decide +kernel
  have hrun : ComesTo w program s.env [1, 2, 0, 1] σ :=
    comesTo_loopModule (by decide) 41 (fun _ => .list rfl rfl .nil (.value rfl rfl)) s.env .null
  have hknown : ((arrive w program [1, 2, 0, 1] s).env.lookup? "p").bind Value.text? =
      some "/pkg/a.txt" := by
    decide +kernel
  exact ⟨hmodule, hforgets, .refl _, hrun, hknown,
    (holds_of_known hmodule hforgets (.refl _) hrun).1⟩

/-- The loop writes `p` itself, but where its body reads `p` the value from
before the loop is known and put in the place of the read. -/
theorem known_of_written :
    let source := "let p = '/pkg/a.txt'; for (p of xs) q = p;"
    let program := loopModule "p" 42 assignBody
    let w := loopSetting program source
    let s := loopStart program source
    let σ := (s.env.write "p" (some (.text "/pkg/a.txt"))).write "p" (some .null)
    Simple program ∧ s.env.Agrees s.env ∧ ComesTo w program s.env [1, 2, 0, 1] σ ∧
      ((arrive w program [1, 2, 0, 1] s).env.lookup? "p").bind Value.text? = some "/pkg/a.txt" ∧
      (σ.lookup? "p").bind Value.text? = none ∧
      ((Build.ofOptions default).analyze onePackage (.ofExisting []) "/pkg/m.js"
        source).toOption.map (fun a => a.2.relocated.code) =
          some "let p = '/pkg/a.txt'; for (p of xs) q = __dirname + '/a.txt';" := by
  intro source program w s σ
  have hmodule : Simple program :=
    simple_loopModule (by decide) 42 (.list rfl (List.forall_mem_singleton.2 (.assigned rfl rfl)))
  have hrun : ComesTo w program s.env [1, 2, 0, 1] σ :=
    comesTo_loopModule (by decide) 42 (fun _ => .list rfl rfl .nil (.written rfl rfl rfl)) s.env
      .null
  refine ⟨hmodule, .refl _, hrun, ?_, ?_, ?_⟩
  · decide +kernel
  · decide +kernel
  · decide +kernel

end ModuleAssets.Flow
