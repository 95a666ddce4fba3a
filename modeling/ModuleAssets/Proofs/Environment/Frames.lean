import ModuleAssets.Proofs.Environment.Layers
import Mathlib.Logic.Function.Basic
/-!
# Environments — a stack of lexical frames

The textbook picture of what names hold is a stack of frames, one for each
scope that has been entered, above a base that takes every name. An
`Environment` keeps no frames but for each name some layers with counters.
`Represents` relates the layers of one name to what the frames hold of it,
and every operation keeps the two related. A session runs both side by side.
-/

namespace ModuleAssets

/-- A stack of frames, the innermost first. -/
inductive Frames where
  /-- What holds outside of all scopes, of any name. -/
  | base (held : String → Option Value)
  /-- The frame of a scope, which takes the names that the scope declares. -/
  | inner (scope : Syntax.Scope) (held : String → Option Value) (below : Frames)

namespace Frames

/-- What the innermost frame that takes the name holds. -/
def read : Frames → String → Option Value
  | base held, name => held name
  | inner scope held below, name => if scope.declares name then held name else below.read name

/-- Changes what the innermost frame that takes the name holds. -/
def write (name : String) (value : Option Value) : Frames → Frames
  | base held => base (Function.update held name value)
  | inner scope held below =>
    if scope.declares name then inner scope (Function.update held name value) below
    else inner scope held (below.write name value)

/-- A new frame, in which nothing is known. -/
def enter (scope : Syntax.Scope) (frames : Frames) : Frames :=
  inner scope (fun _ => none) frames

/-- Without the innermost frame. -/
def leave : Frames → Frames
  | base held => base held
  | inner _ _ below => below

/-- What is held of a name, from the innermost frame that takes it to the
base. A scope that lists a name more than once counts as so many frames, of
which the innermost is written to. -/
def column (name : String) : Frames → List (Option Value)
  | base held => [held name]
  | inner scope held below =>
    if scope.declares name then
      held name :: (List.replicate (scope.names.count name - 1) none ++ below.column name)
    else below.column name

theorem exists_column_eq_cons (frames : Frames) (name : String) :
    ∃ rest, frames.column name = frames.read name :: rest := by
  induction frames with
  | base held => exact ⟨[], rfl⟩
  | inner scope held below ih =>
    by_cases h : scope.declares name = true
    · exact ⟨_, by rw [column, read, if_pos h, if_pos h]⟩
    · rw [column, read, if_neg h, if_neg h]
      exact ih

theorem column_write_self {frames : Frames} {name : String} {old : Option Value}
    {rest : List (Option Value)} (h : frames.column name = old :: rest) (value : Option Value) :
    (frames.write name value).column name = value :: rest := by
  induction frames with
  | base held =>
    rw [column, List.cons.injEq] at h
    rw [write, column, Function.update_self, h.2]
  | inner scope held below ih =>
    by_cases hdecl : scope.declares name = true
    · rw [column, if_pos hdecl, List.cons.injEq] at h
      rw [write, if_pos hdecl, column, if_pos hdecl, Function.update_self, h.2]
    · rw [column, if_neg hdecl] at h
      rw [write, if_neg hdecl, column, if_neg hdecl]
      exact ih h

theorem column_write_of_ne {name other : String} (h : other ≠ name) (value : Option Value)
    (frames : Frames) : (frames.write name value).column other = frames.column other := by
  induction frames with
  | base held => rw [write, column, column, Function.update_of_ne h]
  | inner scope held below ih =>
    by_cases hdecl : scope.declares name = true
    · rw [write, if_pos hdecl, column, column, Function.update_of_ne h]
    · rw [write, if_neg hdecl, column, column, ih]

/-- A new frame is as many unknown values as the scope lists the name. -/
theorem column_enter (scope : Syntax.Scope) (frames : Frames) (name : String) :
    (frames.enter scope).column name =
      List.replicate (scope.names.count name) none ++ frames.column name := by
  rw [enter, column]
  by_cases h : scope.declares name = true
  · obtain ⟨k, hk⟩ : ∃ k, scope.names.count name = k + 1 :=
      Nat.exists_eq_add_one.2 (List.count_pos_iff.2 (List.contains_iff_mem.1 h))
    rw [if_pos h, hk, Nat.add_sub_cancel, List.replicate_succ, List.cons_append]
  · have hnot : name ∉ scope.names := fun hmem => h (List.contains_iff_mem.2 hmem)
    rw [if_neg h, List.count_eq_zero.2 hnot, List.replicate_zero, List.nil_append]

/-- The scopes of the frames. -/
def scopes : Frames → List Syntax.Scope
  | base _ => []
  | inner scope _ below => scope :: below.scopes

theorem scopes_write (name : String) (value : Option Value) (frames : Frames) :
    (frames.write name value).scopes = frames.scopes := by
  induction frames with
  | base held => rfl
  | inner scope held below ih =>
    rw [write]
    split
    · rfl
    · rw [scopes, scopes, ih]

theorem column_inner (scope : Syntax.Scope) (held : String → Option Value) (below : Frames)
    (name : String) : ∃ front, front.length = scope.names.count name ∧
      (inner scope held below).column name = front ++ below.column name := by
  by_cases h : scope.declares name = true
  · have hpos : 0 < scope.names.count name := List.count_pos_iff.2 (List.contains_iff_mem.1 h)
    refine ⟨held name :: List.replicate (scope.names.count name - 1) none, ?_, ?_⟩
    · simp; omega
    · rw [column, if_pos h, List.cons_append]
  · have hnot : name ∉ scope.names := fun hmem => h (List.contains_iff_mem.2 hmem)
    exact ⟨[], (List.count_eq_zero.2 hnot).symm, by rw [column, if_neg h, List.nil_append]⟩

end Frames

/-! ## Layers that represent a column -/

/-- Some layers stand for what frames hold of their name. Without layers
nothing is known. A layer of depth zero stands for the innermost frame, and
what it covers, less one frame, for the rest; each unit of depth stands for
one more frame, in which nothing is known. -/
inductive Represents : List Layer → List (Option Value) → Prop
  | unknown (k : Nat) : Represents [] (List.replicate k none)
  | held {value : Option Value} {below : List Layer} {rest : List (Option Value)}
      (hcovered : ∀ layer ∈ below.head?, 0 < layer.depth) (h : Represents below (none :: rest)) :
      Represents (⟨0, value⟩ :: below) (value :: rest)
  | covered {depth : Nat} {value : Option Value} {below : List Layer}
      {column : List (Option Value)} (h : Represents (⟨depth, value⟩ :: below) column) :
      Represents (⟨depth + 1, value⟩ :: below) (none :: column)

namespace Represents

variable {layers : List Layer} {column : List (Option Value)} {old value : Option Value}

/-- Without layers the column holds nothing. -/
theorem nil_iff : Represents [] column ↔ ∃ k, column = List.replicate k none := by
  constructor
  · rintro ⟨k⟩
    exact ⟨k, rfl⟩
  · rintro ⟨k, rfl⟩
    exact .unknown k

theorem nil_of_cons (h : Represents [] (old :: column)) : old = none ∧ Represents [] column := by
  obtain ⟨k, hk⟩ := nil_iff.1 h
  cases k with
  | zero => cases hk
  | succ k =>
    rw [List.replicate_succ, List.cons.injEq] at hk
    exact ⟨hk.1, nil_iff.2 ⟨k, hk.2⟩⟩

theorem nil_cons_none (h : Represents [] column) : Represents [] (none :: column) := by
  obtain ⟨k, rfl⟩ := nil_iff.1 h
  exact .unknown (k + 1)

/-- A covered name is unknown in one more frame. -/
theorem cover (h : Represents layers column) : Represents (Layer.cover layers) (none :: column) := by
  cases layers with
  | nil => exact h.nil_cons_none
  | cons top below => exact .covered h

theorem iterate_cover (h : Represents layers column) (k : Nat) :
    Represents (Layer.cover^[k] layers) (List.replicate k none ++ column) := by
  induction k with
  | zero => exact h
  | succ k ih =>
    rw [Function.iterate_succ_apply', List.replicate_succ, List.cons_append]
    exact ih.cover

/-- Writing changes what the innermost frame holds. -/
theorem write (h : Represents layers (old :: column)) (value : Option Value) :
    Represents (Layer.write value layers) (value :: column) := by
  cases layers with
  | nil => exact .held (by simp) (nil_of_cons h).2.nil_cons_none
  | cons top below =>
    cases h with
    | held hcovered hbelow => exact .held hcovered hbelow
    | covered h => exact .held (by simp) (.covered h)

/-- Uncovering takes the innermost frame away. -/
theorem uncover (h : Represents layers (old :: column)) :
    Represents (Layer.uncover layers) column := by
  cases layers with
  | nil => exact (nil_of_cons h).2
  | cons top below =>
    cases h with
    | covered h => exact h
    | held hcovered hbelow =>
      cases below with
      | nil => exact (nil_of_cons hbelow).2
      | cons next rest =>
        cases hbelow with
        -- a layer that was written over has a depth, so it cannot be on top
        | held hcovered' _ => exact absurd (hcovered _ rfl) (Nat.lt_irrefl 0)
        | covered h => exact h

theorem iterate_uncover {front : List (Option Value)} (h : Represents layers (front ++ column)) :
    Represents (Layer.uncover^[front.length] layers) column := by
  induction front generalizing layers with
  | nil => exact h
  | cons value front ih =>
    rw [List.length_cons, Function.iterate_succ_apply]
    exact ih h.uncover

/-- The value that is seen is that of the innermost frame. -/
theorem lookup?_eq {env : Environment} {name : String}
    (h : Represents (env.layers name) (old :: column)) : env.lookup? name = old := by
  rw [Environment.lookup?]
  cases hlayers : env.layers name with
  | nil =>
    rw [hlayers] at h
    exact (nil_of_cons h).1.symm
  | cons top below =>
    rw [hlayers] at h
    cases h with
    | held hcovered hbelow => rfl
    | covered h => rfl

end Represents

/-! ## Sessions -/

/-- A call on an environment. -/
inductive Action where
  | define (name : String) (value : Value)
  | invalidate (name : String)
  | enter (scope : Syntax.Scope)
  | leave (scope : Syntax.Scope)

/-- What an environment is made from. -/
inductive Start where
  | empty
  | module (id directory : String) (nodeEnv : Option String) (hasLoader : Bool)

namespace Start

/-- The environment at the start. -/
def environment : Start → Environment
  | empty => .empty
  | module id directory nodeEnv hasLoader => .ofModule id directory nodeEnv hasLoader

/-- What is known outside of all scopes at the start. -/
def known : Start → String → Option Value
  | empty => fun _ => none
  | module id directory nodeEnv _ =>
    let settings : List (String × Value) :=
      match nodeEnv with
      | some kind => [("NODE_ENV", .text kind)]
      | none => []
    let nothing : String → Option Value := fun _ => none
    let place := Function.update (Function.update nothing "__dirname" (some (.text directory)))
      "__filename" (some (.text id))
    Function.update (Function.update place "undefined" (some .undefined))
      "process" (some (.object [("env", .object settings)]))

/-- The loader is installed. -/
def hasLoader : Start → Bool
  | empty => false
  | module _ _ _ hasLoader => hasLoader

end Start

/-- An environment and a stack of frames that are used side by side. -/
structure Session where
  env : Environment
  frames : Frames
  /-- The scopes that have been entered and not left, the innermost first, each
  with the environment before it was entered. -/
  opened : List (Syntax.Scope × Environment)

namespace Session

/-- Nothing has been called yet. -/
def start (s : Start) : Session :=
  ⟨s.environment, .base s.known, []⟩

/-- One call. Only the innermost scope can be left. -/
def step? (σ : Session) : Action → Option Session
  | .define name value =>
    some { σ with env := σ.env.define name value, frames := σ.frames.write name (some value) }
  | .invalidate name =>
    some { σ with env := σ.env.invalidate name, frames := σ.frames.write name none }
  | .enter scope =>
    some ⟨σ.env.enter scope, σ.frames.enter scope, (scope, σ.env) :: σ.opened⟩
  | .leave scope =>
    match σ.opened with
    | (entered, _) :: rest =>
      if entered = scope then some ⟨σ.env.leave scope, σ.frames.leave, rest⟩ else none
    | [] => none

/-- Some calls, if scopes are entered and left in a nested way. -/
def run? (σ : Session) : List Action → Option Session
  | [] => some σ
  | action :: rest => (σ.step? action).bind (·.run? rest)

end Session

namespace Session

open Environment (loaderName)

/-- Since each open scope was entered, the layers it covered have at most been
written to. -/
def Nested : List (Syntax.Scope × Environment) → Environment → Prop
  | [], _ => True
  | (scope, before) :: rest, env =>
    (∀ n, Layer.Touched ((before.enter scope).layers n) (env.layers n)) ∧ Nested rest before

theorem Nested.of_touched {opened : List (Syntax.Scope × Environment)} {env env' : Environment}
    (h : Nested opened env) (hwritten : ∀ n, Layer.Touched (env.layers n) (env'.layers n)) :
    Nested opened env' := by
  cases opened with
  | nil => trivial
  | cons entry rest => exact ⟨fun n => (h.1 n).trans (hwritten n), h.2⟩

/-- **Leaving a scope gives its names the layers back that they had before.** -/
theorem Nested.restored {scope : Syntax.Scope} {before env : Environment}
    {rest : List (Syntax.Scope × Environment)} (h : Nested ((scope, before) :: rest) env)
    {n : String} (hn : n ∈ scope.names) : (env.leave scope).layers n = before.layers n := by
  obtain ⟨k, hk⟩ : ∃ k, scope.names.count n = k + 1 :=
    Nat.exists_eq_add_one.2 (List.count_pos_iff.2 hn)
  have htouched := h.1 n
  rw [Environment.layers_enter, hk] at htouched
  rw [Environment.layers_leave, hk]
  exact htouched.uncover

/-- And other names have at most been written to. -/
theorem Nested.left {scope : Syntax.Scope} {before env : Environment}
    {rest : List (Syntax.Scope × Environment)} (h : Nested ((scope, before) :: rest) env) :
    Nested rest (env.leave scope) := by
  refine h.2.of_touched fun n => ?_
  by_cases hn : n ∈ scope.names
  · rw [h.restored hn]
    exact Layer.Touched.refl _
  · -- entering and leaving the scope did not change the layers of this name
    have htouched := h.1 n
    have hcount := List.count_eq_zero.2 hn
    rw [Environment.layers_enter, hcount] at htouched
    rw [Environment.layers_leave, hcount]
    exact htouched

/-- How often the open scopes declare the loader. -/
def shadows : List (Syntax.Scope × Environment) → Nat
  | [] => 0
  | entry :: opened => entry.1.names.count loaderName + shadows opened

theorem shadows_eq_zero {opened : List (Syntax.Scope × Environment)} :
    shadows opened = 0 ↔ ∀ entry ∈ opened, entry.1.declares loaderName = false := by
  induction opened with
  | nil => simp [shadows]
  | cons entry opened ih =>
    rw [shadows, Nat.add_eq_zero_iff, ih, List.forall_mem_cons, List.count_eq_zero,
      Syntax.Scope.declares, ← Bool.not_eq_true, List.contains_iff_mem]

/-- The layers of the loader, which nothing is ever written over. -/
def loaderLayers (installed : Bool) (depth : Nat) : List Layer :=
  if installed then [⟨depth, some (.builtin .require)⟩] else []

theorem iterate_cover_loaderLayers (installed : Bool) (depth k : Nat) :
    Layer.cover^[k] (loaderLayers installed depth) = loaderLayers installed (k + depth) := by
  induction k with
  | zero => rw [Nat.zero_add]; rfl
  | succ k ih =>
    rw [Function.iterate_succ_apply', ih]
    cases installed with
    | false => rfl
    | true => simp [loaderLayers, Layer.cover]; omega

/-- What relates an environment to the frames beside it. -/
structure Related (installed : Bool) (σ : Session) : Prop where
  represents : ∀ n, n ≠ loaderName → Represents (σ.env.layers n) (σ.frames.column n)
  loader : σ.env.layers loaderName = loaderLayers installed (shadows σ.opened)
  scopes : σ.frames.scopes = σ.opened.map Prod.fst
  nested : Nested σ.opened σ.env

namespace Related

variable {installed : Bool} {σ : Session}

/-- Writing a known or an unknown value. -/
theorem write (h : Related installed σ) (name : String) (value : Option Value) :
    Related installed
      { σ with env := σ.env.write name value, frames := σ.frames.write name value } := by
  by_cases hname : name = loaderName
  · subst hname
    refine ⟨fun n hn => ?_, ?_, ?_, ?_⟩
    · rw [Environment.write_loaderName, Frames.column_write_of_ne hn]
      exact h.represents n hn
    · rw [Environment.write_loaderName]
      exact h.loader
    · rw [Frames.scopes_write]
      exact h.scopes
    · rw [Environment.write_loaderName]
      exact h.nested
  · refine ⟨fun n hn => ?_, ?_, ?_, ?_⟩
    · rw [Environment.layers_write hname]
      split
      · rename_i heq
        subst heq
        obtain ⟨rest, hcolumn⟩ := σ.frames.exists_column_eq_cons n
        have hbefore := h.represents n hn
        rw [hcolumn] at hbefore
        rw [Frames.column_write_self hcolumn]
        exact hbefore.write value
      · rename_i hne
        rw [Frames.column_write_of_ne hne]
        exact h.represents n hn
    · rw [Environment.layers_write hname, if_neg (Ne.symm hname)]
      exact h.loader
    · rw [Frames.scopes_write]
      exact h.scopes
    · refine h.nested.of_touched fun n => ?_
      rw [Environment.layers_write hname]
      split
      · exact (Layer.Touched.refl _).write value
      · exact Layer.Touched.refl _

/-- Without layers nothing has to be written to become unknown. -/
theorem invalidate (h : Related installed σ) (name : String) :
    Related installed
      { σ with env := σ.env.invalidate name, frames := σ.frames.write name none } := by
  rw [Environment.invalidate]
  split
  · rename_i hempty
    rw [List.isEmpty_iff] at hempty
    have hwritten := h.write name none
    -- the layers stay as they are; only the frames beside them are written to
    refine ⟨fun n hn => ?_, h.loader, hwritten.scopes, h.nested⟩
    by_cases heq : n = name
    · subst heq
      obtain ⟨rest, hcolumn⟩ := σ.frames.exists_column_eq_cons n
      have hbefore := h.represents n hn
      rw [hcolumn, hempty] at hbefore
      rw [Frames.column_write_self hcolumn, hempty]
      exact (Represents.nil_of_cons hbefore).2.nil_cons_none
    · rw [Frames.column_write_of_ne heq]
      exact h.represents n hn
  · exact h.write name none

/-- Entering a scope. -/
theorem enter (h : Related installed σ) (scope : Syntax.Scope) :
    Related installed
      ⟨σ.env.enter scope, σ.frames.enter scope, (scope, σ.env) :: σ.opened⟩ := by
  refine ⟨fun n hn => ?_, ?_, ?_, ?_, h.nested⟩
  · rw [Environment.layers_enter, Frames.column_enter]
    exact (h.represents n hn).iterate_cover _
  · rw [Environment.layers_enter, h.loader]
    exact iterate_cover_loaderLayers installed _ _
  · rw [Frames.enter, Frames.scopes, h.scopes, List.map_cons]
  · exact fun n => Layer.Touched.refl _

/-- Leaving the innermost scope. -/
theorem leave {scope : Syntax.Scope} {before : Environment}
    {rest : List (Syntax.Scope × Environment)} (h : Related installed σ)
    (hopened : σ.opened = (scope, before) :: rest) :
    Related installed ⟨σ.env.leave scope, σ.frames.leave, rest⟩ := by
  have hscopes := h.scopes
  have hnested := h.nested
  rw [hopened] at hscopes hnested
  cases hframes : σ.frames with
  | base held => rw [hframes] at hscopes; cases hscopes
  | inner entered held below =>
    rw [hframes, Frames.scopes, List.map_cons, List.cons.injEq] at hscopes
    obtain ⟨rfl, hbelow⟩ := hscopes
    refine ⟨fun n hn => ?_, ?_, hbelow, hnested.left⟩
    · obtain ⟨front, hfront, hcolumn⟩ := Frames.column_inner entered held below n
      have hbefore := h.represents n hn
      rw [hframes, hcolumn] at hbefore
      rw [Environment.layers_leave, ← hfront]
      exact hbefore.iterate_uncover
    · -- the loader's layers were covered when the scope was entered
      have hloader := h.loader
      rw [hopened] at hloader
      rw [Environment.layers_leave, hloader, shadows, ← iterate_cover_loaderLayers]
      exact Layer.uncover_cover.iterate _ _

/-- Every call keeps the two related. -/
theorem step {action : Action} {σ' : Session} (h : Related installed σ)
    (hstep : σ.step? action = some σ') : Related installed σ' := by
  cases action with
  | define name value =>
    obtain rfl := Option.some.inj hstep
    exact h.write name (some value)
  | invalidate name =>
    obtain rfl := Option.some.inj hstep
    exact h.invalidate name
  | enter scope =>
    obtain rfl := Option.some.inj hstep
    exact h.enter scope
  | leave scope =>
    rw [step?] at hstep
    split at hstep
    · rename_i entered before rest hopened
      split at hstep
      · rename_i heq
        subst heq
        obtain rfl := Option.some.inj hstep
        exact h.leave hopened
      · cases hstep
    · cases hstep

/-- So the two stay related along a run. -/
theorem run {actions : List Action} {σ' : Session} (h : Related installed σ)
    (hrun : σ.run? actions = some σ') : Related installed σ' := by
  induction actions generalizing σ with
  | nil =>
    obtain rfl := Option.some.inj hrun
    exact h
  | cons action rest ih =>
    rw [run?, Option.bind_eq_some_iff] at hrun
    obtain ⟨next, hstep, hrest⟩ := hrun
    exact ih (h.step hstep) hrest

/-- Nothing is known of any name. -/
theorem nothing : Related false ⟨.empty, .base fun _ => none, []⟩ where
  represents := fun _ _ => .unknown 1
  loader := rfl
  scopes := rfl
  nested := trivial

/-- The loader may be installed in the beginning. -/
theorem install (h : Related false σ) (hopened : σ.opened = []) :
    Related true { σ with env := σ.env.installLoader } where
  represents n hn := by
    rw [Environment.layers_installLoader, if_neg hn]
    exact h.represents n hn
  loader := by
    rw [Environment.layers_installLoader, if_pos rfl, hopened]
    rfl
  scopes := h.scopes
  nested := by
    rw [hopened]
    trivial

/-- **Environments start out related.** A module's is made by definitions. -/
theorem start (s : Start) : Related s.hasLoader (Session.start s) := by
  cases s with
  | empty => exact nothing
  | module id directory nodeEnv hasLoader =>
    have hplace := (nothing.write "__dirname" (some (.text directory))).write "__filename"
      (some (.text id))
    have hknown := (hplace.write "undefined" (some .undefined)).write "process"
      (some (.object [("env", .object
        (match nodeEnv with
        | some kind => [("NODE_ENV", .text kind)]
        | none => []))]))
    cases hasLoader with
    | false => exact hknown
    | true => exact hknown.install rfl

end Related

/-! ## Main statement -/

/-- The loader is visible unless a scope covers it. -/
theorem Related.loaderVisible_iff {installed : Bool} {σ : Session} (h : Related installed σ) :
    σ.env.loaderVisible = true ↔
      installed = true ∧ ∀ entry ∈ σ.opened, entry.1.declares loaderName = false := by
  rw [Environment.loaderVisible, Environment.depth?, h.loader, ← shadows_eq_zero]
  cases installed with
  | false => simp [loaderLayers]
  | true => simp [loaderLayers]

/-- **An environment is a stack of frames.** After any calls on a new
environment or a module's, scopes being entered and left in a nested way: every
name but the loader's is looked up as in the frames; the loader is visible if it
was installed and no open scope declares it; and where the innermost open scope
is left, each of its names has again the layers it had before the scope was
entered, so the same depth and value. -/
theorem run?_refines (s : Start) {actions : List Action} {σ : Session}
    (h : (start s).run? actions = some σ) :
    (∀ name, name ≠ loaderName → σ.env.lookup? name = σ.frames.read name) ∧
      (σ.env.loaderVisible = true ↔
        s.hasLoader = true ∧ ∀ entry ∈ σ.opened, entry.1.declares loaderName = false) ∧
      ∀ scope before rest, σ.opened = (scope, before) :: rest → ∀ name ∈ scope.names,
        (σ.env.leave scope).layers name = before.layers name ∧
          (σ.env.leave scope).depth? name = before.depth? name ∧
          (σ.env.leave scope).lookup? name = before.lookup? name := by
  have hrelated := (Related.start s).run h
  refine ⟨fun name hname => ?_, hrelated.loaderVisible_iff, ?_⟩
  · obtain ⟨rest, hcolumn⟩ := σ.frames.exists_column_eq_cons name
    have hrepresents := hrelated.represents name hname
    rw [hcolumn] at hrepresents
    exact hrepresents.lookup?_eq
  · intro scope before rest hopened name hmem
    have hnested := hrelated.nested
    rw [hopened] at hnested
    have hrestored := hnested.restored hmem
    exact ⟨hrestored, by rw [Environment.depth?, hrestored, Environment.depth?],
      by rw [Environment.lookup?, hrestored, Environment.lookup?]⟩

/-- Two nested scopes declare `x`, and the outer one hides the loader. -/
theorem run?_refines_nested :
    let outer : Syntax.Scope := ⟨some 0, .function, ⟨0, 9⟩, ["x", "require"]⟩
    let inner : Syntax.Scope := ⟨some 1, .block, ⟨2, 8⟩, ["x"]⟩
    let calls : List Action :=
      [.enter outer, .define "x" (.text "a"), .enter inner, .define "x" (.text "b"), .leave inner]
    ∃ σ, (start (.module "/pkg/a.js" "/pkg" none true)).run? calls = some σ ∧
      σ.env.lookup? "x" = some (.text "a") ∧ σ.env.loaderVisible = false ∧
      (σ.env.leave outer).depth? "x" = none := by
  intro outer inner calls
  refine ⟨_, rfl, ?_⟩
  obtain ⟨hlookup, hloader, hleave⟩ :=
    run?_refines (.module "/pkg/a.js" "/pkg" none true) (show Session.run? _ calls = some _ from rfl)
  refine ⟨?_, ?_, ?_⟩
  · rw [hlookup "x" (by decide)]
    rfl
  · rw [← Bool.not_eq_true, hloader]
    simp [outer, Syntax.Scope.declares, Environment.loaderName]
  · rw [(hleave outer _ _ rfl "x" (by decide)).2.1]
    rfl

end Session

end ModuleAssets
