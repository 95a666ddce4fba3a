import ModuleAssets.Proofs.Syntax.Orderly
import ModuleAssets.Relocation.Walk
/-!
# Walks side by side — one tree over two texts

Of the text of a module a walk sees only the parts that it copies, and it never looks at
what it wrote. So two walks over one tree that differ in nothing but the text take the same
steps. A relation that holds of the few steps which look at a draft or copy a part
(`Parallel`) holds of the walks (`together`).
-/

namespace ModuleAssets

open Syntax
open SpecialCase (argumentExpression)

/-- The second text is the first one, with the parts that this copies from `source` copied from
`source'`. -/
inductive Text.Copied (source source' : String) : String → String → Prop
  | same (text : String) : Copied source source' text text
  | part (span : Span) : Copied source source' ((Text.slice? source span).getD "")
      ((Text.slice? source' span).getD "")
  | append {front front' rest rest' : String} (h : Copied source source' front front')
      (h' : Copied source source' rest rest') :
      Copied source source' (front ++ rest) (front' ++ rest')

/-- A choice by a test of the module. -/
theorem Text.Copied.choice {source source' first first' second second' : String} (test : Span)
    (h : Copied source source' first first') (h' : Copied source source' second second') :
    Copied source source' ((Text.slice? source test).getD "" ++ " ? " ++ first ++ " : " ++ second)
      ((Text.slice? source' test).getD "" ++ " ? " ++ first' ++ " : " ++ second') :=
  ((((part test).append (.same _)).append h).append (.same _)).append h'

namespace WalkSetting

/-- The same setting for another text. -/
def withSource (w : WalkSetting) (source : String) : WalkSetting :=
  { w with source }

variable (w : WalkSetting) (source : String)

@[simp] theorem ctx_withSource : (w.withSource source).ctx = w.ctx := rfl

@[simp] theorem source_withSource : (w.withSource source).source = source := rfl

@[simp] theorem scopes_withSource : (w.withSource source).scopes = w.scopes := rfl

@[simp] theorem isEntry_withSource : (w.withSource source).isEntry = w.isEntry := rfl

end WalkSetting

namespace Walk

open WalkSetting

theorem keysOfAll?_withSource (w : WalkSetting) (source : String) :
    keysOfAll? (w.withSource source) = keysOfAll? w := rfl

theorem loaderAlias?_withSource (w : WalkSetting) (source : String) :
    loaderAlias? (w.withSource source) = loaderAlias? w := rfl

theorem entryCheck?_withSource (w : WalkSetting) (source : String) :
    entryCheck? (w.withSource source) = entryCheck? w := rfl

/-- The relation relates the steps in which walks over two texts may differ, and goes along with
steps one after another. -/
structure Parallel (w : WalkSetting) (source : String)
    (Rel : ∀ ⦃α : Type⦄, Walk α → Walk α → Prop) : Prop where
  answer {α : Type} (a : α) : Rel (pure a) (pure a)
  andThen {α β : Type} {step step' : Walk α} {next next' : α → Walk β} (h : Rel step step')
    (hnext : ∀ a, Rel (next a) (next' a)) : Rel (step >>= next) (step' >>= next')
  readEnv : Rel env env
  changeEnv (f : Environment → Environment) : Rel (modifyEnv f) (modifyEnv f)
  write (span : Span) {text text' : String} (h : Text.Copied w.source source text text') :
    Rel (overwrite span text) (overwrite span text')
  insert (position : Nat) {text text' : String} (h : Text.Copied w.source source text text') :
    Rel (modifyDraft (·.appendRight position text)) (modifyDraft (·.appendRight position text'))
  place (c : Candidate) : Rel (relocate w c) (relocate (w.withSource source) c)
  placeProperty (name : String) (span : Span) :
    Rel (shorthand w name span) (shorthand (w.withSource source) name span)
  /-- A binary is loaded from its place among the assets. -/
  loadAddon {α : Type} (span : Span) (binary : String) (a : α) :
    Rel (addFile w binary >>= fun reference =>
        overwrite span (Loader.dynamicLoad reference) >>= fun _ => pure a)
      (addFile (w.withSource source) binary >>= fun reference =>
        overwrite span (Loader.dynamicLoad reference) >>= fun _ => pure a)
  /-- One of two binaries is. -/
  loadAddons {α : Type} (span test : Span) (first second : String) (a : α) :
    Rel (addFile w first >>= fun x => addFile w second >>= fun y =>
        overwrite span (text w test ++ " ? " ++ Loader.dynamicLoad x ++ " : " ++
          Loader.dynamicLoad y) >>= fun _ => pure a)
      (addFile (w.withSource source) first >>= fun x =>
        addFile (w.withSource source) second >>= fun y =>
        overwrite span (text (w.withSource source) test ++ " ? " ++ Loader.dynamicLoad x ++ " : " ++
          Loader.dynamicLoad y) >>= fun _ => pure a)
  setEngine : Rel (modify fun s => { s with engineIsSet := true })
    (modify fun s => { s with engineIsSet := true })
  /-- An engine that is set was set by the program. -/
  unlessEngineIsSet {α : Type} {p : Prop} [Decidable p] {step step' other other' : Walk α}
    (h : Rel step step') (hother : Rel other other') :
    Rel (get >>= fun s => if p ∧ s.engineIsSet = false then step else other)
      (get >>= fun s => if p ∧ s.engineIsSet = false then step' else other')

section

variable {w : WalkSetting} {source : String} {Rel : ∀ ⦃α : Type⦄, Walk α → Walk α → Prop}
  {α : Type} {step step' : Walk α} (h : Parallel w source Rel)
include h

theorem parallel_write (span : Span) {text text' : String}
    (htext : Text.Copied w.source source text text') (a : α) :
    Rel (overwrite span text >>= fun _ => pure a) (overwrite span text' >>= fun _ => pure a) :=
  h.andThen (h.write span htext) fun _ => h.answer a

/-- What does not copy is written alike. -/
theorem parallel_edit (span : Span) (text : String) (a : α) :
    Rel (overwrite span text >>= fun _ => pure a) (overwrite span text >>= fun _ => pure a) :=
  parallel_write h span (.same text) a

/-! ## What only reads -/

theorem parallel_evaluate (t : Tree) : Rel (evaluate w t) (evaluate (w.withSource source) t) :=
  h.andThen h.readEnv fun _ => h.answer _

theorem parallel_known? (t : Tree) : Rel (known? w t) (known? (w.withSource source) t) :=
  h.andThen (parallel_evaluate h t) fun _ => h.answer _

theorem parallel_isLoader (t : Tree) : Rel (isLoader w t) (isLoader (w.withSource source) t) :=
  h.andThen h.readEnv fun _ => h.answer _

theorem parallel_isLoaderMember (name : String) (t : Tree) :
    Rel (isLoaderMember w name t) (isLoaderMember (w.withSource source) name t) :=
  h.andThen h.readEnv fun _ => h.answer _

theorem parallel_requiredSpecifier? (t : Tree) :
    Rel (requiredSpecifier? w t) (requiredSpecifier? (w.withSource source) t) :=
  h.andThen h.readEnv fun _ => h.answer _

theorem parallel_requiredModule? (t : Tree) :
    Rel (requiredModule? w t) (requiredModule? (w.withSource source) t) :=
  h.andThen h.readEnv fun _ => h.answer _

theorem parallel_isGrammarBridge (t : Tree) :
    Rel (isGrammarBridge w t) (isGrammarBridge (w.withSource source) t) := by
  unfold isGrammarBridge
  split
  · exact h.andThen (parallel_requiredSpecifier? h _) fun _ => h.answer _
  · exact h.answer _

/-! ## Names -/

theorem parallel_identifier (site : Site) (name : String) (span : Span) :
    Rel (identifier w site name span) (identifier (w.withSource source) site name span) := by
  refine h.andThen h.readEnv fun env => ?_
  split
  · exact h.answer _
  · refine h.andThen h.readEnv fun env => ?_
    rw [loaderAlias?_withSource]
    split
    · exact parallel_edit h span _ none
    · exact h.answer none

theorem parallel_assign (name : String) (value : Option Value) :
    Rel (assign name value) (assign name value) :=
  h.changeEnv _

theorem parallel_invalidateAll (names : List String) :
    Rel (invalidateAll names) (invalidateAll names) :=
  h.changeEnv _

theorem parallel_assignMember (member? : String → Option Value) (t : Tree) :
    Rel (assignMember member? t) (assignMember member? t) := by
  unfold assignMember
  split
  · dsimp only
    split
    · split
      · exact parallel_assign h _ _
      · exact parallel_invalidateAll h _
    · split
      · exact parallel_assign h _ _
      · exact parallel_invalidateAll h _
    · exact h.answer ()
    · exact parallel_invalidateAll h _
  · exact parallel_assign h _ _
  · exact parallel_invalidateAll h _

theorem parallel_assignMembers (member? : String → Option Value) (ts : List Tree) :
    Rel (assignMembers member? ts) (assignMembers member? ts) := by
  induction ts with
  | nil => exact h.answer ()
  | cons t rest ih => exact h.andThen (parallel_assignMember h member? t) fun _ => ih

theorem parallel_assignModule (m : KnownModule) (pattern : Tree) :
    Rel (assignModule m pattern) (assignModule m pattern) := by
  unfold assignModule
  split
  · exact parallel_assign h _ _
  · exact parallel_assignMembers h _ _
  · exact parallel_invalidateAll h _

/-! ## Calls -/

theorem parallel_unknownLoad (callee argument : Tree) :
    Rel (unknownLoad w callee argument) (unknownLoad (w.withSource source) callee argument) := by
  unfold unknownLoad
  split
  · exact parallel_write h _ (.part _) _
  · exact parallel_edit h _ _ _

theorem parallel_loaderCall (span : Span) (callee argument : Tree) :
    Rel (loaderCall w span callee argument)
      (loaderCall (w.withSource source) span callee argument) := by
  unfold loaderCall
  dsimp only
  -- the argument is evaluated or not, and the rest is the same
  split
  all_goals
    refine h.andThen (by first | exact h.answer _ | exact parallel_evaluate h _)
      fun evaluation => ?_
    rw [ctx_withSource]
    split
    · exact parallel_unknownLoad h _ _
    · split
      · exact h.loadAddon _ _ _
      · split
        · exact parallel_edit h _ _ _
        · exact h.answer _
    · split
      · exact h.loadAddons _ _ _ _ _
      · split
        · exact parallel_write h _ (.choice _ (.same _) (.same _)) _
        · exact h.answer _
    · exact h.answer _

theorem parallel_bindingsCall? (span : Span) (arguments : List Tree) :
    Rel (bindingsCall? w span arguments) (bindingsCall? (w.withSource source) span arguments) := by
  unfold bindingsCall?
  dsimp only
  split
  · exact h.andThen (h.answer _) fun _ => h.answer _
  · split
    · exact h.andThen (h.answer _) fun _ => h.answer _
    · exact h.andThen (parallel_known? h _) fun _ => h.answer _

theorem parallel_packageInfo (span : Span) (arguments : List Tree) :
    Rel (packageInfo w span arguments) (packageInfo (w.withSource source) span arguments) := by
  refine h.andThen h.readEnv fun env => ?_
  dsimp only
  simp only [ctx_withSource, keysOfAll?_withSource]
  split
  · exact parallel_edit h _ _ _
  · exact h.answer _

theorem parallel_resolveFrom (span : Span) (arguments : List Tree) :
    Rel (resolveFrom w span arguments) (resolveFrom (w.withSource source) span arguments) := by
  unfold resolveFrom
  split
  · split
    · exact h.answer _
    · refine h.andThen (parallel_known? h _) fun known => ?_
      split
      · rw [ctx_withSource]
        split
        · exact parallel_edit h _ _ _
        · exact h.answer _
      · exact h.answer _
  · exact h.answer _

theorem parallel_loadSingle (call : Tree) :
    Rel (loadSingle w call) (loadSingle (w.withSource source) call) := by
  refine h.andThen (parallel_known? h _) fun known => ?_
  simp only [ctx_withSource]
  split
  · split
    · exact parallel_edit h _ _ _
    · exact h.answer _
  · exact h.answer _

theorem parallel_applicationCall (method : String) (application : Tree) (arguments : List Tree) :
    Rel (applicationCall w method application arguments)
      (applicationCall (w.withSource source) method application arguments) := by
  unfold applicationCall
  split
  · exact h.setEngine
  · refine h.unlessEngineIsSet ?_ (h.answer ())
    split
    · refine h.andThen (parallel_known? h _) fun known => ?_
      split
      · exact h.insert _ (((((Text.Copied.same _).append (.part _)).append (.same _)).append
          (.part _)).append (.same _))
      · exact h.answer ()
    · exact h.answer ()

theorem parallel_loadedCall? (span : Span) (callee : Tree) (arguments : List Tree) :
    Rel (loadedCall? w span callee arguments)
      (loadedCall? (w.withSource source) span callee arguments) := by
  refine h.andThen (parallel_requiredSpecifier? h _) fun specifier => ?_
  split
  · exact h.andThen (parallel_bindingsCall? h _ _) fun _ => h.answer _
  · exact h.andThen (parallel_packageInfo h _ _) fun _ => h.answer _
  · exact h.answer _

theorem parallel_resolveCall? (call callee : Tree) :
    Rel (resolveCall? w call callee) (resolveCall? (w.withSource source) call callee) := by
  refine h.andThen (parallel_isLoaderMember h _ _) fun isMember => ?_
  split
  · refine h.andThen (parallel_known? h _) fun known => ?_
    split
    · exact h.answer _
    · exact h.answer _
  · exact h.answer _

theorem parallel_builtinCall? (call callee : Tree) (arguments : List Tree) :
    Rel (builtinCall? w call callee arguments)
      (builtinCall? (w.withSource source) call callee arguments) := by
  refine h.andThen (parallel_known? h _) fun known => ?_
  split
  · exact h.andThen (parallel_resolveFrom h _ _) fun _ => h.answer _
  · exact h.andThen (parallel_loadSingle h _) fun _ => h.answer _
  · exact h.answer _

theorem parallel_call (call callee : Tree) (arguments : List Tree) :
    Rel (Walk.call w call callee arguments)
      (Walk.call (w.withSource source) call callee arguments) := by
  unfold Walk.call
  dsimp only
  split
  · exact h.answer _
  · refine h.andThen (parallel_isLoader h _) fun isLoader => ?_
    split
    · exact parallel_loaderCall h _ _ _
    · refine h.andThen (parallel_loadedCall? h _ _ _) fun loaded => ?_
      split
      · exact h.answer _
      · refine h.andThen (parallel_resolveCall? h _ _) fun resolved => ?_
        split
        · exact h.answer _
        · refine h.andThen (parallel_builtinCall? h _ _ _) fun known => ?_
          split
          · exact h.answer _
          · split
            · refine h.andThen (parallel_known? h _) fun application => ?_
              split
              · exact h.andThen (parallel_applicationCall h _ _ _) fun _ => h.answer _
              · exact h.answer _
            · exact h.answer _

/-! ## Other forms -/

theorem parallel_entryCheck (span : Span) (module_ : Tree) :
    Rel (entryCheck w span module_) (entryCheck (w.withSource source) span module_) := by
  unfold entryCheck
  rw [isEntry_withSource]
  split
  · exact h.write _ (.same _)
  · exact h.write _ (.same _)

theorem parallel_conditionalLoad (span : Span) (test first second : Tree) :
    Rel (conditionalLoad w span test first second)
      (conditionalLoad (w.withSource source) span test first second) := by
  refine h.andThen (parallel_requiredSpecifier? h _) fun _ =>
    h.andThen (parallel_requiredSpecifier? h _) fun _ =>
      h.andThen (parallel_known? h _) fun known => ?_
  split
  · exact parallel_write h _ (.part _) _
  · exact h.answer _

theorem parallel_grow (whole : Tree) (tried : Bool) (candidate : Option Candidate) :
    Rel (grow w whole tried candidate) (grow (w.withSource source) whole tried candidate) := by
  cases candidate with
  | none => exact h.answer _
  | some c =>
    unfold grow
    dsimp only
    -- the whole is evaluated or not, and the rest is the same
    split
    all_goals
      refine h.andThen (by first | exact h.answer _ | exact parallel_evaluate h _)
        fun evaluation => ?_
      split
      · exact h.answer _
      · exact h.andThen (h.place c) fun _ => h.answer _

theorem parallel_settle {step step' : Walk (Option Candidate)} (hstep : Rel step step') :
    Rel (settle w step) (settle (w.withSource source) step') := by
  refine h.andThen hstep fun candidate => ?_
  split
  · exact h.place _
  · exact h.answer ()

theorem parallel_withScope (kind : ScopeKind) (span : Span) (hstep : Rel step step') :
    Rel (withScope w kind span step) (withScope (w.withSource source) kind span step') := by
  unfold withScope
  rw [scopes_withSource]
  split
  · exact h.andThen (h.changeEnv _) fun _ => h.andThen hstep fun _ =>
      h.andThen (h.changeEnv _) fun _ => h.answer _
  · exact hstep

end

/-! ## Whole walks -/

/-- What is to be shown of a tree: walks and visits over two texts are related. -/
structure Together (w : WalkSetting) (source : String)
    (Rel : ∀ ⦃α : Type⦄, Walk α → Walk α → Prop) (t : Tree) : Prop where
  walk : ∀ site, Rel (walk w site t) (walk (w.withSource source) site t)
  visitParts : Rel (visitParts w t) (visitParts (w.withSource source) t)

section

variable {w : WalkSetting} {source : String} {Rel : ∀ ⦃α : Type⦄, Walk α → Walk α → Prop}
  {parts : List Tree} (h : Parallel w source Rel)
include h

theorem parallel_visitAll (hparts : ∀ part ∈ parts, Together w source Rel part) :
    Rel (visitAll w parts) (visitAll (w.withSource source) parts) := by
  induction parts with
  | nil => exact h.answer ()
  | cons part rest ih =>
    rw [visitAll, visitAll]
    exact h.andThen (parallel_settle h ((hparts part List.mem_cons_self).walk _)) fun _ =>
      ih fun part hpart => hparts part (List.mem_cons_of_mem _ hpart)

theorem parallel_visitLast (hparts : ∀ part ∈ parts, Together w source Rel part) :
    Rel (visitLast w parts) (visitLast (w.withSource source) parts) := by
  induction parts with
  | nil => exact h.answer ()
  | cons part rest ih =>
    cases rest with
    | nil => exact parallel_settle h ((hparts part List.mem_cons_self).walk _)
    | cons next rest =>
      rw [visitLast, visitLast]
      exact ih fun part hpart => hparts part (List.mem_cons_of_mem _ hpart)

theorem parallel_descend (whole : Tree) (tried : Bool) (candidate : Option Candidate)
    (hparts : ∀ part ∈ parts, Together w source Rel part) :
    Rel (descend w whole tried candidate parts)
      (descend (w.withSource source) whole tried candidate parts) := by
  induction parts generalizing tried candidate with
  | nil => exact parallel_grow h whole tried candidate
  | cons part rest ih =>
    rw [descend, descend]
    refine h.andThen (parallel_grow h whole tried candidate) fun grown => ?_
    split
    · exact h.answer _
    · exact h.andThen ((hparts part List.mem_cons_self).walk _) fun next =>
        ih _ next fun part hpart => hparts part (List.mem_cons_of_mem _ hpart)

/-- A tree is walked alike if its parts are. -/
theorem parallel_walk_of_parts {t : Tree} (hparts : ∀ part ∈ t.parts, Together w source Rel part)
    (site : Site) : Rel (walk w site t) (walk (w.withSource source) site t) := by
  have hnone {step step' : Walk Unit} (hstep : Rel step step') :
      Rel (step >>= fun _ => pure (none : Option Candidate)) (step' >>= fun _ => pure none) :=
    h.andThen hstep fun _ => h.answer none
  unfold walk
  split
  · exact parallel_identifier h _ _ _
  · exact hnone (h.placeProperty _ _)
  · rename_i span callee arguments
    have hcallee : Together w source Rel callee := hparts callee List.mem_cons_self
    have harguments : ∀ part ∈ arguments, Together w source Rel part :=
      fun part hpart => hparts part (List.mem_cons_of_mem _ hpart)
    refine h.andThen (parallel_call h _ _ _) fun step => ?_
    split
    · exact h.answer _
    · exact h.answer _
    · exact hnone (parallel_visitAll h harguments)
    · exact hnone (parallel_visitLast h harguments)
    · exact h.andThen (hcallee.walk _) fun candidate => parallel_descend h _ _ candidate harguments
  · refine h.andThen (parallel_isLoaderMember h _ _) fun isMember => ?_
    split
    · exact h.answer _
    · exact parallel_descend h _ _ _ hparts
  · rename_i op span left right
    have hleft : left ∈ [left, right] := List.mem_cons_self
    have hright : right ∈ [left, right] := List.mem_cons_of_mem _ List.mem_cons_self
    refine h.andThen h.readEnv fun env => ?_
    rw [entryCheck?_withSource]
    split
    · refine h.andThen (parallel_entryCheck h _ _) fun _ => ?_
      dsimp only
      rw [isEntry_withSource]
      split
      · split
        · exact hnone (hparts left hleft).visitParts
        · exact hnone (hparts right hright).visitParts
      · exact h.answer _
    · exact parallel_descend h _ _ _ hparts
  · refine h.andThen (parallel_conditionalLoad h _ _ _ _) fun isLoad => ?_
    split
    · exact h.answer _
    · exact parallel_descend h _ _ _ hparts
  · rename_i op span target value
    have htarget : Together w source Rel target := hparts target List.mem_cons_self
    have hvalue : Rel (settle w (walk w .value value))
        (settle (w.withSource source) (walk (w.withSource source) .value value)) :=
      parallel_settle h ((hparts value (List.mem_cons_of_mem _ List.mem_cons_self)).walk _)
    dsimp only
    split
    · -- a loader may be bridged first; the rest is the same
      split
      on_goal 1 =>
        refine h.andThen (parallel_isGrammarBridge h _) fun isBridge => ?_
        split
        · exact hnone (h.write _ (.same _))
      all_goals
        refine h.andThen (parallel_requiredModule? h _) fun m => ?_
        split
        · exact hnone (parallel_assign h _ _)
        · exact h.andThen (parallel_known? h _) fun _ => h.andThen hvalue fun _ =>
            hnone (parallel_assign h _ _)
    · exact h.andThen (h.changeEnv _) fun _ => hnone hvalue
    · exact h.andThen (parallel_invalidateAll h _) fun _ =>
        h.andThen htarget.visitParts fun _ => hnone hvalue
  · rename_i span operand
    have hoperand : Together w source Rel operand := hparts operand List.mem_cons_self
    dsimp only
    split
    · exact hnone (h.changeEnv _)
    · exact hnone hoperand.visitParts
  · rename_i op span operand
    have hoperand : Together w source Rel operand := hparts operand List.mem_cons_self
    exact h.andThen (hoperand.walk _) fun candidate => parallel_descend h _ _ candidate
      fun _ hpart => absurd hpart List.not_mem_nil
  · exact parallel_descend h _ _ _ hparts
  · exact parallel_descend h _ _ _ hparts
  · exact parallel_descend h _ _ _ hparts
  · exact parallel_descend h _ _ _ hparts
  · exact hnone (parallel_withScope h _ _ (parallel_visitAll h hparts))
  · exact hnone (parallel_withScope h _ _ (parallel_visitAll h hparts))
  · exact hnone (parallel_withScope h _ _ (parallel_visitAll h hparts))
  · exact hnone (parallel_withScope h _ _ (parallel_visitAll h hparts))
  · exact hnone (parallel_withScope h _ _ (parallel_visitAll h hparts))
  · rename_i span pattern value
    have hpattern : Together w source Rel pattern := hparts pattern List.mem_cons_self
    have hvalue : Rel (settle w (walk w .value value))
        (settle (w.withSource source) (walk (w.withSource source) .value value)) :=
      parallel_settle h ((hparts value (List.mem_cons_of_mem _ List.mem_cons_self)).walk _)
    refine h.andThen (parallel_requiredModule? h _) fun m => ?_
    dsimp only
    split
    · exact hnone (parallel_assignModule h _ _)
    · split
      · exact h.andThen (parallel_known? h _) fun _ => h.andThen hvalue fun _ =>
          hnone (parallel_assign h _ _)
      · refine h.andThen (parallel_known? h _) fun _ => h.andThen hvalue fun _ => ?_
        split
        · exact h.andThen (parallel_assignMembers h _ _) fun _ => hnone hpattern.visitParts
        · exact h.andThen (parallel_invalidateAll h _) fun _ => hnone hpattern.visitParts
      · exact h.andThen (parallel_invalidateAll h _) fun _ =>
          h.andThen hpattern.visitParts fun _ => hnone hvalue
  · exact hnone (parallel_visitAll h hparts)

/-- **Walks over two texts are related.** -/
theorem together (t : Tree) : Together w source Rel t := by
  refine Syntax.Tree.inductionOnParts t fun kind span parts hparts =>
    ⟨parallel_walk_of_parts h hparts, ?_⟩
  rw [visitParts, visitParts]
  exact parallel_visitAll h hparts

end

end Walk

end ModuleAssets
