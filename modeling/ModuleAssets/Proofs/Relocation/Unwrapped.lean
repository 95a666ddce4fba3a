import ModuleAssets.Proofs.Relocation.Issued
import ModuleAssets.Proofs.Syntax.Grammar.Program
import ModuleAssets.Proofs.Syntax.Orderly
import ModuleAssets.Proofs.Syntax.Unplaced
import Mathlib.Data.List.NodupEquivFin
/-!
# Wrappers — what the factory declares under the new name

A wrapper's factory gets another name for its parameter in the text, and one name less
in its scope. If the new text is read, its tree is that of the program with the
parameter renamed, and its scopes are those of the wrapper, but for the scope of the
factory: there the new name is declared. And the old one is, if the factory declares it
by something else than the parameter.
-/

namespace ModuleAssets

open Syntax Syntax.Tree Syntax.ScopeTree

/-! ## One scope of a program -/

namespace Syntax.ScopeTree

variable {t : ScopeTree}

/-- Two scopes with one key are one, if the key does not come twice. -/
theorem eq_of_key_eq {key : ScopeKind × Span} {i j : Nat} {s s' : Scope}
    (hsingle : ¬ (t.scopes.map Scope.key).Duplicate key) (hs : t.get? i = some s)
    (hs' : t.get? j = some s') (hkey : s.key = key) (hkey' : s'.key = key) : i = j := by
  have hget {i : Nat} {s : Scope} (hs : t.get? i = some s) (hkey : s.key = key) :
      ∃ h : i < (t.scopes.map Scope.key).length, key = (t.scopes.map Scope.key).get ⟨i, h⟩ := by
    obtain ⟨hlt, rfl⟩ := List.getElem?_eq_some_iff.1 hs
    exact ⟨by rwa [List.length_map], by rw [List.get_eq_getElem, List.getElem_map, hkey]⟩
  obtain ⟨hi, hkeyi⟩ := hget hs hkey
  obtain ⟨hj, hkeyj⟩ := hget hs' hkey'
  rw [List.duplicate_iff_exists_distinct_get] at hsingle
  by_contra hne
  obtain hlt | hlt := Nat.lt_or_gt_of_ne hne
  · exact hsingle ⟨⟨i, hi⟩, ⟨j, hj⟩, hlt, hkeyi, hkeyj⟩
  · exact hsingle ⟨⟨j, hj⟩, ⟨i, hi⟩, hlt, hkeyj, hkeyi⟩

/-- The scope with a key is found, if no other has it. -/
theorem lookupId_eq {kind : ScopeKind} {span : Span} {id : Nat} {s : Scope}
    (hsingle : ¬ (t.scopes.map Scope.key).Duplicate (kind, span)) (hs : t.get? id = some s)
    (hkey : s.key = (kind, span)) : t.lookupId kind span = some id := by
  have hfound : (t.scopes.reverse.findIdx? fun s => s.kind == kind && s.span == span).isSome := by
    rw [List.findIdx?_isSome, List.any_eq_true]
    refine ⟨s, List.mem_reverse.2 (List.mem_of_getElem? hs), ?_⟩
    rw [Bool.and_eq_true, beq_iff_eq, beq_iff_eq]
    exact ⟨congrArg Prod.fst hkey, congrArg Prod.snd hkey⟩
  obtain ⟨i, hi⟩ := Option.isSome_iff_exists.1 hfound
  obtain ⟨hlt, hmatch, -⟩ := List.findIdx?_eq_some_iff_getElem.1 hi
  rw [List.getElem_reverse, Bool.and_eq_true, beq_iff_eq, beq_iff_eq] at hmatch
  rw [List.length_reverse] at hlt
  rw [lookupId, hi, Option.map_some]
  exact congrArg some (eq_of_key_eq hsingle (List.getElem?_eq_getElem (by omega)) hs
    (Prod.ext hmatch.1 hmatch.2) hkey)

/-- What a node opens is not changed by what comes after it. -/
theorem get?_collectAll_length {current top : Nat} (h : HoistsTo t current top) {kind : Kind}
    (hopens : opens kind = true) (span : Span) (parts rest : List Tree) :
    (collectAll current (collect current t (node kind span parts)) rest).get? t.scopes.length =
      some (openedScope current (node kind span parts)) := by
  have hnode := get?_collect_length h hopens span parts
  rw [get?_collectAll_of_lt (h.grows (Grows.collect current t _)) (lt_length_of_get? hnode)
    h.lt_length, hnode]

theorem get?_undeclare (t : ScopeTree) (id : Nat) (name : String) (i : Nat) :
    (t.undeclare id name).get? i =
      (t.get? i).map fun s => if i = id then s.undeclare name else s := by
  rw [undeclare, get?, get?, List.getElem?_modify, Option.map_eq_map]
  by_cases h : i = id
  · simp only [h, if_true]
  · simp only [if_neg h, if_neg (Ne.symm h)]

/-- A name that is taken away from a scope is missed there only. -/
theorem agreeBut_undeclare (t : ScopeTree) (id : Nat) (name : String) :
    AgreeBut (· = id) (t.undeclare id name) t := by
  refine ⟨List.length_modify .., fun i s s' hs hs' => ?_⟩
  rw [get?_undeclare, hs', Option.map_some] at hs
  obtain rfl := Option.some.inj hs
  split
  · rename_i hi
    exact ⟨rfl, rfl, fun hnot => absurd hi hnot⟩
  · exact ⟨rfl, rfl, fun _ => rfl⟩

theorem declares_undeclare (t : ScopeTree) (id : Nat) (name n : String) :
    (t.undeclare id name).declares id n = true ↔ t.declares id n = true ∧ n ≠ name := by
  rw [declares, declares, get?_undeclare]
  cases t.get? id with
  | none => simp
  | some s => simp [Scope.declares, Scope.undeclare]

end Syntax.ScopeTree

/-! ## Trees with another name for the parameter -/

/-- Changes the expression inside any number of parentheses. -/
def Syntax.Tree.mapUnparen (f : Tree → Tree) : Tree → Tree
  | node .paren span [t] => node .paren span [mapUnparen f t]
  | t => f t

namespace Wrapper

/-- Gives the first parameter of a function another name. -/
def renameParameter (name : String) : Tree → Tree
  | node kind span (node (.binding _) place inner :: parts) =>
    node kind span (node (.binding name) place inner :: parts)
  | t => t

/-- `renameParameter` for the function that is the first argument of a call. -/
def renameInCall (name : String) : Tree → Tree
  | node .call span (callee :: argument :: more) =>
    node .call span (callee :: SpecialCase.withExpression argument
      ((SpecialCase.argumentExpression argument).mapUnparen (renameParameter name)) :: more)
  | t => t

/-- `renameInCall` for the call that is a statement. -/
def renameInStatement (name : String) : Tree → Tree
  | node .expressionStatement span [e] =>
    node .expressionStatement span [e.mapUnparen (renameInCall name)]
  | t => t

/-- `renameInStatement` for the first wrapper of some statements. -/
def renameInFirst (name : String) : List Tree → List Tree
  | [] => []
  | statement :: rest =>
    if (factory? statement).isSome then renameInStatement name statement :: rest
    else statement :: renameInFirst name rest

/-- The program with another name for the parameter of its first wrapper's factory. -/
def renamed (name : String) (program : Tree) : Tree :=
  node program.kind program.span (renameInFirst name program.parts)

/-- The names of a factory's scope that its first parameter does not declare. -/
def namesBeside (factory : Tree) : List String :=
  headNames factory.kind factory.parts.tail ++ (spilledIn factory.parts).map (·.2)

section

variable {program statement loader factory : Tree} {current : Nat} {t : ScopeTree} {name : String}

/-- What the factory of a wrapper looks like. -/
theorem exists_function_of_factory? (h : factory? statement = some (loader, factory)) :
    ∃ own span place inner body rest,
      factory = node (.function own) span (loader :: body :: rest) ∧
      loader = node (.binding "require") place inner := by
  obtain ⟨-, -, -, -, -, -, -, -, -, hfunction⟩ := exists_of_factory? h
  exact hfunction

/-! ## On the way to the factory nothing is declared -/

theorem collect_unparen (e : Tree) : collect current t e = collect current t e.unparen := by
  fun_induction unparen e with
  | case1 span e ih => exact ih
  | case2 e _ => rfl

theorem collect_mapUnparen (f : Tree → Tree) (e : Tree) :
    collect current t (e.mapUnparen f) = collect current t (f e.unparen) := by
  fun_induction mapUnparen f e with
  | case1 span e ih => exact ih
  | case2 e hparen =>
    rw [unparen]
    exact hparen

theorem collect_argumentExpression (argument : Tree) :
    collect current t argument = collect current t (SpecialCase.argumentExpression argument) := by
  unfold SpecialCase.argumentExpression
  split
  · rfl
  · rfl

theorem collect_withExpression (argument e : Tree) :
    collect current t (SpecialCase.withExpression argument e) = collect current t e := by
  unfold SpecialCase.withExpression
  split
  · rfl
  · rfl

/-- **A wrapper is collected by collecting its factory**, after the function that gets it and
before the other arguments. -/
theorem exists_collect_wrapper (h : factory? statement = some (loader, factory)) :
    ∃ callee more, ∀ current t,
      collect current t statement =
          collectAll current (collect current (collect current t callee) factory) more ∧
        ∀ name, collect current t (renameInStatement name statement) =
          collectAll current
            (collect current (collect current t callee) (renameParameter name factory)) more := by
  obtain ⟨span, e, place, callee, argument, more, rfl, hcall, hargument, -⟩ := exists_of_factory? h
  refine ⟨callee, more, fun current t => ⟨?_, fun name => ?_⟩⟩
  · have hcollect : collect current t (node .expressionStatement span [e]) =
        collect current t e := rfl
    rw [hcollect, collect_unparen, hcall]
    show collectAll current (collect current (collect current t callee) argument) more = _
    rw [collect_argumentExpression, collect_unparen, hargument]
  · have hcollect : collect current t (renameInStatement name (node .expressionStatement span [e])) =
        collect current t (e.mapUnparen (renameInCall name)) := rfl
    rw [hcollect, collect_mapUnparen, hcall]
    show collectAll current (collect current (collect current t callee) _) more = _
    rw [collect_withExpression, collect_mapUnparen, hargument]

theorem renameInFirst_append {before after : List Tree} (hnone : ∀ s ∈ before, factory? s = none)
    (h : factory? statement = some (loader, factory)) :
    renameInFirst name (before ++ statement :: after) =
      before ++ renameInStatement name statement :: after := by
  induction before with
  | nil =>
    rw [List.nil_append, renameInFirst, h, Option.isSome_some, if_pos rfl]
    rfl
  | cons first before ih =>
    rw [List.cons_append, renameInFirst, hnone first List.mem_cons_self, Option.isSome_none,
      if_neg Bool.false_ne_true, ih fun s hs => hnone s (List.mem_cons_of_mem _ hs)]
    rfl

/-- The scopes of a program with a wrapper, and those with the other name. -/
theorem exists_ofTree (h : program.parts.findSome? factory? = some (loader, factory)) :
    ∃ before rest,
      ofTree program =
          collectAll root (collect root (collectAll root (start program) before) factory) rest ∧
        ∀ name, ofTree (renamed name program) =
          collectAll root (collect root (collectAll root (start program) before)
            (renameParameter name factory)) rest := by
  obtain ⟨before, statement, after, hparts, hwrapper, hnone⟩ := List.findSome?_eq_some_iff.1 h
  obtain ⟨callee, more, hcollect⟩ := exists_collect_wrapper hwrapper
  obtain ⟨hplain, hrename⟩ := hcollect root (collectAll root (start program) before)
  refine ⟨before ++ [callee], more ++ after, ?_, fun name => ?_⟩
  · rw [ofTree, hparts, collectAll_append, collectAll_append, collectAll_append]
    exact congrArg (collectAll root · after) hplain
  · rw [ofTree, renamed, parts, hparts, renameInFirst_append hnone hwrapper, collectAll_append,
      collectAll_append, collectAll_append]
    exact congrArg (collectAll root · after) (hrename name)

/-! ## The scope of the factory -/

/-- **The names of a factory's scope**: the parameter's and those beside it. -/
theorem declares_openedScope (parent : Nat) {own : Option String} {span place : Span}
    {inner rest : List Tree} {body : Tree} {first n : String} :
    let factory := node (.function own) span (node (.binding first) place inner :: body :: rest)
    (openedScope parent factory).declares n = true ↔ n = first ∨ n ∈ namesBeside factory := by
  intro factory
  have hnone : (⟨some parent, .function, span, []⟩ : Scope).declares n = false := rfl
  have hkept : (spilledIn factory.parts).filter (fun n => !passes factory.kind n) =
      spilledIn factory.parts := List.filter_eq_self.2 fun _ _ => rfl
  have hheld : heldNames factory.kind factory.parts =
      (own.toList ++ first :: boundNamesIn (body :: rest).dropLast) ++
        (spilledIn factory.parts).map (·.2) := by
    rw [heldNames, hkept]
    rfl
  rw [show openedScope parent factory = Scope.declareAll (heldNames factory.kind factory.parts)
    ⟨some parent, .function, span, []⟩ from rfl, Scope.declares_declareAll, hnone, hheld, namesBeside,
    show headNames factory.kind factory.parts.tail =
      own.toList ++ boundNamesIn (body :: rest).dropLast from rfl]
  simp only [List.mem_append, List.mem_cons, Bool.false_eq_true, false_or]
  tauto

/-- The names of a wrapper's factory, and those with another name for the parameter. -/
theorem declares_factory (h : factory? statement = some (loader, factory)) (parent : Nat)
    (n : String) :
    ((openedScope parent factory).declares n = true ↔ n = "require" ∨ n ∈ namesBeside factory) ∧
      ∀ name, ((openedScope parent (renameParameter name factory)).declares n = true ↔
        n = name ∨ n ∈ namesBeside factory) := by
  obtain ⟨own, span, place, inner, body, rest, rfl, rfl⟩ := exists_function_of_factory? h
  exact ⟨declares_openedScope parent, fun name => declares_openedScope parent⟩

/-- Another name for the parameter makes a difference in the scope of the function only. -/
theorem agreeBut_renameParameter {top : Nat} (h : HoistsTo t current top) {own : Option String}
    {span place : Span} {inner rest : List Tree} {first : String} :
    let factory := node (.function own) span (node (.binding first) place inner :: rest)
    AgreeBut (· = t.scopes.length) (collect current t factory)
      (collect current t (renameParameter name factory)) := by
  intro factory
  rw [show renameParameter name factory =
    node (.function own) span (node (.binding name) place inner :: rest) from rfl, collect_node,
    collect_node]
  have hopened : AgreeBut (· = t.scopes.length)
      (opened current t factory.kind span factory.parts).1
      (opened current t factory.kind span (node (.binding name) place inner :: rest)).1 :=
    (AgreeBut.refl _ _).declareBoth fun hnot => absurd rfl hnot
  exact hopened.collectAll (h.opened factory.kind span factory.parts) factory.parts

/-- **The scope of the factory in a program**, and the only one in which another name for the
parameter is seen. -/
theorem exists_scope_factory (h : program.parts.findSome? factory? = some (loader, factory)) :
    ∃ id, (ofTree program).get? id = some (openedScope root factory) ∧
      (openedScope root factory).key = (.function, factory.span) ∧
      ∀ name, (ofTree (renamed name program)).get? id =
          some (openedScope root (renameParameter name factory)) ∧
        AgreeBut (· = id) (ofTree program) (ofTree (renamed name program)) := by
  obtain ⟨statement, -, hwrapper⟩ := List.exists_of_findSome?_eq_some h
  obtain ⟨before, rest, hplain, hrename⟩ := exists_ofTree h
  obtain ⟨own, span, place, inner, body, others, rfl, rfl⟩ := exists_function_of_factory? hwrapper
  have hto := (hoistsTo_start program).grows (Grows.collectAll root (start program) before)
  generalize collectAll root (start program) before = t at hplain hrename hto
  refine ⟨t.scopes.length, ?_, (key_openedScope root _).1, fun name => ⟨?_, ?_⟩⟩
  · rw [hplain]
    exact get?_collectAll_length hto rfl span _ rest
  · rw [hrename]
    exact get?_collectAll_length hto rfl span _ rest
  · rw [hplain, hrename]
    exact (agreeBut_renameParameter hto).collectAll (hto.grows (Grows.collect root t _)) rest

theorem unwrap_eq {scopes : ScopeTree} {draft : Draft} {patch : Patch} {id : Nat}
    (hfound : program.parts.findSome? factory? = some (loader, factory))
    (hid : scopes.lookupId .function factory.span = some id)
    (hpatch : draft.patch.overwrite loader.span parameterName = .ok patch) :
    unwrap .script program scopes draft = (scopes.undeclare id "require", { draft with patch }) := by
  obtain ⟨before, statement, after, hparts, hwrapper, hnone⟩ := List.findSome?_eq_some_iff.1 hfound
  unfold unwrap
  generalize hfirst : List.findSome? _ program.parts = found?
  obtain rfl : some (loader, id) = found? := by
    rw [← hfirst]
    refine (List.findSome?_eq_some_iff.2 ⟨before, statement, after, hparts, ?_, fun s hs => ?_⟩).symm
    · rw [hwrapper, Option.bind_some]
      exact congrArg (Option.map _) hid
    · rw [hnone s hs, Option.bind_none]
  simp only [hpatch]

/-- **The scopes of an unwrapped program are those of its new text, but for what the factory
declares.** The tree of the text is that of the program with the new name, in other places. The
scopes are as many and have the same kinds and parents, and all but the factory's have the same
names. The factory's has the new name in the text, and no longer the loader's in the scopes. That
is the whole difference exactly if the factory declares the loader by its parameter only;
otherwise the text still declares it there. -/
theorem unwrap_declares_renamed {text : Tree} {draft : Draft} {patch : Patch}
    (hfound : program.parts.findSome? factory? = some (loader, factory))
    (hsingle : ¬ ((ofTree program).scopes.map Scope.key).Duplicate (.function, factory.span))
    (hpatch : draft.patch.overwrite loader.span parameterName = .ok patch)
    (htext : text.unplaced = (renamed parameterName program).unplaced) :
    ∃ id scopes, (ofTree program).lookupId .function factory.span = some id ∧
      unwrap .script program (ofTree program) draft = (scopes, { draft with patch }) ∧
      scopes.AgreeBut (· = id) (ofTree text) ∧ scopes.declares id "require" = false ∧
      (∀ n, (ofTree text).declares id n = true ↔ n = parameterName ∨ scopes.declares id n = true ∨
        n = "require" ∧ "require" ∈ namesBeside factory) ∧
      ((∀ n, (ofTree text).declares id n = true ↔
          n = parameterName ∨ scopes.declares id n = true) ↔
        "require" ∉ namesBeside factory) := by
  obtain ⟨statement, -, hwrapper⟩ := List.exists_of_findSome?_eq_some hfound
  obtain ⟨id, hscope, hkey, hrenamed⟩ := exists_scope_factory hfound
  obtain ⟨hscope', hagree⟩ := hrenamed parameterName
  have hid : (ofTree program).lookupId .function factory.span = some id :=
    lookupId_eq hsingle hscope hkey
  have htextual : AgreeBut (fun _ => False) (ofTree (renamed parameterName program)) (ofTree text) :=
    (AgreeBut.ofTree_unplaced _ _).trans (htext ▸ (AgreeBut.ofTree_unplaced _ text).symm)
  have hleft (n : String) : ((ofTree program).undeclare id "require").declares id n = true ↔
      n ≠ "require" ∧ n ∈ namesBeside factory := by
    rw [declares_undeclare, declares, hscope, Option.any_some, (declares_factory hwrapper root n).1]
    tauto
  have hdeclared (n : String) : (ofTree text).declares id n = true ↔
      n = parameterName ∨ n ∈ namesBeside factory := by
    rw [← htextual.declares_eq fun h => h, declares, hscope', Option.any_some]
    exact (declares_factory hwrapper root n).2 parameterName
  refine ⟨id, _, hid, unwrap_eq hfound hid hpatch, ?_, ?_, fun n => ?_, fun hall hbeside => ?_,
    fun hbeside n => ?_⟩
  · exact ((agreeBut_undeclare _ _ _).trans hagree).trans (htextual.mono fun _ h => h.elim)
  · exact Bool.eq_false_iff.2 fun h => ((hleft "require").1 h).1 rfl
  · rw [hdeclared, hleft]
    by_cases hn : n = "require"
    · simp [hn]
    · simp [hn]
  · -- the loader is no new name, and the scope has lost it
    obtain hnew | hkept := (hall "require").1 ((hdeclared "require").2 (.inr hbeside))
    · exact absurd hnew (by decide)
    · exact ((hleft "require").1 hkept).1 rfl
  · have hne : n ∈ namesBeside factory → n ≠ "require" := fun hn heq => hbeside (heq ▸ hn)
    rw [hdeclared, hleft]
    tauto

end

/-- No two scopes of a module that is read share a key, so that the factory's is found. -/
theorem not_duplicate_of_parse {source : String} {parsed : Parsed}
    (h : parse source = .ok parsed) (key : ScopeKind × Span) :
    ¬ ((ofTree parsed.tree).scopes.map Scope.key).Duplicate key := by
  obtain ⟨hi, hspans⟩ := ownSpans_parse h
  exact not_duplicate_key hspans.orderly.partsOf key

/-- A factory that takes the loader and hands it on. The new text is read. -/
theorem unwrap_declares_renamed_passed :
    let source := "(function(f){f(require)})(function(require){require()})"
    let code := "(function(f){f(require)})(function(__factory_require__){require()})"
    let draft := Draft.start source (.ofExisting [])
    ∃ parsed text loader factory patch id scopes,
      parse source = .ok parsed ∧ parsed.grammar = .script ∧
      parsed.tree.parts.findSome? factory? = some (loader, factory) ∧
      ¬ ((ofTree parsed.tree).scopes.map Scope.key).Duplicate (.function, factory.span) ∧
      draft.patch.overwrite loader.span parameterName = .ok patch ∧
      (patch.apply source).code = code ∧ parse code = .ok text ∧
      text.tree.unplaced = (renamed parameterName parsed.tree).unplaced ∧
      unwrap .script parsed.tree (ofTree parsed.tree) draft = (scopes, { draft with patch }) ∧
      scopes.AgreeBut (· = id) (ofTree text.tree) ∧
      ∀ n, (ofTree text.tree).declares id n = true ↔
        n = parameterName ∨ scopes.declares id n = true := by
  intro source code draft
  obtain ⟨parsed, hparse, hparsed⟩ : ∃ parsed, parse source = .ok parsed ∧
      ((parse code).toOption.any fun text => decide (
        ((parsed.tree.parts.findSome? factory?).any fun wrapper =>
          (draft.patch.overwrite wrapper.1.span parameterName).toOption.any fun patch =>
            decide (parsed.grammar = .script ∧ (patch.apply source).code = code ∧
              text.tree.unplaced = (renamed parameterName parsed.tree).unplaced ∧
              "require" ∉ namesBeside wrapper.2)) = true)) = true :=
    Build.exists_ok_of_any (by decide +kernel)
  obtain ⟨text, htext, hwrapper⟩ := Build.exists_ok_of_any hparsed
  obtain ⟨⟨loader, factory⟩, hfound, hpatched⟩ := (Option.any_eq_true _ _).1 hwrapper
  obtain ⟨patch, hpatch, hgrammar, hcode, hsame, hbeside⟩ := Build.exists_ok_of_any hpatched
  have hsingle := not_duplicate_of_parse hparse (.function, factory.span)
  obtain ⟨id, scopes, -, hunwrap, hagree, -, -, hexact⟩ :=
    unwrap_declares_renamed hfound hsingle hpatch hsame
  exact ⟨parsed, text, loader, factory, patch, id, scopes, hparse, hgrammar, hfound, hsingle,
    hpatch, hcode, htext, hsame, hunwrap, hagree, hexact.2 hbeside⟩

/-- **A factory may declare the loader once more.** The new text still does, in the scope of the
factory, but the scopes have no such name, so that the loader is found there. -/
theorem loader_still_declared :
    let source := "(function(f){f(require)})(function(require){var require;require()})"
    let code := "(function(f){f(require)})(function(__factory_require__){var require;require()})"
    ∃ parsed text loader factory,
      parse source = .ok parsed ∧ parse code = .ok text ∧
      parsed.tree.parts.findSome? factory? = some (loader, factory) ∧
      (ofTree parsed.tree).lookupId .function factory.span = some 2 ∧
      let unwrapped := unwrap parsed.grammar parsed.tree (ofTree parsed.tree)
        (.start source (.ofExisting []))
      (unwrapped.2.patch.apply source).code = code ∧
      (ofTree text.tree).declares 2 "require" = true ∧
      unwrapped.1.declares 2 "require" = false ∧
      (ofTree text.tree).nearest? "require" 2 = some 2 ∧
      unwrapped.1.nearest? "require" 2 = none := by
  intro source code
  obtain ⟨parsed, hparse, hparsed⟩ : ∃ parsed, parse source = .ok parsed ∧
      ((parse code).toOption.any fun text => decide (
        ((parsed.tree.parts.findSome? factory?).any fun wrapper =>
          let unwrapped := unwrap parsed.grammar parsed.tree (ofTree parsed.tree)
            (.start source (.ofExisting []))
          decide ((ofTree parsed.tree).lookupId .function wrapper.2.span = some 2 ∧
            (unwrapped.2.patch.apply source).code = code ∧
            (ofTree text.tree).declares 2 "require" = true ∧
            unwrapped.1.declares 2 "require" = false ∧
            (ofTree text.tree).nearest? "require" 2 = some 2 ∧
            unwrapped.1.nearest? "require" 2 = none)) = true)) = true :=
    Build.exists_ok_of_any (by decide +kernel)
  obtain ⟨text, htext, hwrapper⟩ := Build.exists_ok_of_any hparsed
  obtain ⟨⟨loader, factory⟩, hfound, hscopes⟩ := (Option.any_eq_true _ _).1 hwrapper
  obtain ⟨hid, hscopes⟩ := of_decide_eq_true hscopes
  exact ⟨parsed, text, loader, factory, hparse, htext, hfound, hid, hscopes⟩

end Wrapper

end ModuleAssets
