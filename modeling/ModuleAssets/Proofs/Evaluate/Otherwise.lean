import ModuleAssets.Proofs.Evaluate.Sound
/-!
# Otherwise — where known values are not what programs compute

Each node that is not regular has a reason. A template keeps the ends of its
lines as they are written, `__proto__` becomes a member, `void` does not look
at its operand, U+0085 goes as white space, and some functions on paths misread
what they are given. In all of these cases what is known is not what the
program computes.
-/

namespace ModuleAssets.Language

open Syntax Syntax.Tree
open Text (units unitsOf isWhiteSpace)

variable {ctx : ModuleContext} {env : Environment} {m : Machine} {v : Value} {d : Datum}

/-! ## Templates -/

theorem not_mem_lineFeeds (cs : List Char) : '\r' ∉ lineFeeds cs := by
  induction cs using lineFeeds.induct with
  | case1 => exact List.not_mem_nil
  | case2 rest ih => simpa [lineFeeds] using ih
  | case3 rest hnot ih =>
    rw [lineFeeds.eq_3 rest hnot]
    simpa using ih
  | case4 c rest hpair hline ih =>
    rw [lineFeeds.eq_4 c rest hpair hline]
    refine fun hmem => (List.mem_cons.1 hmem).elim (fun heq => ?_) ih
    exact hline heq.symm

/-- A piece with a carriage return never stands for itself. -/
theorem template_otherwise {piece : String} (hescape : '\\' ∉ piece.toList)
    (hline : '\r' ∈ piece.toList) (span : Span) :
    Gives ctx env (node (.template [piece]) span []) (.single (.text piece)) ∧
      ∀ d, Runs m (node (.template [piece]) span []) d → ¬ Shows (.text piece) d := by
  refine ⟨Gives.template.2 ⟨piece, [], rfl, hescape, GivesText.nil.2 rfl⟩, fun d hd hshows => ?_⟩
  cases hd with
  | template hcooks hruns =>
    cases hruns
    obtain ⟨-, hcooks⟩ := hcooks
    cases hshows
    have hsame : piece.toList = lineFeeds piece.toList := Text.units_inj.1 hcooks
    exact not_mem_lineFeeds piece.toList (hsame ▸ hline)

/-- A line break of two characters is one character of the template. -/
theorem template_otherwise_line :
    let ctx : ModuleContext := ⟨"/m.js", "/", none, none, .default, .empty⟩
    let m : Machine := ⟨fun _ => none, ['/']⟩
    let t := node (.template ["a\r\nb"]) ⟨0, 6⟩ []
    Gives ctx .empty t (.single (.text "a\r\nb")) ∧ Runs m t (.ofString "a\nb") ∧
      ∀ d, Runs m t d → ¬ Shows (.text "a\r\nb") d := by
  intro ctx m t
  obtain ⟨hgives, hnot⟩ : Gives ctx .empty t (.single (.text "a\r\nb")) ∧
      ∀ d, Runs m t d → ¬ Shows (.text "a\r\nb") d :=
    template_otherwise (by decide) (by decide) ⟨0, 6⟩
  refine ⟨hgives, ?_, hnot⟩
  exact .template ⟨by decide, by decide⟩ (.nil _) ⟨0, 6⟩

/-! ## Objects -/

/-- The prototype is taken for a member. -/
theorem prototype_otherwise {key : Key} {value : Syntax.Tree} (hkey : setsPrototype key = true)
    (hv : Gives ctx env value (.single v)) (outer inner : Span) :
    Gives ctx env (node .object outer [node (.property key) inner [value]])
        (.single (.object [("__proto__", v)])) ∧
      ∀ d, Runs m (node .object outer [node (.property key) inner [value]]) d →
        ¬ Shows (.object [("__proto__", v)]) d := by
  have htext : keyText? key = some "__proto__" := by
    cases key with
    | name n => rw [keyText?, beq_iff_eq.1 hkey]
    | text t => rw [keyText?, beq_iff_eq.1 hkey]
    | _ => cases hkey
  refine ⟨Gives.object.2 ⟨[("__proto__", v)], ?_, rfl⟩, fun d hd hshows => ?_⟩
  · rw [Gives] at hv
    simp [evaluateMembers, htext, hv, Json.setMember, Outcome.single?]
  · have hmember : Json.member? [("__proto__", v)] "__proto__" = some v := rfl
    cases hd with
    | object hruns =>
      cases hruns with
      | property _ hproto => exact Bool.false_ne_true (hproto.symm.trans hkey)
      | prototype _ _ _ hrest =>
        cases hrest
        cases hshows with
        | object told hown => cases hown "__proto__" v hmember

/-! ## Operands of `void` -/

/-- The operand is not looked at, also if the program ends at it. -/
theorem void_otherwise {operand : Syntax.Tree} (h : ∀ d, ¬ Runs m operand d) (span : Span) :
    Gives ctx env (node (.unary .void) span [operand]) (.single .undefined) ∧
      ∀ d, ¬ Runs m (node (.unary .void) span [operand]) d := by
  refine ⟨Gives.void.2 ⟨operand, rfl, rfl⟩, fun d hd => ?_⟩
  cases hd with
  | void hoperand => exact h _ hoperand
  | unary hoperand => exact h _ hoperand

/-! ## Numbers -/

/-- White space with U+0085 in it is taken for zero, and it is no number. -/
theorem number_otherwise {s : String} (hblank : ∀ c ∈ s.toList, isWhiteSpace c = true)
    (hnext : nextLine ∈ s.toList) :
    Value.numberOfText? s = some 0.0 ∧ ∀ x, NumberOf s.toList x → x = Double.nan := by
  constructor
  · have htrim : Text.trim s.toList = [] := by
      rw [Text.trim, List.dropWhile_eq_nil_iff.2 hblank]
      rfl
    unfold Value.numberOfText?
    rw [htrim]
    rfl
  · intro x hx
    cases hx with
    | other => rfl
    | @numeric cs _ hcore h =>
      exfalso
      obtain ⟨before, after, htext, hbefore, hafter⟩ := hcore
      have hnot : isBlank nextLine ≠ true := by decide
      have hmem : nextLine ∈ cs := by
        rw [htext, List.mem_append, List.mem_append] at hnext
        obtain (hmem | hmem) | hmem := hnext
        · exact absurd (hbefore _ hmem) hnot
        · exact hmem
        · exact absurd (hafter _ hmem) hnot
      have hnumeric : isNumeric nextLine ≠ true := by decide
      cases h with
      | blank => cases hmem
      | numeral hsign h =>
        obtain hmem | hmem := List.mem_append.1 hmem
        · exact hnumeric (isNumeric_of_isSign hsign _ hmem)
        · exact hnumeric (isNumeric_of_numeral h _ hmem)
      | infinity hsign =>
        obtain hmem | hmem := List.mem_append.1 hmem
        · exact hnumeric (isNumeric_of_isSign hsign _ hmem)
        · exact absurd hmem (by decide)

/-! ## Functions on paths -/

/-- A call that misreads its arguments gives something else than the program. -/
theorem calls_otherwise {f : PathFunction} {arguments : List Value} {ds : List Datum}
    (hds : List.Forall₂ Shows arguments ds) (h : f.call? arguments = some v)
    (hreads : Path.Misreads f arguments) : ∀ d, Calls m (.path f) ds d → ¬ Shows v d := by
  intro d hd hshows
  obtain ⟨path, hpath, ⟨rfl, hdouble⟩ | ⟨rfl, ending, hending, hover⟩⟩ := hreads
  · obtain ⟨vs, rest, rfl, rfl, -⟩ := firstText?_cases hds hpath
    obtain rfl := Option.some.inj h
    cases hd
    generalize hunits : Path.ScanBack.dirname (units path) = u at hshows
    cases hshows
    exact (Path.units_dirname_iff path).1 hunits.symm hdouble
  · obtain ⟨vs, rest, rfl, rfl, hrest⟩ := firstText?_cases hds hpath
    cases hrest with
    | nil => cases hending
    | cons hfirst _ =>
      obtain rfl := Option.some.inj hending
      cases hfirst
      obtain rfl := Option.some.inj h
      cases hd with
      | basename _ hnone => simp [Datum.ofString] at hnone
      | basenameWithout =>
        generalize hunits : Path.ScanBack.basenameWithout (units path) (units ending) = u at hshows
        cases hshows
        exact (Path.units_basename_some_iff path ending).1 hunits.symm hover

end ModuleAssets.Language
