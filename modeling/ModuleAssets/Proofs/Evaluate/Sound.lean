import ModuleAssets.Proofs.Evaluate.Operations
/-!
# Soundness — a known value is what the program computes

An expression with one known value completes, when it runs, with a datum that
the value shows (`runs_of_gives`). This rests on what holds of each node that
is looked at: a known node with known operands completes if its operands do
(`sound_node`). Some nodes are taken otherwise than the language does, and they
are left out (`IsRegular`).
-/

namespace ModuleAssets.Language

open Syntax Syntax.Tree
open Text (units unitsOf)

/-- What is known of names is what they hold. -/
def Machine.Holds (m : Machine) (env : Environment) : Prop :=
  ∀ name v, env.lookup? name = some v → ∃ d, m.names name = some d ∧ Shows v d

section

variable (ctx : ModuleContext) (env : Environment) (m : Machine)

/-- The node is taken as the language does. Line ends in templates, `__proto__`
as a key, operands of `void` that fail, U+0085 around numerals and some calls of
functions on paths are not. Functions that are not on paths or on the operating
system are no matter of the language. -/
def IsRegular : Tree → Prop
  | node (.template pieces) _ parts =>
    pieces.length = parts.length + 1 ∧ ∀ piece ∈ pieces, '\r' ∉ piece.toList
  | node .call _ (callee :: arguments) =>
    ∀ b vs, Gives ctx env callee (.single (.builtin b)) →
      List.Forall₂ (fun t v => Gives ctx env t (.single v)) arguments vs →
      (∃ f, b = .path f ∧ ¬ Path.Misreads f vs) ∨ ∃ f, b = .os f
  | node (.binary op) _ [left, right] =>
    ∀ v w, Gives ctx env left (.single v) → Gives ctx env right (.single w) →
      TakesNumbers op v w → IsPlain v ∧ IsPlain w
  | node (.unary .void) _ [operand] => ∃ d, Runs m operand d
  | node (.unary op) _ [operand] =>
    ∀ v, Gives ctx env operand (.single v) → op = .minus ∨ op = .plus → IsPlain v
  | node .object _ members =>
    ∀ key span value, node (.property key) span [value] ∈ members → setsPrototype key = false
  | _ => True

/-- If the expression is known, it completes with what is known of it. -/
def Sound (t : Tree) : Prop :=
  ∀ v, Gives ctx env t (.single v) → ∃ d, Runs m t d ∧ Shows v d

end

variable {ctx : ModuleContext} {env : Environment} {m : Machine} {v : Value} {d : Datum}
variable {t : Tree} {parts members : List Tree}

/-! ## Lists of expressions -/

theorem runsAll_of_sound (hparts : ∀ part ∈ parts, Sound ctx env m part) {vs : List Value}
    (h : List.Forall₂ (fun t v => Gives ctx env t (.single v)) parts vs) :
    ∃ ds, RunsAll m parts ds ∧ List.Forall₂ Shows vs ds := by
  induction h with
  | nil => exact ⟨[], .nil, .nil⟩
  | cons hv _ ih =>
    obtain ⟨ds, hds, hshows⟩ := ih fun part hpart => hparts part (List.mem_cons_of_mem _ hpart)
    obtain ⟨d, hd, hshow⟩ := hparts _ List.mem_cons_self _ hv
    exact ⟨d :: ds, .cons hd hds, .cons hshow hshows⟩

/-! ## Templates -/

theorem lineFeeds_eq {cs : List Char} (h : '\r' ∉ cs) : lineFeeds cs = cs := by
  induction cs with
  | nil => rfl
  | cons c rest ih =>
    obtain ⟨hc, hrest⟩ := not_or.1 (mt List.mem_cons.2 h)
    have hlines := ih hrest
    unfold lineFeeds
    split
    · cases ‹_ = []›
    · rename_i heq
      exact absurd (List.cons.inj heq).1.symm hc
    · rename_i heq
      exact absurd (List.cons.inj heq).1.symm hc
    · rename_i heq
      obtain ⟨rfl, rfl⟩ := List.cons.inj heq
      rw [hlines]

theorem cooks_units {piece : String} (hescape : '\\' ∉ piece.toList) (hline : '\r' ∉ piece.toList) :
    Cooks piece (units piece) :=
  ⟨hescape, by rw [lineFeeds_eq hline, units]⟩

/-- The expressions and pieces of a template lead to the text that is known. -/
theorem runsText_of_sound (hparts : ∀ part ∈ parts, Sound ctx env m part) {pieces : List String}
    (hline : ∀ piece ∈ pieces, '\r' ∉ piece.toList) (hlength : pieces.length = parts.length)
    {s : String} (h : GivesText ctx env (.single (.text s)) pieces parts (.single v)) :
    ∃ t, v = .text t ∧ RunsText m (units s) pieces parts (units t) := by
  induction parts generalizing pieces s with
  | nil =>
    obtain rfl := List.length_eq_zero_iff.1 hlength
    obtain rfl := Outcome.single.inj (GivesText.nil.1 h)
    exact ⟨s, rfl, .nil _⟩
  | cons t rest ih =>
    cases pieces with
    | nil => cases hlength
    | cons piece pieces =>
      obtain ⟨hescape, y, z, hy, hz, hrest⟩ := GivesText.cons.1 h
      -- the template has one value, so have the expression and the text up to here
      obtain ⟨joined, rfl⟩ := Outcome.test?_eq_none.1 (hrest.isKnown rfl).1
      obtain ⟨w, rfl⟩ :=
        Outcome.test?_eq_none.1 ((Outcome.combines_joinPiece? piece).test?_eq_none hz rfl).2
      obtain ⟨s', shown, hs, hshown, rfl⟩ := joinPiece?_cases hz
      obtain rfl := Value.text.inj hs
      obtain ⟨d, hd, hw⟩ := hparts t List.mem_cons_self w hy
      obtain ⟨whole, rfl, hruns⟩ := ih (fun part hpart => hparts part (List.mem_cons_of_mem _ hpart))
        (fun piece hpiece => hline piece (List.mem_cons_of_mem _ hpiece)) (Nat.succ.inj hlength) hrest
      rw [units_append, units_append] at hruns
      exact ⟨whole, rfl,
        .cons hd (hw.toText hshown) (cooks_units hescape (hline piece List.mem_cons_self)) hruns⟩

/-! ## Objects -/

/-- The known members are among those of the object. -/
def Tells (known : List (String × Value)) (own : List (List Nat × Datum)) : Prop :=
  ∀ key v, Json.member? known key = some v → ∃ d, own.lookup (units key) = some d ∧ Shows v d

variable {known fields : List (String × Value)} {own : List (List Nat × Datum)}

theorem Tells.shows (h : Tells known own) : Shows (.object known) (.object own) := by
  refine .object (fun key => (own.lookup (units key)).getD .undefined) (fun key v hv => ?_)
    fun key v hv => ?_
  · obtain ⟨d, hd, -⟩ := h key v hv
    rw [hd, Option.getD_some]
  · obtain ⟨d, hd, hshows⟩ := h key v hv
    rwa [hd, Option.getD_some]

/-- A property that is defined hides those of the same name before it. -/
theorem Tells.define (h : Tells known own) (hv : Shows v d) (name : String) :
    Tells (Json.setMember known name v) ((units name, d) :: own) := by
  intro key w hw
  rw [Json.member?_setMember] at hw
  by_cases heq : name = key
  · rw [if_pos heq, Option.some_inj] at hw
    rw [heq, List.lookup_cons_self]
    exact ⟨d, rfl, hw ▸ hv⟩
  · rw [if_neg heq] at hw
    obtain ⟨e, he, hshows⟩ := h key w hw
    refine ⟨e, ?_, hshows⟩
    rw [List.lookup_cons, beq_false_of_ne (mt units_eq_iff.1 (Ne.symm heq)), he]

theorem keyOf_of_keyText? {key : Key} {name : String} (h : keyText? key = some name) :
    KeyOf key (units name) := by
  cases key with
  | name n =>
    obtain rfl := Option.some.inj h
    exact .name _
  | text s =>
    obtain rfl : s = some name := h
    exact .text name
  | number x => exact .number (Double.writes_of_numberText? h)
  | _ => cases h

theorem lookup?_of_ofName {name : String} (h : (Evaluation.ofName env name).value = some v) :
    env.lookup? name = some v := by
  unfold Evaluation.ofName at h
  split at h
  · rename_i w hw
    rw [hw]
    exact h
  · cases h

/-- The properties of an object lead to members of which the known ones are
some. The induction is on the properties, and those before them are told. -/
theorem runsMembers_of_sound (hnames : m.Holds env)
    (hvalues : ∀ key span value, node (.property key) span [value] ∈ members →
      setsPrototype key = false ∧ Sound ctx env m value)
    (htells : Tells known own)
    (h : (evaluateMembers ctx env known members).value = some fields) :
    ∃ all, RunsMembers m own members all ∧ Tells fields all := by
  induction members generalizing known own with
  | nil =>
    obtain rfl := Option.some.inj h
    exact ⟨own, .nil own, htells⟩
  | cons member rest ih =>
    have hrest := fun key span value hmem => hvalues key span value (List.mem_cons_of_mem member hmem)
    unfold evaluateMembers at h
    split at h
    · cases ‹_ = []›
    · rename_i key span value rest' heq
      obtain ⟨rfl, rfl⟩ := List.cons.inj heq
      simp only [Evaluation.value_bind, Evaluation.value_single, Evaluation.value_ofOption,
        Option.bind_eq_some_iff, Outcome.single?_eq_some] at h
      obtain ⟨name, hname, v, ⟨_, hv, rfl⟩, h⟩ := h
      obtain ⟨hproto, hsound⟩ := hvalues key span value List.mem_cons_self
      obtain ⟨d, hd, hshows⟩ := hsound v hv
      obtain ⟨all, hall, hfields⟩ := ih hrest (htells.define hshows name) h
      exact ⟨all, .property (keyOf_of_keyText? hname) hproto hd span hall, hfields⟩
    · rename_i name span parts rest' heq
      obtain ⟨rfl, rfl⟩ := List.cons.inj heq
      rw [Evaluation.value_bind, Option.bind_eq_some_iff] at h
      obtain ⟨v, hv, h⟩ := h
      obtain ⟨d, hd, hshows⟩ := hnames name v (lookup?_of_ofName hv)
      obtain ⟨all, hall, hfields⟩ := ih hrest (htells.define hshows name) h
      exact ⟨all, .shorthand hd span parts hall, hfields⟩
    · cases h

/-! ## Nodes -/

/-- Both end with the left operand or both go on. -/
theorem Shows.endsAtLeft?_eq (h : Shows v d) {op : BinaryOp} (hop : op.isLogical) :
    endsAtLeft? op d = some (v.endsAtLeft op) := by
  cases op with
  | and => rw [endsAtLeft?, h.truthy?_eq, Option.map_some, Value.endsAtLeft]
  | or => rw [endsAtLeft?, h.truthy?_eq, Value.endsAtLeft]
  | nullish =>
    show some (!d.isNullish) = some (!v.isNullish)
    rw [h.isNullish_eq]
  | _ => cases hop

/-- **A known node completes if its operands do.** -/
theorem sound_node (hnames : m.Holds env) (hregular : IsRegular ctx env m t)
    (hoperands : ∀ o ∈ lookedAt ctx env t, Sound ctx env m o.2) : Sound ctx env m t := by
  intro v hv
  obtain ⟨kind, span, parts⟩ := t
  have hpart (i : Nat) (part : Tree) (hmem : ([i], part) ∈ (node kind span parts).operands)
      (hlooked : skips ctx env (node kind span parts) [i] = false) : Sound ctx env m part :=
    hoperands _ (mem_lookedAt.2 ⟨hmem, hlooked⟩)
  cases kind with
  | text value =>
    cases value with
    | some s =>
      obtain rfl := Outcome.single.inj (Option.some.inj hv)
      exact ⟨_, .text s span parts, .text s⟩
    | none => cases hv
  | number x =>
    obtain rfl := Outcome.single.inj (Option.some.inj hv)
    exact ⟨_, .number x span parts, .number x⟩
  | boolean b =>
    obtain rfl := Outcome.single.inj (Option.some.inj hv)
    exact ⟨_, .boolean b span parts, .bool b⟩
  | null =>
    obtain rfl := Outcome.single.inj (Option.some.inj hv)
    exact ⟨_, .null span parts, .null⟩
  | identifier name =>
    simp only [Gives, evaluate, Evaluation.value_bind, Evaluation.value_pure,
      Option.bind_eq_some_iff, Option.some.injEq, Outcome.single.injEq] at hv
    obtain ⟨_, hname, rfl⟩ := hv
    obtain ⟨d, hd, hshows⟩ := hnames name _ (lookup?_of_ofName hname)
    exact ⟨d, .identifier hd span parts, hshows⟩
  | paren =>
    obtain ⟨inner, rfl, hinner⟩ := Gives.paren.1 hv
    obtain ⟨d, hd, hshows⟩ := hpart 0 inner (mem_numbered_one.2 rfl) rfl v hinner
    exact ⟨d, .paren hd span, hshows⟩
  | template pieces =>
    obtain ⟨first, rest, rfl, hescape, htext⟩ := Gives.template.1 hv
    obtain ⟨hlength, hline⟩ := hregular
    have hparts : ∀ part ∈ parts, Sound ctx env m part := by
      intro part hmem
      obtain ⟨i, hi⟩ := List.getElem?_of_mem hmem
      obtain ⟨hlt, -⟩ := List.getElem?_eq_some_iff.1 hi
      refine hpart i part (mem_numbered_take.2 ⟨i, ?_, hi, rfl⟩) rfl
      omega
    obtain ⟨t, rfl, hruns⟩ := runsText_of_sound hparts
      (fun piece hpiece => hline piece (List.mem_cons_of_mem _ hpiece)) (Nat.succ.inj hlength) htext
    exact ⟨_, .template (cooks_units hescape (hline first List.mem_cons_self)) hruns span, .text t⟩
  | member name =>
    obtain ⟨object, y, rfl, hy, hmap⟩ := Gives.member.1 hv
    obtain ⟨w, rfl⟩ := Outcome.test?_eq_none.1 ((Outcome.test?_map? hmap).symm.trans rfl)
    obtain ⟨z, hz, hsame⟩ := Option.map_eq_some_iff.1 hmap
    obtain rfl := Outcome.single.inj hsame
    obtain ⟨o, ho, hshows⟩ := hpart 0 object (mem_numbered_one.2 rfl) rfl w hy
    obtain ⟨d, hd, hshown⟩ := hshows.get hz
    exact ⟨d, .member ho hd span, hshown⟩
  | hiddenMember name => exact absurd hv Gives.not_hiddenMember
  | computedMember =>
    obtain ⟨object, key, y, z, rfl, hy, hz, hzip⟩ := Gives.computedMember.1 hv
    obtain ⟨hytest, hztest⟩ :=
      ((Outcome.combines_zip? _).map?_bind _).test?_eq_none hzip rfl
    obtain ⟨w, rfl⟩ := Outcome.test?_eq_none.1 hytest
    obtain ⟨k, rfl⟩ := Outcome.test?_eq_none.1 hztest
    obtain ⟨_, hkey, hmember⟩ := Option.bind_eq_some_iff.1 hzip
    obtain ⟨_, htext, rfl⟩ := Option.map_eq_some_iff.1 hkey
    obtain ⟨name, hname, rfl⟩ : ∃ name, k.toText? = some name ∧ Value.text name = _ :=
      Option.map_eq_some_iff.1 htext
    obtain ⟨z, hz', hsame⟩ := Option.map_eq_some_iff.1 hmember
    obtain rfl := Outcome.single.inj hsame
    obtain ⟨o, ho, hshows⟩ := hpart 0 object (mem_numbered_two.2 (.inl rfl)) rfl w hy
    obtain ⟨c, hc, hkey⟩ := hpart 1 key (mem_numbered_two.2 (.inr rfl)) rfl k hz
    obtain ⟨d, hd, hshown⟩ := hshows.get hz'
    exact ⟨d, .computedMember ho hc (hkey.toText hname) hd span, hshown⟩
  | call =>
    obtain ⟨callee, arguments, b, xs, rfl, hcallee, -, hxs, hcall⟩ := Gives.call.1 hv
    obtain ⟨vs, rfl⟩ := singles_of_callOutcome hcall rfl
    rw [List.forall₂_map_right_iff] at hxs
    rw [callOutcome, splitArguments?_singles] at hcall
    simp only [Evaluation.value_bind, Evaluation.value_pure, Option.bind_eq_some_iff,
      Option.some.injEq, Outcome.single.injEq] at hcall
    obtain ⟨_, hcall, rfl⟩ := hcall
    obtain ⟨_, hruns, hbuiltin⟩ :=
      hpart 0 callee (mem_numbered.2 ⟨0, rfl, rfl⟩) rfl _ hcallee
    cases hbuiltin
    have hparts : ∀ part ∈ arguments, Sound ctx env m part := by
      intro part hmem
      obtain ⟨i, hi⟩ := List.getElem?_of_mem hmem
      exact hpart (i + 1) part (mem_numbered.2 ⟨i + 1, hi, rfl⟩) rfl
    obtain ⟨ds, hds, hshows⟩ := runsAll_of_sound hparts hxs
    obtain ⟨f, rfl, hreads⟩ | ⟨f, rfl⟩ := hregular b vs hcallee hxs
    · obtain ⟨d, hd, hshown⟩ := calls_path hshows hcall hreads
      exact ⟨d, .call hruns hds hd span, hshown⟩
    · obtain rfl := Option.some.inj hcall
      obtain ⟨d, hd, hshown⟩ := calls_os f ds
      exact ⟨d, .call hruns hds hd span, hshown⟩
  | conditional =>
    obtain ⟨test, a, b, rfl, ⟨w, hw, hchosen⟩ | ⟨-, _, _, -, -, hx⟩⟩ := Gives.conditional.1 hv
    · obtain ⟨c, hc, hshows⟩ := hoperands _ test_mem_lookedAt w hw
      have hsound : Sound ctx env m (if w.truthy then a else b) := by
        by_cases htruthy : w.truthy
        · rw [if_pos htruthy]
          refine hpart 1 a (mem_numbered_three.2 (.inr (.inl rfl))) ?_
          rw [skips_conditional hw, if_pos htruthy]
          rfl
        · rw [if_neg htruthy]
          refine hpart 2 b (mem_numbered_three.2 (.inr (.inr rfl))) ?_
          rw [skips_conditional hw, if_neg htruthy]
          rfl
      obtain ⟨d, hd, hshown⟩ := hsound v hchosen
      exact ⟨d, .conditional hc hshows.truthy?_eq hd span, hshown⟩
    · cases hx
  | binary op =>
    by_cases hop : op.isLogical
    · obtain ⟨left, right, w, rfl, hleft, hright⟩ := (Gives.logical hop).1 hv
      have hskips (place : List Nat) : skips ctx env (node (.binary op) span [left, right]) place =
          (op.isLogical && w.endsAtLeft op && place == [1]) := skips_binary hleft place
      obtain ⟨c, hc, hshows⟩ := hpart 0 left (mem_numbered_two.2 (.inl rfl))
        ((hskips [0]).trans (Bool.and_false _)) w hleft
      have hends := hshows.endsAtLeft?_eq hop
      by_cases hdone : w.endsAtLeft op
      · rw [if_pos hdone, Outcome.single.injEq] at hright
        rw [hdone] at hends
        exact ⟨c, .atLeft hc hends span, hright ▸ hshows⟩
      · rw [if_neg hdone] at hright
        rw [Bool.not_eq_true] at hdone
        rw [hdone] at hends
        obtain ⟨d, hd, hshown⟩ := hpart 1 right (mem_numbered_two.2 (.inr rfl))
          ((hskips [1]).trans (by rw [hdone, Bool.and_false, Bool.false_and])) v hright
        exact ⟨d, .atRight hc hends hd span, hshown⟩
    · obtain ⟨left, right, y, z, rfl, hy, hz, hzip⟩ := (Gives.binary hop).1 hv
      obtain ⟨hytest, hztest⟩ := (Outcome.combines_zip? _).test?_eq_none hzip rfl
      obtain ⟨w, rfl⟩ := Outcome.test?_eq_none.1 hytest
      obtain ⟨w', rfl⟩ := Outcome.test?_eq_none.1 hztest
      obtain ⟨_, hbinary, hsame⟩ := Option.map_eq_some_iff.1 hzip
      obtain rfl := Outcome.single.inj hsame
      have hskips (place : List Nat) : skips ctx env (node (.binary op) span [left, right]) place =
          false := skips_binary_of_not_isLogical hop place
      obtain ⟨a, ha, hshows⟩ := hpart 0 left (mem_numbered_two.2 (.inl rfl)) (hskips _) w hy
      obtain ⟨b, hb, hshows'⟩ := hpart 1 right (mem_numbered_two.2 (.inr rfl)) (hskips _) w' hz
      obtain ⟨d, hd, hshown⟩ := hshows.combines hshows' hbinary (hregular w w' hy hz)
      exact ⟨d, .binary ha hb hd span, hshown⟩
  | unary op =>
    by_cases hop : op = .void
    · subst hop
      obtain ⟨operand, rfl, hx⟩ := Gives.void.1 hv
      obtain rfl := Outcome.single.inj hx
      obtain ⟨d, hd⟩ := hregular
      exact ⟨_, .void hd span, .undefined⟩
    · obtain ⟨operand, y, rfl, hy, hmap⟩ := (Gives.unary hop).1 hv
      obtain ⟨w, rfl⟩ := Outcome.test?_eq_none.1 ((Outcome.test?_map? hmap).symm.trans rfl)
      obtain ⟨_, hunary, hsame⟩ := Option.map_eq_some_iff.1 hmap
      obtain rfl := Outcome.single.inj hsame
      have hmem : ([0], operand) ∈ (node (.unary op) span [operand]).operands := by
        rw [operands, if_neg hop]
        exact mem_numbered_one.2 rfl
      obtain ⟨a, ha, hshows⟩ := hpart 0 operand hmem rfl w hy
      have hplain : op = .minus ∨ op = .plus → IsPlain w := by
        cases op with
        | void => exact absurd rfl hop
        | _ => exact hregular w hy
      obtain ⟨d, hd, hshown⟩ := hshows.changes hunary hplain
      exact ⟨d, .unary ha hd span, hshown⟩
  | array =>
    obtain ⟨vs, hvs, hx⟩ := Gives.array.1 hv
    obtain rfl := Outcome.single.inj hx
    have hparts : ∀ part ∈ parts, Sound ctx env m part := by
      intro part hmem
      obtain ⟨i, hi⟩ := List.getElem?_of_mem hmem
      exact hpart i part (mem_numbered.2 ⟨i, hi, rfl⟩) rfl
    obtain ⟨ds, hds, hshows⟩ := runsAll_of_sound hparts hvs
    exact ⟨_, .array hds span, .array hshows⟩
  | object =>
    obtain ⟨fields, hfields, hx⟩ := Gives.object.1 hv
    obtain rfl := Outcome.single.inj hx
    have hvalues : ∀ key span value, node (.property key) span [value] ∈ parts →
        setsPrototype key = false ∧ Sound ctx env m value := by
      intro key inner value hmem
      obtain ⟨i, hi⟩ := List.getElem?_of_mem hmem
      exact ⟨hregular key inner value hmem,
        hoperands ([i, 0], value)
          (mem_lookedAt.2 ⟨mem_numberedValues.2 ⟨i, key, inner, hi, rfl⟩, rfl⟩)⟩
    obtain ⟨all, hall, htells⟩ := runsMembers_of_sound hnames hvalues
      (fun key v h => by cases h) hfields
    exact ⟨_, .object hall span, htells.shows⟩
  | _ => cases hv

/-! ## Expressions -/

/-- The induction is on the expression. All that is reached from an operand is
reached from the whole. -/
theorem sound_of_regular (hnames : m.Holds env) (t : Tree)
    (hregular : ∀ p sub, Reaches (lookedAt ctx env) t p sub → IsRegular ctx env m sub) :
    Sound ctx env m t := by
  exact sound_node hnames (hregular [] t (.self t)) fun o ho =>
    sound_of_regular hnames o.2 fun p sub hp => hregular (o.1 ++ p) sub (.further ho hp)
termination_by sizeOf t
decreasing_by exact sizeOf_of_mem_operands (lookedAt_subset t ho)

/-- **A known value is what the program computes**, if all that is looked at is
regular. -/
theorem runs_of_gives (hnames : m.Holds env)
    (hregular : ∀ p sub, Reaches (lookedAt ctx env) t p sub → IsRegular ctx env m sub)
    (hv : Gives ctx env t (.single v)) : ∃ d, Runs m t d ∧ Shows v d :=
  sound_of_regular hnames t hregular v hv

/-- `join(dir, ...)` with a template that chooses between two texts. -/
def joinedTemplate : Syntax.Tree :=
  node .call ⟨0, 40⟩
    [node (.identifier "join") ⟨0, 4⟩ [], node (.identifier "dir") ⟨5, 8⟩ [],
      node (.template ["a", ""]) ⟨10, 39⟩
        [node .conditional ⟨14, 37⟩
          [node (.binary .strictEqual) ⟨14, 26⟩
              [node (.identifier "dir") ⟨14, 17⟩ [], node (.text (some "/q")) ⟨22, 26⟩ []],
            node (.identifier "x") ⟨29, 30⟩ [], node (.text (some "b")) ⟨33, 36⟩ []]]]

/-- The name `x` is not known, and it is not read. -/
theorem runs_of_gives_joinedTemplate :
    let ctx : ModuleContext := ⟨"/p/m.js", "/p", none, none, .default, .empty⟩
    let env := (Environment.empty.define "join" (.builtin (.path .join))).define "dir" (.text "/p")
    let m : Machine := ⟨fun name => if name = "join" then some (.facility (.path .join))
      else if name = "dir" then some (.ofString "/p") else none, ['/']⟩
    m.Holds env ∧ (∀ p sub, Reaches (lookedAt ctx env) joinedTemplate p sub →
        IsRegular ctx env m sub) ∧
      Gives ctx env joinedTemplate (.single (.text "/p/ab")) ∧
      ∃ d, Runs m joinedTemplate d ∧ Shows (.text "/p/ab") d := by
  intro ctx env m
  have hnames : m.Holds env := by
    have henv : env = ⟨[("join", [⟨0, some (.builtin (.path .join))⟩]),
        ("dir", [⟨0, some (.text "/p")⟩])]⟩ := rfl
    intro name v h
    by_cases hjoin : name = "join"
    · subst hjoin
      obtain rfl := Option.some.inj h
      exact ⟨_, rfl, .builtin _⟩
    by_cases hdir : name = "dir"
    · subst hdir
      obtain rfl := Option.some.inj h
      exact ⟨_, rfl, .text "/p"⟩
    · simp [henv, Environment.lookup?, Environment.layers, Ne.symm hjoin, Ne.symm hdir] at h
  have hregular : ∀ p sub, Reaches (lookedAt ctx env) joinedTemplate p sub →
      IsRegular ctx env m sub := by
    have hcallee : Gives ctx env (node (.identifier "join") ⟨0, 4⟩ [])
        (.single (.builtin (.path .join))) := rfl
    refine forall_reaches (fun b vs hb hvs => .inl ⟨.join, ?_, ?_⟩) fun o ho => ?_
    · exact Value.builtin.inj (Outcome.single.inj (hb.unique hcallee))
    · rintro ⟨path, -, ⟨hf, -⟩ | ⟨hf, -⟩⟩ <;> cases hf
    obtain rfl | rfl | rfl := mem_numbered_three.1 (lookedAt_subset _ ho)
    · exact forall_reaches trivial fun o ho => by cases ho
    · exact forall_reaches trivial fun o ho => by cases ho
    refine forall_reaches ⟨rfl, by decide⟩ fun o ho => ?_
    obtain rfl := mem_numbered_one.1 (lookedAt_subset _ ho)
    refine forall_reaches trivial fun o ho => ?_
    obtain rfl | rfl | rfl := mem_numbered_three.1 (lookedAt_subset _ ho)
    · refine forall_reaches (fun _ _ _ _ h => h.elim) fun o ho => ?_
      obtain rfl | rfl := mem_numbered_two.1 (lookedAt_subset _ ho)
      · exact forall_reaches trivial fun o ho => by cases ho
      · exact forall_reaches trivial fun o ho => by cases ho
    · exact forall_reaches trivial fun o ho => by cases ho
    · exact forall_reaches trivial fun o ho => by cases ho
  have hgives : Gives ctx env joinedTemplate (.single (.text "/p/ab")) := rfl
  exact ⟨hnames, hregular, hgives, runs_of_gives hnames hregular hgives⟩

end ModuleAssets.Language
