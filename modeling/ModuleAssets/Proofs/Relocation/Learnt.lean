import ModuleAssets.Proofs.Relocation.Flow
import ModuleAssets.Proofs.Relocation.Steps
/-!
# Control flow — what a walk learns of names

A walk visits the parts of a module in the order of the text, and its
environment changes where a name is written. The lemmas here say how, node by
node: expressions and patterns leave it as it is, a block enters its scope and
leaves it, branches and loops pass it on from part to part, and a node that
writes to names learns what `effects?` tells. So a walk, like a run, changes no
more names than `writes` tells of its tree.
-/

namespace ModuleAssets.Flow

open Syntax Syntax.Tree Walk

section

variable (w : WalkSetting)

/-- The state after a part has been visited. -/
def past (t : Tree) (s : WalkState) : WalkState :=
  ((settle w (walk w .value t)).run s).2

/-- The state after some parts have been visited. -/
def pastAll (ts : List Tree) (s : WalkState) : WalkState :=
  ((visitAll w ts).run s).2

end

variable {w : WalkSetting}

theorem pastAll_cons (t : Tree) (rest : List Tree) (s : WalkState) :
    pastAll w (t :: rest) s = pastAll w rest (past w t s) := rfl

theorem pastAll_append (ts rest : List Tree) (s : WalkState) :
    pastAll w (ts ++ rest) s = pastAll w rest (pastAll w ts s) := by
  induction ts generalizing s with
  | nil => rfl
  | cons t ts ih => rw [List.cons_append, pastAll_cons, pastAll_cons, ih]

theorem run_bind {α β : Type} (step : Walk α) (next : α → Walk β) (s : WalkState) :
    ((step >>= next).run s).2 = ((next (step.run s).1).run (step.run s).2).2 := rfl

/-- The growth of a candidate ends without effect on names. -/
theorem env_settle (step : Walk (Option Candidate)) (s : WalkState) :
    ((settle w step).run s).2.env = (step.run s).2.env := by
  rw [settle, run_bind]
  split
  · rfl
  · rfl

theorem env_past (t : Tree) (s : WalkState) :
    (past w t s).env = ((walk w .value t).run s).2.env :=
  env_settle _ _

/-! ## Nodes that only pass names on -/

theorem past_parts {kind : Kind}
    (hkind : role kind = .list ∨ role kind = .branch ∨ role kind = .loop) (span : Span)
    (parts : List Tree) (s : WalkState) :
    past w (node kind span parts) s = pastAll w parts s := by
  cases kind with
  | program | expressionStatement | declarations | empty | sequence | if_ | while_ | doWhile
  | for_ | forEach => rfl
  | _ => simp [role] at hkind

theorem env_past_block (span : Span) (parts : List Tree) (s : WalkState) :
    (past w (node .block span parts) s).env =
      outside w span (pastAll w parts { s with env := inside w span s.env }).env := by
  rw [env_past]
  show ((withScope w .block span (visitAll w parts)).run s).2.env = _
  rw [withScope, inside, outside]
  cases w.scopes.lookup .block span with
  | none => rfl
  | some scope => rfl

theorem allows_env (c : Course w) : Allows c (fun s s' => s'.env = s.env) true where
  refl _ := rfl
  trans h h' := h'.trans h
  draft _ _ _ := rfl
  engine _ := rfl
  env h := nomatch h

theorem walked_of_isQuiet {t : Tree} (h : isQuiet t = true) :
    Walked (.within w t) (fun s s' => s'.env = s.env) [] t :=
  walked (allows_env _) t (fun _ => h) (.refl t)

theorem env_past_of_isQuiet {t : Tree} (h : isQuiet t = true) (s : WalkState) :
    (past w t s).env = s.env :=
  (env_past t s).trans ((walked_of_isQuiet h).walk _ s trivial).1

theorem env_visitParts_of_isQuiet {t : Tree} (h : isQuiet t = true) (s : WalkState) :
    ((visitParts w t).run s).2.env = s.env :=
  ((walked_of_isQuiet h).visitParts (fun _ hpart => Contains.part (.refl t) hpart) s trivial).1

theorem not_isLoud {kind : Kind} (h : role kind = .value ∨ role kind = .pattern) :
    isLoud kind = false := by
  cases kind with
  | assign | update | declaration | function | functionDeclaration | arrow | block | catch_ =>
    simp [role] at h
  | _ => rfl

mutual

theorem isQuiet_of_isValue : ∀ {t : Tree}, isValue t = true → isQuiet t = true
  | node kind span parts, h => by
    rw [isValue, Bool.and_eq_true, beq_iff_eq] at h
    rw [isQuiet, not_isLoud (.inl h.1), isQuietIn_of_isValueIn h.2]
    rfl

theorem isQuietIn_of_isValueIn : ∀ {ts : List Tree}, isValueIn ts = true → isQuietIn ts = true
  | [], _ => rfl
  | t :: rest, h => by
    rw [isValueIn, Bool.and_eq_true] at h
    rw [isQuietIn, isQuiet_of_isValue h.1, isQuietIn_of_isValueIn h.2]
    rfl

end

/-- A pattern is made of patterns. -/
theorem isPattern_node {kind : Kind} {span : Span} {parts : List Tree}
    (h : isPattern (node kind span parts) = true) :
    (role kind = .value ∨ role kind = .pattern) ∧ isPatternIn parts = true := by
  have hcons (inner : Tree) : isPatternIn [inner] = isPattern inner := by
    rw [isPatternIn, isPatternIn, Bool.and_true]
  unfold isPattern at h
  split at h
  · rename_i heq
    obtain ⟨rfl, rfl, rfl⟩ := node.inj heq
    exact ⟨.inr rfl, rfl⟩
  · rename_i heq
    obtain ⟨rfl, rfl, rfl⟩ := node.inj heq
    exact ⟨.inl rfl, rfl⟩
  · rename_i heq
    obtain ⟨rfl, rfl, rfl⟩ := node.inj heq
    exact ⟨.inr rfl, h⟩
  · rename_i heq
    obtain ⟨rfl, rfl, rfl⟩ := node.inj heq
    exact ⟨.inr rfl, h⟩
  · rename_i heq
    obtain ⟨rfl, rfl, rfl⟩ := node.inj heq
    rw [Bool.and_eq_true] at h
    exact ⟨.inr rfl, (hcons _).trans h.2⟩
  · rename_i heq
    obtain ⟨rfl, rfl, rfl⟩ := node.inj heq
    exact ⟨.inr rfl, rfl⟩
  · rename_i heq
    obtain ⟨rfl, rfl, rfl⟩ := node.inj heq
    exact ⟨.inr rfl, (hcons _).trans h⟩
  · exact absurd h Bool.false_ne_true

mutual

theorem isQuiet_of_isPattern : ∀ {t : Tree}, isPattern t = true → isQuiet t = true
  | node kind span parts, h => by
    obtain ⟨hkind, hparts⟩ := isPattern_node h
    rw [isQuiet, not_isLoud hkind, isQuietIn_of_isPatternIn hparts]
    rfl

theorem isQuietIn_of_isPatternIn : ∀ {ts : List Tree}, isPatternIn ts = true → isQuietIn ts = true
  | [], _ => rfl
  | t :: rest, h => by
    rw [isPatternIn, Bool.and_eq_true] at h
    rw [isQuietIn, isQuiet_of_isPattern h.1, isQuietIn_of_isPatternIn h.2]
    rfl

end

/-! ## Names that are written -/

theorem run_assign (name : String) (known : Option Value) (s : WalkState) :
    ((assign name known).run s).2 = { s with env := s.env.learn name known } := by
  cases known <;> rfl

theorem learnAll_unknown (names : List String) (env : Environment) :
    env.learnAll (unknown names) = names.foldl Environment.invalidate env := by
  rw [Environment.learnAll, unknown, List.foldl_map]
  rfl

theorem run_invalidateAll (names : List String) (s : WalkState) :
    ((invalidateAll names).run s).2 = { s with env := s.env.learnAll (unknown names) } := by
  rw [learnAll_unknown]
  rfl

theorem isPattern_propertyPattern {key : Key} {span : Span} {parts : List Tree}
    (h : isPattern (node (.propertyPattern key) span parts) = true) :
    ∃ inner, parts = [inner] ∧ isFixedKey key = true := by
  match parts with
  | [inner] =>
    rw [isPattern, Bool.and_eq_true] at h
    exact ⟨inner, rfl, h.1⟩
  | [] | _ :: _ :: _ => simp [isPattern] at h

theorem boundNames_propertyPattern {key : Key} (hkey : isFixedKey key = true) (span : Span)
    (inner : Tree) : boundNames (node (.propertyPattern key) span [inner]) = inner.boundNames := by
  cases key with
  | computed => cases hkey
  | _ => simp [boundNames, boundNamesIn]

theorem run_assignMember (member? : String → Option Value) {t : Tree} (ht : isPattern t = true)
    (s : WalkState) : ((assignMember member? t).run s).2 =
      { s with env := s.env.learnAll (giveMember member? t) } := by
  unfold giveMember
  split
  · exact run_assign _ _ s
  · exact run_assign _ _ s
  · exact run_assign _ _ s
  · rename_i hname htext hshort
    rw [← run_invalidateAll]
    unfold assignMember
    split
    · rename_i key span parts
      obtain ⟨inner, rfl, hkey⟩ := isPattern_propertyPattern ht
      rw [boundNames_propertyPattern hkey]
      obtain ⟨kind, place, below⟩ := inner
      dsimp only [List.getLast?_singleton, Option.getD_some, Tree.kind]
      split
      · split
        · exact (hname _ _ _ _ _ rfl).elim
        · rfl
      · split
        · exact (htext _ _ _ _ _ rfl).elim
        · rfl
      · cases hkey
      · rfl
    · rename_i name span
      exact absurd rfl (hshort name span)
    · rfl

theorem run_assignMembers (member? : String → Option Value) {ts : List Tree}
    (hts : isPatternIn ts = true) (s : WalkState) : ((assignMembers member? ts).run s).2 =
      { s with env := s.env.learnAll (ts.flatMap (giveMember member?)) } := by
  induction ts generalizing s with
  | nil => rfl
  | cons t rest ih =>
    rw [isPatternIn, Bool.and_eq_true] at hts
    show ((assignMembers member? rest).run ((assignMember member? t).run s).2).2 = _
    rw [run_assignMember member? hts.1, ih hts.2, List.flatMap_cons, Environment.learnAll,
      Environment.learnAll, Environment.learnAll, List.foldl_append]

/-- Where nothing is known of a member, its names get something unknown. -/
theorem giveMember_none {t : Tree} :
    giveMember (fun _ => none) t = unknown t.boundNames := by
  unfold giveMember
  split
  · simp [boundNames, boundNamesIn, unknown]
  · simp [boundNames, boundNamesIn, unknown]
  · simp [boundNames, unknown]
  · rfl

theorem flatMap_giveMember_none (ts : List Tree) :
    ts.flatMap (giveMember fun _ => none) = unknown (boundNamesIn ts) := by
  induction ts with
  | nil => rfl
  | cons t rest ih =>
    rw [List.flatMap_cons, giveMember_none, ih, boundNamesIn, unknown, unknown, unknown,
      List.map_append]

theorem run_assignModule (m : KnownModule) {pattern : Tree} (hpattern : isPattern pattern = true)
    (s : WalkState) : ((assignModule m pattern).run s).2 =
      { s with env := s.env.learnAll (Given.give ⟨m.defaultExport, m.export?⟩ pattern) } := by
  unfold assignModule
  split
  · exact run_assign _ _ s
  · exact run_assignMembers _ (isPattern_node hpattern).2 s
  · rename_i hbinding hobject
    rw [run_invalidateAll, Given.give]
    · exact hbinding
    · exact hobject

theorem env_past_defined (span : Span) {pattern value : Tree} (hpattern : isPattern pattern = true)
    (hvalue : isValue value = true) (s : WalkState) :
    (past w (node .declaration span [pattern, value]) s).env =
      s.env.learnAll ((given w s.env value).give pattern) := by
  have hvisit (s : WalkState) : (past w value s).env = s.env :=
    env_past_of_isQuiet (isQuiet_of_isValue hvalue) s
  have hbound (s : WalkState) : ((visitParts w pattern).run s).2.env = s.env :=
    env_visitParts_of_isQuiet (isQuiet_of_isPattern hpattern) s
  rw [env_past, walk, run_bind, given]
  split
  · rename_i m hm
    have hloaded : Loader.requiredModule? w.grammar s.env value = some m := hm
    rw [hloaded]
    show ((assignModule m pattern).run s).2.env = _
    rw [run_assignModule m hpattern]
  · rename_i hm
    have hloaded : Loader.requiredModule? w.grammar s.env value = none := hm
    rw [hloaded]
    dsimp only
    obtain ⟨kind, place, parts⟩ := pattern
    split
    · rename_i name hkind
      obtain rfl : kind = .binding name := hkind
      show ((assign name _).run (past w value s)).2.env = _
      rw [run_assign, hvisit]
      rfl
    · rename_i hkind
      obtain rfl : kind = .objectPattern := hkind
      rw [run_bind, run_bind]
      split
      · rename_i members hobject
        have hobject' : (value.evaluate w.ctx s.env).single.value = some (.object members) :=
          hobject
        show ((visitParts w (node .objectPattern place parts)).run
          ((assignMembers (Value.object members).member? parts).run (past w value s)).2).2.env = _
        rw [hbound, run_assignMembers _ (isPattern_node hpattern).2, hvisit, hobject']
        rfl
      · rename_i hobject
        have hmember : memberOf? (value.evaluate w.ctx s.env).single.value = fun _ => none := by
          funext key
          unfold memberOf?
          split
          · rename_i members heq
            exact (hobject members heq).elim
          · rfl
        show ((visitParts w (node .objectPattern place parts)).run
          ((invalidateAll (boundNames (node .objectPattern place parts))).run
            (past w value s)).2).2.env = _
        rw [hbound, run_invalidateAll, hvisit, hmember, Given.give, flatMap_giveMember_none,
          boundNames]
    · rename_i hbinding hobject
      show (past w value ((visitParts w (node kind place parts)).run
        ((invalidateAll (node kind place parts).boundNames).run s).2).2).env = _
      rw [hvisit, hbound, run_invalidateAll, Given.give]
      · rintro name span parts' heq
        exact hbinding name (congrArg Tree.kind heq)
      · rintro span members heq
        exact hobject (congrArg Tree.kind heq)

/-- A target is a single name, or a pattern all of whose names are assigned. -/
theorem isTarget_cases {t : Tree} (h : isTarget t = true) : isPattern t = true ∧
    ((∃ name span, t = node (.binding name) span [] ∧ name ≠ Environment.loaderName) ∨
      assignedNames t = t.boundNames ∧ ∀ name, t.kind ≠ .binding name) := by
  obtain ⟨kind, span, parts⟩ := t
  unfold isTarget at h
  split at h
  · rename_i name hkind
    obtain rfl : kind = .binding name := hkind
    cases parts with
    | nil => exact ⟨h, .inl ⟨name, span, rfl, by simpa [isPattern] using h⟩⟩
    | cons => simp [isPattern] at h
  · rename_i hkind
    obtain rfl : kind = .arrayPattern := hkind
    exact ⟨h, .inr ⟨rfl, fun _ => nofun⟩⟩
  · rename_i hkind
    obtain rfl : kind = .objectPattern := hkind
    exact ⟨h, .inr ⟨rfl, fun _ => nofun⟩⟩
  · exact absurd h Bool.false_ne_true

theorem env_past_assigned (op : Option BinaryOp) (span : Span) {target value : Tree}
    (htarget : isTarget target = true) (hvalue : isValue value = true) (s : WalkState)
    {known : List (String × Option Value)}
    (h : effects? w s.env (node (.assign op) span [target, value]) = some known) :
    (past w (node (.assign op) span [target, value]) s).env = s.env.learnAll known := by
  have hvisit (s : WalkState) : (past w value s).env = s.env :=
    env_past_of_isQuiet (isQuiet_of_isValue hvalue) s
  obtain ⟨hpattern, ⟨name, place, rfl, hname⟩ | ⟨hnames, hkind⟩⟩ := isTarget_cases htarget
  · cases op with
    | none =>
      obtain rfl : _ = known := Option.some.inj h
      rw [env_past, walk]
      · rw [if_neg hname, run_bind, given]
        split
        · rename_i m hm
          have hloaded : Loader.requiredModule? w.grammar s.env value = some m := hm
          rw [hloaded]
          show ((assign name m.defaultExport).run s).2.env = _
          rw [run_assign]
          rfl
        · rename_i hm
          have hloaded : Loader.requiredModule? w.grammar s.env value = none := hm
          rw [hloaded]
          show ((assign name _).run (past w value s)).2.env = _
          rw [run_assign, hvisit]
          rfl
      · rfl
    | some op =>
      obtain rfl : _ = known := Option.some.inj h
      rw [env_past, walk]
      · show (past w value { s with env := s.env.invalidate name }).env = _
        rw [hvisit]
        rfl
      · rfl
  · have hbound (s : WalkState) : ((visitParts w target).run s).2.env = s.env :=
      env_visitParts_of_isQuiet (isQuiet_of_isPattern hpattern) s
    have hknown : effects? w s.env (node (.assign op) span [target, value]) =
        some (unknown target.boundNames) := by
      cases op with
      | none =>
        rw [effects?]
        rintro name place parts - rfl
        exact hkind name rfl
      | some op => rfl
    obtain rfl : _ = known := Option.some.inj (hknown.symm.trans h)
    rw [env_past, walk]
    · show (past w value ((visitParts w target).run
        ((invalidateAll (assignedNames target)).run s).2).2).env = _
      rw [hvisit, hbound, run_invalidateAll, hnames]
    · exact fun name heq => absurd heq (hkind name)
    · exact fun name _ heq => absurd heq (hkind name)

theorem env_past_updated (span place : Span) (name : String) (s : WalkState) :
    (past w (node .update span [node (.identifier name) place []]) s).env =
      s.env.learn name none := by
  rw [env_past]
  rfl

/-- A declaration without a value is passed over. -/
theorem env_past_declared (span : Span) {pattern : Tree} (hpattern : isPattern pattern = true)
    (s : WalkState) : (past w (node .declaration span [pattern]) s).env = s.env := by
  rw [env_past]
  show (past w pattern s).env = _
  exact env_past_of_isQuiet (isQuiet_of_isPattern hpattern) s

/-! ## What a walk changes -/

theorem changes_pastAll_of_parts {parts : List Tree}
    (h : ∀ part ∈ parts, ∀ s, Environment.Changes (writes w part) s.env (past w part s).env)
    (s : WalkState) : Environment.Changes (writesIn w parts) s.env (pastAll w parts s).env := by
  induction parts generalizing s with
  | nil => exact .refl _ _
  | cons part rest ih =>
    rw [writesIn, pastAll_cons]
    exact ((h part List.mem_cons_self s).mono (List.subset_append_left _ _)).trans
      ((ih (fun t ht => h t (List.mem_cons_of_mem _ ht)) _).mono (List.subset_append_right _ _))

/-- **A walk changes no more names than its tree writes.** -/
theorem changes_past {t : Tree} (ht : Simple t) (s : WalkState) :
    Environment.Changes (writes w t) s.env (past w t s).env := by
  induction ht generalizing s with
  | value ht =>
    rw [env_past_of_isQuiet (isQuiet_of_isValue ht)]
    exact .refl _ _
  | pattern ht =>
    rw [env_past_of_isQuiet (isQuiet_of_isPattern ht)]
    exact .refl _ _
  | declared hpattern =>
    rw [env_past_declared _ hpattern]
    exact .refl _ _
  | @defined span pattern value hpattern hvalue =>
    rw [env_past_defined span hpattern hvalue]
    exact (Environment.Changes.learnAll _ _).mono
      (writes_subset_of_effects? (t := node .declaration span [pattern, value]) rfl)
  | @assigned op span target value htarget hvalue =>
    obtain ⟨known, hknown⟩ := exists_effects?_assigned _ op span target value
    rw [env_past_assigned op span htarget hvalue s hknown]
    exact (Environment.Changes.learnAll _ _).mono (writes_subset_of_effects? hknown)
  | @updated span place name hname =>
    rw [env_past_updated, writes]
    exact .learn _ _ _
  | list hkind _ ih =>
    rw [past_parts (.inl hkind)]
    exact (changes_pastAll_of_parts ih s).mono (writesIn_subset_writes _ _ _ (.inl hkind))
  | block _ ih =>
    rw [env_past_block, writes]
    exact inside_changes (changes_pastAll_of_parts ih { s with env := inside w _ s.env })
  | branch _ _ _ ihtest ihyes ihno =>
    have hkind : role .if_ = .list ∨ role .if_ = .branch ∨ role .if_ = .loop := .inr (.inl rfl)
    rw [past_parts hkind]
    refine (changes_pastAll_of_parts ?_ s).mono (writesIn_subset_writes _ _ _ hkind)
    exact List.forall_mem_cons.2 ⟨ihtest, List.forall_mem_cons.2 ⟨ihyes, ihno⟩⟩
  | loop hkind _ ih =>
    rw [past_parts (.inr (.inr hkind))]
    exact (changes_pastAll_of_parts ih s).mono (writesIn_subset_writes _ _ _ (.inr (.inr hkind)))

theorem changes_pastAll {ts : List Tree} (hts : ∀ t ∈ ts, Simple t) (s : WalkState) :
    Environment.Changes (writesIn w ts) s.env (pastAll w ts s).env :=
  changes_pastAll_of_parts (fun t ht => changes_past (hts t ht)) s

end ModuleAssets.Flow
