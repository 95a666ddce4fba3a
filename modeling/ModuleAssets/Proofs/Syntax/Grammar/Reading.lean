import ModuleAssets.Proofs.Syntax.OwnSpans
import ModuleAssets.Proofs.Syntax.Scanned
import ModuleAssets.Syntax.Grammar.State
/-!
# Parsing — steps go on and read trees

A parse goes on in its text: `Goes` says so of a step and tells what holds where it
comes to. Most steps read trees and put them together with trees read before. For
these `Reads` says that the spans of owners stay apart, where the owners read before
are those of given trees. It composes along the steps, so that the rules of the
grammar need no talk of states, except where an owner is made: there it counts that
a token was passed first.
-/

namespace ModuleAssets.Syntax

open ModuleAssets.Syntax.Tree

/-! ## States -/

/-- The token being looked at follows the one before it. -/
def State.Ordered (s : State) : Prop :=
  s.scan.ComesAfter s.lastStop

/-- There was no complaint so far. -/
def State.Quiet (s : State) : Prop :=
  s.complaint = none

/-- The second state is as far as the first, or further. No complaint is taken back. -/
structure State.Past (s s' : State) : Prop where
  ordered : s'.Ordered
  lastStop_le : s.lastStop ≤ s'.lastStop
  start_le : s.scan.start ≤ s'.scan.start
  quiet : s'.Quiet → s.Quiet

theorem State.Past.refl {s : State} (h : s.Ordered) : s.Past s :=
  ⟨h, Nat.le_refl _, Nat.le_refl _, id⟩

theorem State.Past.trans {s s' s'' : State} (h : s.Past s') (h' : s'.Past s'') : s.Past s'' :=
  ⟨h'.ordered, Nat.le_trans h.lastStop_le h'.lastStop_le, Nat.le_trans h.start_le h'.start_le,
    fun hquiet => h.quiet (h'.quiet hquiet)⟩

theorem State.Ordered.lastStop_le_start {s : State} (h : s.Ordered) : s.lastStop ≤ s.scan.start :=
  h.le_start

/-- What was read keeps its spans when it goes on. -/
theorem Tree.OwnSpans.past {lo : Nat} {ts : List Tree} {s s' : State}
    (h : OwnSpans s.Quiet lo s.lastStop ts) (hpast : s.Past s') :
    OwnSpans s'.Quiet lo s'.lastStop ts :=
  (h.upTo hpast.lastStop_le).weaken hpast.quiet

namespace Parse

/-- From the state a step goes on, whatever surrounds it, and if it does not fail, what
is said holds of its answer and of the state it comes to. -/
def Goes {α : Type} (s : State) (p : Parse α) (Q : α → State → Prop) : Prop :=
  ∀ c : Context, 0 < c.budget → s.Ordered →
    s.Past ((p.run c).run.run s).2 ∧
      ∀ a, ((p.run c).run.run s).1 = .ok a → Q a ((p.run c).run.run s).2

/-- A step that may go on and reads no tree that is kept. -/
def Moves {α : Type} (p : Parse α) : Prop :=
  ∀ s, Goes s p fun _ _ => True

/-- A step that changes nothing and does not fail. -/
def Asks {α : Type} (p : Parse α) : Prop :=
  ∀ c s, ∃ a, (p.run c).run.run s = (.ok a, s)

/-- With the owners of the trees `us` read before, the owners of the trees `g a` have
spans of their own after the step. -/
def Reads {α : Type} (us : List Tree) (g : α → List Tree) (p : Parse α) : Prop :=
  ∀ lo s, OwnSpans s.Quiet lo s.lastStop us → Goes s p fun a s' => OwnSpans s'.Quiet lo s'.lastStop (g a)

section

variable {α β : Type} {s : State} {p : Parse α} {f : α → Parse β} {Q : α → State → Prop}
  {Q' : β → State → Prop} {us vs : List Tree} {g : α → List Tree} {g' : β → List Tree}

/-! ## Going on -/

theorem run_bind (p : Parse α) (f : α → Parse β) (c : Context) (s : State) :
    ((p >>= f).run c).run.run s =
      match (p.run c).run.run s with
      | (.ok a, s') => ((f a).run c).run.run s'
      | (.error e, s') => (.error e, s') := by
  rw [ReaderT.run_bind, ExceptT.run_bind, StateT.run_bind]
  change (match (p.run c).run.run s with | (r, s') => _) = _
  obtain ⟨r, s'⟩ := (p.run c).run.run s
  cases r <;> rfl

theorem goes_pure {a : α} (h : s.Ordered → Q a s) : Goes s (pure a) Q := by
  intro c _ hs
  refine ⟨.refl hs, fun b hb => ?_⟩
  obtain rfl : a = b := Except.ok.inj hb
  exact h hs

theorem goes_bind (hp : Goes s p Q) (hf : ∀ a s', s.Past s' → Q a s' → Goes s' (f a) Q') :
    Goes s (p >>= f) Q' := by
  intro c hc hs
  obtain ⟨hpast, hok⟩ := hp c hc hs
  rw [run_bind]
  revert hpast hok
  obtain ⟨r, s'⟩ := (p.run c).run.run s
  intro hpast hok
  cases r with
  | error e => exact ⟨hpast, fun b hb => by cases hb⟩
  | ok a =>
    obtain ⟨hpast', hok'⟩ := hf a s' hpast (hok a rfl) c hc hpast.ordered
    exact ⟨hpast.trans hpast', hok'⟩

theorem Goes.mono {Q'' : α → State → Prop} (h : Goes s p Q)
    (hQ : ∀ a s', s.Past s' → Q a s' → Q'' a s') : Goes s p Q'' := by
  intro c hc hs
  obtain ⟨hpast, hok⟩ := h c hc hs
  exact ⟨hpast, fun a ha => hQ a _ hpast (hok a ha)⟩

theorem Goes.and {Q'' : α → State → Prop} (h : Goes s p Q) (h' : Goes s p Q'') :
    Goes s p fun a s' => Q a s' ∧ Q'' a s' :=
  fun c hc hs => ⟨(h c hc hs).1, fun a ha => ⟨(h c hc hs).2 a ha, (h' c hc hs).2 a ha⟩⟩

theorem goes_ask (hp : Asks p) (hf : ∀ a, Goes s (f a) Q') : Goes s (p >>= f) Q' := by
  intro c hc hs
  obtain ⟨a, ha⟩ := hp c s
  rw [run_bind, ha]
  exact hf a c hc hs

/-- A step may rely on the order of the state it starts from. -/
theorem goes_ordered (h : s.Ordered → Goes s p Q) : Goes s p Q :=
  fun c hc hs => h hs c hc hs

theorem goes_throw {e : SyntaxError} : Goes s (throw e) Q :=
  fun _ _ hs => ⟨.refl hs, fun _ ha => by cases ha⟩

theorem run_recovering (p : Parse α) (handle : SyntaxError → Parse α) (c : Context) (s : State) :
    ((recovering p handle).run c).run.run s =
      match (p.run c).run.run s with
      | (.ok a, s') => (.ok a, s')
      | (.error e, s') =>
        if e.abandons then (.error e, s') else ((handle e).run c).run.run s' := by
  change (ExceptT.run (tryCatch (p.run c) fun e =>
    (if e.abandons then throw e else handle e : Parse α).run c)).run s = _
  rw [ExceptT.run_tryCatch, StateT.run_bind]
  change (match (p.run c).run.run s with | (r, s') => _) = _
  obtain ⟨r, s'⟩ := (p.run c).run.run s
  cases r with
  | ok a => rfl
  | error e =>
    change ((if e.abandons then throw e else handle e : Parse α).run c).run.run s' =
      if e.abandons then (.error e, s') else ((handle e).run c).run.run s'
    split <;> rfl

theorem goes_recovering {handle : SyntaxError → Parse α} (hp : Goes s p Q)
    (hhandle : ∀ e s', s.Past s' → Goes s' (handle e) Q) : Goes s (recovering p handle) Q := by
  intro c hc hs
  obtain ⟨hpast, hok⟩ := hp c hc hs
  rw [run_recovering]
  revert hpast hok
  obtain ⟨r, s'⟩ := (p.run c).run.run s
  intro hpast hok
  cases r with
  | ok a => exact ⟨hpast, hok⟩
  | error e =>
    dsimp only
    split
    · exact ⟨hpast, fun _ ha => by cases ha⟩
    · obtain ⟨hpast', hok'⟩ := hhandle e s' hpast c hc hpast.ordered
      exact ⟨hpast.trans hpast', hok'⟩

theorem goes_within {change : Context → Context} (hchange : ∀ c, (change c).budget = c.budget)
    (h : Goes s p Q) : Goes s (within change p) Q :=
  fun c hc hs => h (change c) (hchange c ▸ hc) hs

theorem goes_map {h : α → β} (hp : Goes s p fun a s' => Q' (h a) s') : Goes s (h <$> p) Q' := by
  rw [map_eq_pure_bind]
  exact goes_bind hp fun a s' _ ha => goes_pure fun _ => ha

theorem Moves.goes (h : Moves p) (hf : ∀ a s', s.Past s' → Goes s' (f a) Q') :
    Goes s (p >>= f) Q' :=
  goes_bind (h s) fun a s' hpast _ => hf a s' hpast

/-! ## Moving -/

@[simp]
theorem moves_pure {a : α} : Moves (pure a : Parse α) :=
  fun _ => goes_pure fun _ => trivial

@[simp]
theorem moves_bind (hp : Moves p) (hf : ∀ a, Moves (f a)) : Moves (p >>= f) :=
  fun _ => hp.goes fun a s' _ => hf a s'

@[simp]
theorem moves_map {h : α → β} (hp : Moves p) : Moves (h <$> p) :=
  fun s => goes_map (hp s)

@[simp]
theorem moves_ite {c : Prop} [Decidable c] {q : Parse α} (hp : Moves p) (hq : Moves q) :
    Moves (if c then p else q) := by
  split
  · exact hp
  · exact hq

/-- Something is done on a condition, and then it goes on in any case. -/
theorem moves_when {c : Prop} [Decidable c] (hp : Moves p) (hf : ∀ a, Moves (f a)) (a : α) :
    Moves (if c then p >>= f else f a) := by
  split
  · exact moves_bind hp hf
  · exact hf a

theorem moves_unless {c : Prop} [Decidable c] (hp : Moves p) (hf : ∀ a, Moves (f a)) (a : α) :
    Moves (if c then f a else p >>= f) := by
  split
  · exact hf a
  · exact moves_bind hp hf

@[simp]
theorem moves_throw {e : SyntaxError} : Moves (throw e : Parse α) :=
  fun _ => goes_throw

theorem moves_within {change : Context → Context} (hchange : ∀ c, (change c).budget = c.budget)
    (h : Moves p) : Moves (within change p) :=
  fun s => goes_within hchange (h s)

theorem moves_recovering {handle : SyntaxError → Parse α} (hp : Moves p)
    (hhandle : ∀ e, Moves (handle e)) : Moves (recovering p handle) :=
  fun s => goes_recovering (hp s) fun e s' _ => hhandle e s'

@[simp]
theorem Asks.moves (h : Asks p) : Moves p := by
  intro s c _ hs
  obtain ⟨a, ha⟩ := h c s
  rw [ha]
  exact ⟨.refl hs, fun _ _ => trivial⟩

@[simp]
theorem moves_forIn {γ : Type} (xs : List γ) {step : γ → PUnit → Parse (ForInStep PUnit)}
    (h : ∀ x u, Moves (step x u)) (u : PUnit) : Moves (forIn xs u step) := by
  induction xs generalizing u with
  | nil => exact moves_pure
  | cons x xs ih =>
    rw [List.forIn_cons]
    refine moves_bind (h x u) fun r => ?_
    cases r with
    | done u => exact moves_pure
    | yield u => exact ih u

/-! ## Reading -/

theorem Reads.of_draws (h : Reads us g p) (hdraws : DrawsFrom us vs) : Reads vs g p :=
  fun lo s hvs => h lo s (hvs.of_draws hdraws)

theorem reads_pure {a : α} (hdraws : DrawsFrom (g a) us) : Reads us g (pure a) :=
  fun _ _ hus => goes_pure fun _ => hus.of_draws hdraws

/-- What comes first is read, and what comes next goes on from it. -/
theorem reads_bind (hp : Reads us g p) (hf : ∀ a, Reads (g a) g' (f a)) : Reads us g' (p >>= f) :=
  fun lo _ hus => goes_bind (hp lo _ hus) fun a s' _ ha => hf a lo s' ha

/-- Trees that are read on their own come after those read before. -/
theorem Reads.after (h : Reads [] g p) (us : List Tree) : Reads us (fun a => us ++ g a) p :=
  fun _ s hus => (h s.lastStop s (.nil (Nat.le_refl _))).mono fun _ _ hpast ha =>
    (hus.weaken hpast.quiet).append ha

theorem reads_then (hp : Reads [] g p) (hf : ∀ a, Reads (us ++ g a) g' (f a)) :
    Reads us g' (p >>= f) :=
  reads_bind (hp.after us) hf

theorem reads_move (hp : Moves p) (hf : ∀ a, Reads us g' (f a)) : Reads us g' (p >>= f) :=
  fun lo _ hus => hp.goes fun a s' hpast => hf a lo s' (hus.past hpast)

theorem reads_ask (hp : Asks p) (hf : ∀ a, Reads us g' (f a)) : Reads us g' (p >>= f) :=
  reads_move hp.moves hf

theorem reads_ite {c : Prop} [Decidable c] {q : Parse α} (hp : Reads us g p) (hq : Reads us g q) :
    Reads us g (if c then p else q) := by
  split
  · exact hp
  · exact hq

theorem reads_when {c : Prop} [Decidable c] (hp : Moves p) (hf : ∀ a, Reads us g' (f a)) (a : α) :
    Reads us g' (if c then p >>= f else f a) := by
  split
  · exact reads_move hp hf
  · exact hf a

theorem reads_unless {c : Prop} [Decidable c] (hp : Moves p) (hf : ∀ a, Reads us g' (f a)) (a : α) :
    Reads us g' (if c then f a else p >>= f) := by
  split
  · exact hf a
  · exact reads_move hp hf

theorem reads_within {change : Context → Context} (hchange : ∀ c, (change c).budget = c.budget)
    (h : Reads us g p) : Reads us g (within change p) :=
  fun lo s hus => goes_within hchange (h lo s hus)

theorem reads_map {h : α → β} (hp : Reads us (fun a => g' (h a)) p) : Reads us g' (h <$> p) :=
  fun lo s hus => goes_map (hp lo s hus)

theorem reads_recovering {handle : SyntaxError → Parse α} (hp : Reads us g p)
    (hhandle : ∀ e, Reads us g (handle e)) : Reads us g (recovering p handle) :=
  fun lo s hus => goes_recovering (hp lo s hus) fun e s' hpast =>
    hhandle e lo s' (hus.past hpast)

end

/-! ## Asking -/

section

variable {α β : Type} {p : Parse α} {f : α → Parse β}

theorem asks_pure {a : α} : Asks (pure a : Parse α) :=
  fun _ _ => ⟨a, rfl⟩

theorem asks_bind (hp : Asks p) (hf : ∀ a, Asks (f a)) : Asks (p >>= f) := by
  intro c s
  obtain ⟨a, ha⟩ := hp c s
  rw [run_bind, ha]
  exact hf a c s

@[simp] theorem asks_token : Asks token := fun _ _ => ⟨_, rfl⟩
@[simp] theorem asks_start : Asks start := fun _ _ => ⟨_, rfl⟩
@[simp] theorem asks_lastStop : Asks lastStop := fun _ _ => ⟨_, rfl⟩
@[simp] theorem asks_newline : Asks newline := fun _ _ => ⟨_, rfl⟩
@[simp] theorem asks_read : Asks (read : Parse Context) := fun _ _ => ⟨_, rfl⟩
@[simp] theorem asks_get : Asks (get : Parse State) := fun _ _ => ⟨_, rfl⟩
@[simp] theorem asks_look (c : Cursor) : Asks (look c) := fun _ _ => ⟨_, rfl⟩
@[simp] theorem asks_following : Asks following := fun _ _ => ⟨_, rfl⟩
@[simp] theorem asks_isMark (text : String) : Asks (isMark text) := fun _ _ => ⟨_, rfl⟩
@[simp] theorem asks_isWord (name : String) : Asks (isWord name) := fun _ _ => ⟨_, rfl⟩
@[simp] theorem asks_isName : Asks isName := fun _ _ => ⟨_, rfl⟩

@[simp]
theorem asks_canEndStatement : Asks canEndStatement := by
  refine asks_bind asks_token fun t => ?_
  split
  · exact asks_pure
  · exact asks_bind asks_newline fun _ => asks_pure
  · exact asks_newline

end

/-! ## Passing tokens -/

section

variable {α β : Type} {s : State} {p : Parse α} {f : α → Parse β} {Q : α → State → Prop}
  {Q' : β → State → Prop} {us : List Tree} {g : α → List Tree}

/-- A step that does not succeed. -/
def Fails (p : Parse α) : Prop :=
  ∀ s, Goes s p fun _ _ => False

/-- A step that passes the token being looked at, unless it fails. -/
def Takes (p : Parse α) : Prop :=
  ∀ s, Goes s p fun _ s' => s.scan.start < s'.lastStop

theorem Fails.goes (h : Fails p) : Goes s p Q :=
  (h s).mono fun _ _ _ hfalse => hfalse.elim

@[simp]
theorem Fails.moves (h : Fails p) : Moves p :=
  fun _ => h.goes

theorem Fails.reads (h : Fails p) : Reads us g p :=
  fun _ _ _ => h.goes

@[simp]
theorem Takes.moves (h : Takes p) : Moves p :=
  fun s => (h s).mono fun _ _ _ _ => trivial

theorem Fails.bind (h : Fails p) : Fails (p >>= f) :=
  fun s => goes_bind (h s) fun _ _ _ hfalse => hfalse.elim

theorem fails_of_moves (hp : Moves p) (hf : ∀ a, Fails (f a)) : Fails (p >>= f) :=
  fun _ => hp.goes fun a s' _ => hf a s'

theorem takes_of_moves (hp : Takes p) (hf : ∀ a, Moves (f a)) : Takes (p >>= f) :=
  fun s => goes_bind (hp s) fun a s' _ hlt => (hf a s').mono fun _ _ hpast _ =>
    Nat.lt_of_lt_of_le hlt hpast.lastStop_le

theorem takes_of_asks (hp : Asks p) (hf : ∀ a, Takes (f a)) : Takes (p >>= f) :=
  fun s => goes_ask hp fun a => hf a s

/-- A step that succeeds and stays where it is in the text. -/
def Rests (p : Parse α) : Prop :=
  ∀ c s, ∃ a s', (p.run c).run.run s = (.ok a, s') ∧ s'.scan = s.scan ∧ s'.lastStop = s.lastStop ∧
    (s'.Quiet → s.Quiet)

theorem rests_bind (hp : Rests p) (hf : ∀ a, Rests (f a)) : Rests (p >>= f) := by
  intro c s
  obtain ⟨a, s', ha, hscan, hstop, hquiet⟩ := hp c s
  obtain ⟨b, s'', hb, hscan', hstop', hquiet'⟩ := hf a c s'
  refine ⟨b, s'', ?_, hscan'.trans hscan, hstop'.trans hstop, fun h => hquiet (hquiet' h)⟩
  rw [run_bind, ha]
  exact hb

theorem rests_pure {a : α} : Rests (pure a : Parse α) :=
  fun _ s => ⟨a, s, rfl, rfl, rfl, id⟩

theorem Asks.rests (h : Asks p) : Rests p := by
  intro c s
  obtain ⟨a, ha⟩ := h c s
  exact ⟨a, s, ha, rfl, rfl, id⟩

theorem rests_forIn {γ : Type} (xs : List γ) {step : γ → PUnit → Parse (ForInStep PUnit)}
    (h : ∀ x u, Rests (step x u)) (u : PUnit) : Rests (forIn xs u step) := by
  induction xs generalizing u with
  | nil => exact rests_pure
  | cons x xs ih =>
    rw [List.forIn_cons]
    refine rests_bind (h x u) fun r => ?_
    cases r with
    | done u => exact rests_pure
    | yield u => exact ih u

theorem rests_complain (offset : Nat) : Rests (complain offset) :=
  fun _ _ => ⟨(), _, rfl, rfl, rfl, fun h => (Option.or_eq_none_iff.1 h).1⟩

theorem rests_complainOf (scan : Scan) : Rests (complainOf scan) := by
  refine rests_bind asks_read.rests fun c => ?_
  refine rests_bind (rests_forIn _ (fun x _ => ?_) _) fun _ => rests_pure
  split
  · exact rests_bind (rests_complain _) fun _ => rests_pure
  · exact rests_pure

@[simp]
theorem Rests.moves (h : Rests p) : Moves p := by
  intro s c _ hs
  obtain ⟨a, s', ha, hscan, hstop, hquiet⟩ := h c s
  rw [ha]
  refine ⟨⟨?_, Nat.le_of_eq hstop.symm, Nat.le_of_eq (congrArg Scan.start hscan).symm, hquiet⟩,
    fun _ _ => trivial⟩
  change s'.scan.ComesAfter s'.lastStop
  rw [hscan, hstop]
  exact hs

/-- The token being looked at stays the same. -/
theorem goes_rest (hp : Rests p) (hf : ∀ a s', s.Past s' → s'.scan = s.scan → Goes s' (f a) Q') :
    Goes s (p >>= f) Q' := by
  intro c hc hs
  obtain ⟨a, s', ha, hscan, hstop, -⟩ := hp c s
  have hpast : s.Past s' := by
    have hmoves := (hp.moves s c hc hs).1
    rwa [ha] at hmoves
  obtain ⟨hpast', hok⟩ := hf a s' hpast hscan c hc hpast.ordered
  rw [run_bind, ha]
  exact ⟨hpast.trans hpast', hok⟩

@[simp]
theorem moves_complain (offset : Nat) : Moves (complain offset) :=
  (rests_complain offset).moves

/-- After a complaint all is not quiet. -/
theorem goes_complain (offset : Nat) : Goes s (complain offset) fun _ s' => ¬ s'.Quiet := by
  intro c hc hs
  refine ⟨(moves_complain offset s c hc hs).1, fun _ _ hquiet => ?_⟩
  exact absurd (Option.or_eq_none_iff.1 hquiet).2 (Option.some_ne_none _)

@[simp]
theorem moves_noteTrailing (offset comma : Nat) : Moves (noteTrailing offset comma) :=
  Rests.moves fun _ _ => ⟨(), _, rfl, rfl, rfl, id⟩

/-- A word may be no token here, but the end of the text stays what it is. -/
theorem comesAfter_settle {scan : Scan} {offset : Nat} (h : scan.ComesAfter offset) (c : Context) :
    { scan with token := scan.token.settle scan.start c }.ComesAfter offset := by
  refine ⟨h.le_start, h.start_le, h.here_le, fun hne => h.here_lt fun heq => hne ?_⟩
  change scan.token.settle scan.start c = .endOfText
  rw [heq]
  rfl

/-- The token at a place is looked at, and the text before it is done with. -/
theorem goes_moveTo {cursor : Cursor} (h : s.Ordered → s.scan.start ≤ cursor.offset) :
    Goes s (moveTo cursor) fun _ s' => s'.lastStop = cursor.offset := by
  intro c hc hs
  let next := Scan.next c.budget false cursor
  let seen : Scan := { next with token := next.token.settle next.start c }
  have hlook : ((look cursor).run c).run.run s = (.ok seen, s) := rfl
  obtain ⟨_, s', hrun, -, -, hquiet⟩ := rests_complainOf seen c s
  have hmove : ((moveTo cursor).run c).run.run s =
      (.ok (), { s' with scan := seen, lastStop := cursor.offset }) := by
    rw [moveTo, run_bind, hlook]
    dsimp only
    rw [run_bind, hrun]
    rfl
  have hseen : seen.ComesAfter cursor.offset := comesAfter_settle (Scan.comesAfter_next hc false cursor) c
  have hstart := h hs
  rw [hmove]
  exact ⟨⟨hseen, Nat.le_trans hs.lastStop_le_start hstart, Nat.le_trans hstart hseen.le_start,
    hquiet⟩, fun _ _ => rfl⟩

/-- A token other than the end of the text is passed. -/
theorem goes_advance :
    Goes s advance fun _ s' => s.scan.token ≠ .endOfText → s.scan.start < s'.lastStop := by
  refine goes_ordered fun hs => ?_
  have hmove : Goes s (moveTo s.scan.after) fun _ s' => s'.lastStop = s.scan.after.offset :=
    goes_moveTo fun hs => Nat.le_trans hs.start_le hs.here_le
  intro c hc _
  obtain ⟨hpast, hok⟩ := hmove c hc hs
  exact ⟨hpast, fun a ha hne => hok a ha ▸ Nat.lt_of_le_of_lt hs.start_le (hs.here_lt hne)⟩

@[simp]
theorem moves_advance : Moves advance :=
  fun _ => goes_advance.mono fun _ _ _ _ => trivial

/-! ## Failing -/

@[simp]
theorem fails_fail (offset : Nat) : Fails (fail offset : Parse α) :=
  fun _ => goes_throw

@[simp]
theorem fails_abandon (offset : Nat) : Fails (abandon offset : Parse α) :=
  fun _ => goes_throw

@[simp]
theorem fails_blame (offset : Nat) : Fails (blame offset : Parse α) := by
  refine fails_of_moves (by simp) fun t => ?_
  dsimp only
  split
  · exact fails_of_moves (by simp) fun _ => fails_of_moves (by simp) fun _ => fails_fail _
  · exact fails_fail _

@[simp]
theorem fails_unexpected : Fails (unexpected : Parse α) :=
  fails_of_moves (by simp) fun _ => fails_blame _

@[simp]
theorem fails_unstarted : Fails (unstarted : Parse α) := by
  refine fails_of_moves (by simp) fun t => ?_
  split
  · exact fails_of_moves (by simp) fun _ => fails_fail _
  · exact fails_unexpected

/-! ## Single tokens -/

/-- A step that tells whether it passed the token being looked at. -/
def Eats (p : Parse Bool) : Prop :=
  ∀ s, Goes s p fun b s' => b = true → s.scan.start < s'.lastStop

@[simp]
theorem Eats.moves {p : Parse Bool} (h : Eats p) : Moves p :=
  fun s => (h s).mono fun _ _ _ _ => trivial

theorem goes_token {f : Token → Parse β} (h : Goes s (f s.scan.token) Q') : Goes s (token >>= f) Q' :=
  fun c hc hs => h c hc hs

theorem goes_get {f : State → Parse β} (h : Goes s (f s) Q') : Goes s (get >>= f) Q' :=
  fun c hc hs => h c hc hs

theorem goes_isMark {text : String} {f : Bool → Parse β} (h : Goes s (f (s.scan.token.isMark text)) Q') :
    Goes s (isMark text >>= f) Q' :=
  fun c hc hs => h c hc hs

theorem goes_start {f : Nat → Parse β} (h : s.lastStop ≤ s.scan.start → Goes s (f s.scan.start) Q') :
    Goes s (start >>= f) Q' :=
  fun c hc hs => h hs.lastStop_le_start c hc hs

theorem eats_of_token {p : Parse Bool} (fits : Token → Bool) (hend : fits .endOfText = false)
    (hp : ∀ c s, (p.run c).run.run s = (.ok (fits s.scan.token), s)) :
    Eats (p >>= fun b => if b = true then do advance; return true else return false) := by
  intro s c hc hs
  rw [run_bind, hp]
  cases hfits : fits s.scan.token with
  | false =>
    have hkept : Goes s (pure false) fun b s' => b = true → s.scan.start < s'.lastStop :=
      goes_pure fun _ h => absurd h Bool.false_ne_true
    exact hkept c hc hs
  | true =>
    have hne : s.scan.token ≠ .endOfText := by
      intro heq
      rw [heq, hend] at hfits
      exact Bool.false_ne_true hfits
    have hpassed : Goes s (advance >>= fun _ => pure true) fun b s' =>
        b = true → s.scan.start < s'.lastStop :=
      goes_bind goes_advance fun _ _ _ hlt => goes_pure fun _ _ => hlt hne
    exact hpassed c hc hs

theorem not_isMark_endOfText (text : String) : Token.endOfText.isMark text = false := by
  rfl

@[simp]
theorem eats_eatMark (text : String) : Eats (eatMark text) :=
  eats_of_token (fun t => t.isMark text) (not_isMark_endOfText text) fun _ _ => rfl

@[simp]
theorem eats_eatWord (name : String) : Eats (eatWord name) :=
  eats_of_token (fun t => t.isWord name) rfl fun _ _ => rfl

theorem takes_of_eats {p : Parse Bool} (h : Eats p) :
    Takes (p >>= fun b => if b = true then pure () else unexpected) := by
  intro s
  refine goes_bind (h s) fun b s' _ hlt => ?_
  cases b with
  | false => exact fails_unexpected.goes
  | true => exact goes_pure fun _ => hlt rfl

@[simp]
theorem takes_expectMark (text : String) : Takes (expectMark text) :=
  takes_of_eats (eats_eatMark text)

@[simp]
theorem takes_expectWord (name : String) : Takes (expectWord name) :=
  takes_of_eats (eats_eatWord name)

@[simp]
theorem moves_eatSemicolon : Moves eatSemicolon :=
  moves_bind (by simp) fun _ => by simp

@[simp]
theorem moves_semicolon : Moves semicolon :=
  moves_bind (by simp) fun _ => by simp

/-! ## Names -/

/-- Any word is passed. -/
@[simp]
theorem takes_anyWord : Takes anyWord := by
  intro s
  refine goes_token ?_
  split
  · rename_i heq
    refine goes_bind goes_advance fun _ _ _ hlt => goes_pure fun _ => hlt ?_
    rw [heq]
    exact Token.noConfusion
  · exact fails_unexpected.goes

@[simp]
theorem moves_checkAwait (allowed : Bool) : Moves (checkAwait allowed) :=
  moves_bind (by simp) fun _ => by simp

@[simp]
theorem moves_name (allowYield allowAwait : Bool) : Moves (name allowYield allowAwait) := by
  refine moves_bind (by simp) fun from_ => moves_bind (by simp) fun t => ?_
  split
  · rename_i n spelling
    have hrest : Moves (do
        if n == "arguments" && (← read).inField then complain from_
        advance
        return n) :=
      moves_bind (by simp) fun _ => moves_when (by simp) (fun _ => by simp) ()
    dsimp only
    split
    · exact hrest
    · refine moves_bind (by simp) fun c => moves_when (by simp) (fun _ => ?_) ()
      exact moves_when (by simp) (fun _ => moves_when (by simp) (fun _ => hrest) ()) ()
  · simp

@[simp]
theorem moves_checkBound (name : String) (offset : Nat) : Moves (checkBound name offset) :=
  moves_bind (by simp) fun _ => by simp

@[simp]
theorem moves_boundName (allowLet : Bool) : Moves (boundName allowLet) := by
  refine moves_bind (by simp) fun _ => moves_when (by simp) (fun _ => ?_) ()
  refine moves_bind (by simp) fun _ => moves_bind (moves_within (fun _ => rfl) (by simp)) fun _ => ?_
  exact moves_bind (by simp) fun _ => moves_bind (by simp) fun _ =>
    moves_when (by simp) (fun _ => by simp) ()

@[simp]
theorem moves_boundName? (allowLet : Bool) : Moves (boundName? allowLet) := by
  refine moves_bind (by simp) fun _ => ?_
  split
  · exact moves_map (moves_boundName _)
  · simp

end

/-! ## Reading after a token -/

/-- A step that passes the token being looked at and reads the trees after it. -/
def ReadsPast {α : Type} (g : α → List Tree) (p : Parse α) : Prop :=
  ∀ s, Goes s p fun a s' => OwnSpans s'.Quiet (s.scan.start + 1) s'.lastStop (g a)

section

variable {α β : Type} {s : State} {p : Parse α} {f : α → Parse β} {g : α → List Tree}
  {g' : β → List Tree}

theorem ReadsPast.reads (h : ReadsPast g p) : Reads [] g p := by
  intro lo s hlo
  refine goes_ordered fun hs => (h s).mono fun a s' _ ha => ha.widen ?_ (Nat.le_refl _)
  exact Nat.le_trans hlo.le (Nat.le_succ_of_le hs.lastStop_le_start)

theorem past_of_takes (hp : Takes p) (hf : ∀ a, Reads [] g' (f a)) : ReadsPast g' (p >>= f) :=
  fun s => goes_bind (hp s) fun a s' _ hlt => hf a _ s' (.nil hlt)

/-- The token being looked at is known not to be the end of the text, and passed. -/
theorem goes_past {q : Parse α} (hne : s.scan.token ≠ .endOfText) (hq : Reads [] g q) :
    Goes s (advance >>= fun _ => q) fun a s' => OwnSpans s'.Quiet (s.scan.start + 1) s'.lastStop (g a) :=
  goes_bind goes_advance fun _ s' _ hlt => hq _ s' (.nil (hlt hne))

end

theorem Reads.moves {α : Type} {g : α → List Tree} {p : Parse α} (h : Reads [] g p) : Moves p :=
  fun s => (h s.lastStop s (.nil (Nat.le_refl _))).mono fun _ _ _ _ => trivial

/-! ## Nodes -/

section

variable {us parts : List Tree} {kind : Kind} {s : State}

theorem goes_lastStop {β : Type} {f : Nat → Parse β} {Q : β → State → Prop}
    (h : Goes s (f s.lastStop) Q) : Goes s (lastStop >>= f) Q :=
  fun c hc hs => h c hc hs

theorem goes_nodeFrom {Q : Tree → State → Prop} {offset : Nat}
    (h : Q (.node kind ⟨offset, s.lastStop⟩ parts) s) : Goes s (nodeFrom offset kind parts) Q :=
  goes_lastStop (goes_pure fun _ => h)

theorem goes_node {β : Type} {f : Tree → Parse β} {Q : β → State → Prop} {offset : Nat}
    (h : Goes s (f (.node kind ⟨offset, s.lastStop⟩ parts)) Q) :
    Goes s (nodeFrom offset kind parts >>= f) Q :=
  fun c hc hs => h c hc hs

/-- A node of trees that were read, which is no owner. -/
theorem reads_nodeFrom (offset : Nat) (hkind : isOwner kind = false)
    (hdraws : DrawsFrom parts us) : Reads us (fun t => [t]) (nodeFrom offset kind parts) :=
  fun _ _ hus => goes_nodeFrom ((hus.of_draws hdraws).plain hkind)

theorem reads_bindingName (allowLet : Bool) : Reads [] (fun t => [t]) (bindingName allowLet) :=
  reads_ask (by simp) fun _ => reads_move (by simp) fun _ => reads_nodeFrom _ rfl (.refl _)

end

/-! ## Lists -/

section

variable {α : Type} {g : α → List Tree} {more : Parse Bool} {step : Parse α}

theorem reads_repeatWhile (hmore : Moves more) (hstep : Reads [] g step) (fuel : Nat) :
    Reads [] (fun xs => xs.flatMap g) (repeatWhile more step fuel) := by
  induction fuel with
  | zero => exact fails_unexpected.reads
  | succ fuel ih =>
    rw [repeatWhile]
    refine reads_move hmore fun b => ?_
    split
    · refine reads_then hstep fun x => reads_then ih fun xs => reads_pure ?_
      rw [List.flatMap_cons]
      exact .refl _
    · exact reads_pure (.refl _)

theorem reads_listUntil (closing : String) (hstep : Reads [] g step) (fuel : Nat) :
    Reads [] (fun r => r.1.flatMap g) (listUntil closing step fuel) := by
  have hone {x : α} {comma : Option Nat} :
      Reads ([] ++ g x) (fun r => r.1.flatMap g) (pure ([x], comma) : Parse (List α × Option Nat)) :=
    reads_pure (List.flatMap_singleton g x ▸ .refl _)
  induction fuel with
  | zero => exact fails_unexpected.reads
  | succ fuel ih =>
    rw [listUntil]
    refine reads_move (by simp) fun b => ?_
    split
    · exact reads_pure (.refl _)
    · refine reads_then hstep fun x => reads_move (by simp) fun b => ?_
      split
      · exact hone
      · refine reads_ask (by simp) fun comma => reads_move (by simp) fun _ => ?_
        refine reads_move (by simp) fun b => ?_
        split
        · exact hone
        · refine reads_then ih fun r => reads_pure ?_
          rw [List.flatMap_cons]
          exact .refl _

theorem moves_listUntil (closing : String) (hstep : Moves step) (fuel : Nat) :
    Moves (listUntil closing step fuel) := by
  induction fuel with
  | zero => exact fails_unexpected.moves
  | succ fuel ih =>
    rw [listUntil]
    refine moves_bind (by simp) fun _ => moves_ite moves_pure ?_
    refine moves_bind hstep fun _ => moves_bind (by simp) fun _ => moves_ite moves_pure ?_
    refine moves_bind (by simp) fun _ => moves_bind (by simp) fun _ => moves_bind (by simp) fun _ => ?_
    exact moves_ite moves_pure (moves_bind ih fun _ => moves_pure)

/-- The tree after the last change has the owners that are read. -/
theorem reads_iterate {step : Tree → Parse (Option Tree)}
    (hstep : ∀ t, Reads [t] (fun r => [r.getD t]) (step t)) (fuel : Nat) (t : Tree) :
    Reads [t] (fun r => [r]) (iterate step fuel t) := by
  induction fuel generalizing t with
  | zero => exact fails_unexpected.reads
  | succ fuel ih =>
    rw [iterate]
    refine reads_bind (hstep t) fun r => ?_
    cases r with
    | none => exact reads_pure (.refl _)
    | some next => exact ih next

@[simp]
theorem moves_complainOfTrailing (offset : Nat) : Moves (complainOfTrailing offset) := by
  refine moves_bind (by simp) fun s => ?_
  split
  · simp
  · simp

end

end Parse

end ModuleAssets.Syntax
