import ModuleAssets.Text.Patch
import ModuleAssets.Proofs.Text.Slice
import Mathlib.Data.List.Pairwise
/-!
# Patches — runs of edits, accepted and refused

A patch is used by a run of calls, any of which may be refused. `Sound` is
what a patch satisfies at every point of every run: its overwrites are not
empty, stay within the text and keep off each other, and no insertion lies
inside one of them. `Placed` adds that no held edit splits a character, which
holds as long as no call asked for that.
-/

namespace ModuleAssets

/-- A call that edits a patch. -/
inductive Edit where
  | overwrite (span : Span) (text : String)
  | remove (span : Span)
  | appendRight (position : Nat) (text : String)

namespace Edit

/-- The positions of the text that a call names. -/
def endpoints : Edit → List Nat
  | overwrite span _ | remove span => [span.start, span.stop]
  | appendRight position _ => [position]

/-- The span that a call gives another text. -/
def span? : Edit → Option Span
  | overwrite span _ | remove span => some span
  | appendRight _ _ => none

/-- The later call takes the place of what the earlier one put in. -/
def Replaces (later earlier : Edit) : Prop :=
  ∃ span, later.span? = some span ∧
    match earlier with
    | overwrite covered _ | remove covered => span.containsSpan covered = true
    | appendRight position _ => span.containsInner position = true

/-- No position named within the text splits a character. -/
def KeepsCharacters (cs : List Char) (e : Edit) : Prop :=
  ∀ n ∈ e.endpoints, n ≤ Text.byteLength cs → Text.IsBoundary cs n

instance (cs : List Char) (e : Edit) : Decidable (e.KeepsCharacters cs) :=
  inferInstanceAs (Decidable (∀ n ∈ e.endpoints, _))

end Edit

namespace Patch

/-- What a call answers. -/
def edit (p : Patch) : Edit → Except PatchError Patch
  | .overwrite span text => p.overwrite span text
  | .remove span => p.remove span
  | .appendRight position text => p.appendRight position text

/-- The patch after a call. A refused call leaves it as it was. -/
def attempt (p : Patch) (e : Edit) : Patch :=
  match p.edit e with
  | .ok q => q
  | .error _ => p

/-- The patch after some calls. -/
def run (p : Patch) (edits : List Edit) : Patch :=
  edits.foldl attempt p

/-! ## What an accepted edit changes -/

theorem conflict?_eq_none {new existing : Span} (h : conflict? new existing = none) :
    new.containsSpan existing = true ∨ existing.stop ≤ new.start ∨ new.stop ≤ existing.start := by
  rw [conflict?] at h
  by_cases hcontains : new.containsSpan existing = true
  · exact .inl hcontains
  · right
    cases hover : existing.overlaps new with
    | false =>
      simp only [Span.overlaps, Bool.and_eq_false_iff, decide_eq_false_iff_not] at hover
      omega
    | true =>
      simp only [hover, hcontains, Bool.not_true, Bool.or_self, Bool.false_eq_true, if_false] at h
      split at h <;> cases h

/-- **What an accepted overwrite does.** It covers some of the text, has no
edit across its ends, and takes the place of all edits it covers. -/
theorem overwrite_eq_ok {p q : Patch} {span : Span} {text : String}
    (h : p.overwrite span text = .ok q) :
    span.start < span.stop ∧ span.stop ≤ p.length ∧
      (∀ o ∈ p.overwrites, span.containsSpan o.span = true ∨ o.span.stop ≤ span.start ∨
        span.stop ≤ o.span.start) ∧
      q = { p with
        overwrites := p.overwrites.filter (!span.containsSpan ·.span) ++ [⟨span, text⟩]
        insertions := p.insertions.filter (!span.containsInner ·.position) } := by
  rw [overwrite] at h
  split at h
  · cases h
  rename_i hbounds
  split at h
  · cases h
  rename_i hempty
  simp only [Span.isEmpty, beq_iff_eq] at hempty
  cases hfind : p.overwrites.findSome? fun o => conflict? span o.span with
  | some e => rw [hfind] at h; cases h
  | none =>
    rw [hfind] at h
    rw [List.findSome?_eq_none_iff] at hfind
    exact ⟨by omega, by omega, fun o ho => conflict?_eq_none (hfind o ho), (Except.ok.inj h).symm⟩

/-- **What an accepted insertion does.** It stands within the text but inside
no overwrite, and is added behind all others. -/
theorem appendRight_eq_ok {p q : Patch} {position : Nat} {text : String}
    (h : p.appendRight position text = .ok q) :
    position ≤ p.length ∧ (∀ o ∈ p.overwrites, o.span.containsInner position = false) ∧
      q = { p with insertions := p.insertions ++ [⟨position, text, p.insertions.length⟩] } := by
  rw [appendRight] at h
  split at h
  · cases h
  rename_i hbounds
  cases hfind : p.overwrites.find? (·.span.containsInner position) with
  | some o => rw [hfind] at h; cases h
  | none =>
    rw [hfind] at h
    rw [List.find?_eq_none] at hfind
    exact ⟨by omega, fun o ho => by simpa using hfind o ho, (Except.ok.inj h).symm⟩

/-! ## What holds at every point of a run -/

/-- The held overwrites are not empty, in bounds and apart from each other,
and no held insertion lies strictly inside one of them. -/
structure Sound (cs : List Char) (p : Patch) : Prop where
  length : p.length = Text.byteLength cs
  nonempty : ∀ o ∈ p.overwrites, o.span.start < o.span.stop
  inBounds : ∀ o ∈ p.overwrites, o.span.stop ≤ Text.byteLength cs
  disjoint : p.overwrites.Pairwise fun a b =>
    a.span.stop ≤ b.span.start ∨ b.span.stop ≤ a.span.start
  reached : ∀ i ∈ p.insertions, i.position ≤ Text.byteLength cs
  outside : ∀ i ∈ p.insertions, ∀ o ∈ p.overwrites,
    i.position ≤ o.span.start ∨ o.span.stop ≤ i.position

theorem sound_ofText (text : String) : Sound text.toList (ofText text) where
  length := rfl
  nonempty := by simp [ofText]
  inBounds := by simp [ofText]
  disjoint := by simp [ofText]
  reached := by simp [ofText]
  outside := by simp [ofText]

namespace Sound

variable {cs : List Char} {p q : Patch}

/-- Of two overwrites one lies behind the other. -/
theorem apart (hp : Sound cs p) {o o' : Overwrite} (ho : o ∈ p.overwrites)
    (ho' : o' ∈ p.overwrites) (hne : o ≠ o') :
    o.span.stop ≤ o'.span.start ∨ o'.span.stop ≤ o.span.start := by
  have : Std.Symm fun a b : Overwrite =>
      a.span.stop ≤ b.span.start ∨ b.span.stop ≤ a.span.start := ⟨fun _ _ => Or.symm⟩
  exact hp.disjoint.forall ho ho' hne

/-- An accepted overwrite keeps a patch sound. -/
theorem overwrite (hp : Sound cs p) {span : Span} {text : String}
    (h : p.overwrite span text = .ok q) : Sound cs q := by
  obtain ⟨hempty, hbounds, hapart, rfl⟩ := overwrite_eq_ok h
  have hlength := hp.length
  -- an overwrite that stays is not covered by the new one, so it is apart from it
  have hkept : ∀ o ∈ p.overwrites.filter (!span.containsSpan ·.span),
      o ∈ p.overwrites ∧ (o.span.stop ≤ span.start ∨ span.stop ≤ o.span.start) := by
    intro o ho
    obtain ⟨hmem, hnot⟩ := List.mem_filter.1 ho
    refine ⟨hmem, (hapart o hmem).resolve_left ?_⟩
    simpa using hnot
  refine ⟨hp.length, fun o ho => ?_, fun o ho => ?_, ?_, fun i hi => ?_, fun i hi o ho => ?_⟩
  · rcases List.mem_append.1 ho with ho | ho
    · exact hp.nonempty o (hkept o ho).1
    · rw [List.mem_singleton.1 ho]; exact hempty
  · rcases List.mem_append.1 ho with ho | ho
    · exact hp.inBounds o (hkept o ho).1
    · rw [List.mem_singleton.1 ho]; exact hlength ▸ hbounds
  · -- those that stay were apart before, and each is apart from the new one
    refine List.pairwise_append.2 ⟨hp.disjoint.filter _, by simp, fun o ho o' ho' => ?_⟩
    rw [List.mem_singleton.1 ho']
    exact (hkept o ho).2
  · exact hp.reached i (List.mem_filter.1 hi).1
  · obtain ⟨hmem, hinner⟩ := List.mem_filter.1 hi
    rcases List.mem_append.1 ho with ho | ho
    · exact hp.outside i hmem o (hkept o ho).1
    · simp only [Span.containsInner, Bool.not_eq_true', Bool.and_eq_false_iff,
        decide_eq_false_iff_not] at hinner
      rw [List.mem_singleton.1 ho]
      show i.position ≤ span.start ∨ span.stop ≤ i.position
      omega

/-- An accepted insertion keeps a patch sound. -/
theorem appendRight (hp : Sound cs p) {position : Nat} {text : String}
    (h : p.appendRight position text = .ok q) : Sound cs q := by
  obtain ⟨hbounds, hinner, rfl⟩ := appendRight_eq_ok h
  refine ⟨hp.length, hp.nonempty, hp.inBounds, hp.disjoint, fun i hi => ?_, fun i hi o ho => ?_⟩
  · rcases List.mem_append.1 hi with hi | hi
    · exact hp.reached i hi
    · rw [List.mem_singleton.1 hi]; exact hp.length ▸ hbounds
  · rcases List.mem_append.1 hi with hi | hi
    · exact hp.outside i hi o ho
    · have hnot := hinner o ho
      simp only [Span.containsInner, Bool.and_eq_false_iff, decide_eq_false_iff_not] at hnot
      rw [List.mem_singleton.1 hi]
      show position ≤ o.span.start ∨ o.span.stop ≤ position
      omega

/-- Every call keeps a patch sound, whether it is accepted or not. -/
theorem attempt (hp : Sound cs p) (e : Edit) : Sound cs (p.attempt e) := by
  rw [Patch.attempt]
  split
  · rename_i q h
    cases e with
    | overwrite span text => exact hp.overwrite h
    | remove span => exact hp.overwrite h
    | appendRight position text => exact hp.appendRight h
  · exact hp

end Sound

/-- **A patch is sound at every point of every run.** -/
theorem Sound.run {cs : List Char} {p : Patch} (hp : Sound cs p) (edits : List Edit) :
    Sound cs (p.run edits) := by
  induction edits generalizing p with
  | nil => exact hp
  | cons e edits ih => exact ih (hp.attempt e)

/-! ## Edits that split no character -/

/-- All positions of the held edits are boundaries of the text. -/
structure Placed (cs : List Char) (p : Patch) : Prop where
  overwrites : ∀ o ∈ p.overwrites,
    Text.IsBoundary cs o.span.start ∧ Text.IsBoundary cs o.span.stop
  insertions : ∀ i ∈ p.insertions, Text.IsBoundary cs i.position

theorem placed_ofText (text : String) : Placed text.toList (ofText text) where
  overwrites := by simp [ofText]
  insertions := by simp [ofText]

namespace Placed

variable {cs : List Char} {p q : Patch}

theorem overwrite (hp : Placed cs p) (hsound : Sound cs p) {span : Span} {text : String}
    (hstart : span.start ≤ Text.byteLength cs → Text.IsBoundary cs span.start)
    (hstop : span.stop ≤ Text.byteLength cs → Text.IsBoundary cs span.stop)
    (h : p.overwrite span text = .ok q) : Placed cs q := by
  obtain ⟨hempty, hbounds, -, rfl⟩ := overwrite_eq_ok h
  have hlength := hsound.length
  refine ⟨fun o ho => ?_, fun i hi => hp.insertions i (List.mem_filter.1 hi).1⟩
  rcases List.mem_append.1 ho with ho | ho
  · exact hp.overwrites o (List.mem_filter.1 ho).1
  · rw [List.mem_singleton.1 ho]
    exact ⟨hstart (by omega), hstop (by omega)⟩

theorem appendRight (hp : Placed cs p) (hsound : Sound cs p) {position : Nat} {text : String}
    (hposition : position ≤ Text.byteLength cs → Text.IsBoundary cs position)
    (h : p.appendRight position text = .ok q) : Placed cs q := by
  obtain ⟨hbounds, -, rfl⟩ := appendRight_eq_ok h
  refine ⟨hp.overwrites, fun i hi => ?_⟩
  rcases List.mem_append.1 hi with hi | hi
  · exact hp.insertions i hi
  · rw [List.mem_singleton.1 hi]
    exact hposition (hsound.length ▸ hbounds)

/-- A call that splits no character leaves all edits at boundaries. -/
theorem attempt (hp : Placed cs p) (hsound : Sound cs p) {e : Edit}
    (he : e.KeepsCharacters cs) : Placed cs (p.attempt e) := by
  rw [Patch.attempt]
  split
  · rename_i q h
    cases e with
    | overwrite span text =>
      exact hp.overwrite hsound (he _ (by simp [Edit.endpoints])) (he _ (by simp [Edit.endpoints])) h
    | remove span =>
      exact hp.overwrite hsound (he _ (by simp [Edit.endpoints])) (he _ (by simp [Edit.endpoints])) h
    | appendRight position text =>
      exact hp.appendRight hsound (he _ (by simp [Edit.endpoints])) h
  · exact hp

/-- **A run of calls that split no character holds no edit that does.** -/
theorem run (hp : Placed cs p) (hsound : Sound cs p) {edits : List Edit}
    (h : ∀ e ∈ edits, e.KeepsCharacters cs) : Placed cs (p.run edits) := by
  induction edits generalizing p with
  | nil => exact hp
  | cons e edits ih =>
    exact ih (hp.attempt hsound (h e (by simp))) (hsound.attempt e) fun e' he' => h e' (by simp [he'])

end Placed

/-! ## Runs in which nothing is refused -/

/-- The patch holds what a call put in. -/
def Holds (p : Patch) : Edit → Prop
  | .overwrite span text => ⟨span, text⟩ ∈ p.overwrites
  | .remove span => ⟨span, ""⟩ ∈ p.overwrites
  | .appendRight position text => ∃ i ∈ p.insertions, i.position = position ∧ i.text = text

section

variable {p q : Patch} {e e' : Edit}

theorem holds_of_edit (h : p.edit e = .ok q) : q.Holds e := by
  cases e with
  | overwrite span text =>
    obtain ⟨-, -, -, rfl⟩ := overwrite_eq_ok h
    exact List.mem_append_right _ List.mem_cons_self
  | remove span =>
    obtain ⟨-, -, -, rfl⟩ := overwrite_eq_ok h
    exact List.mem_append_right _ List.mem_cons_self
  | appendRight position text =>
    obtain ⟨-, -, rfl⟩ := appendRight_eq_ok h
    exact ⟨_, List.mem_append_right _ List.mem_cons_self, rfl, rfl⟩

/-- An overwrite keeps what it does not cover. -/
theorem Holds.overwrite (hp : p.Holds e) {span : Span} {text : String}
    (h : p.overwrite span text = .ok q) : q.Holds e ∨ (Edit.overwrite span text).Replaces e := by
  obtain ⟨-, -, -, rfl⟩ := overwrite_eq_ok h
  have hkept (o : Overwrite) (ho : o ∈ p.overwrites) (hcovers : span.containsSpan o.span ≠ true) :
      o ∈ p.overwrites.filter (!span.containsSpan ·.span) ++ [⟨span, text⟩] :=
    List.mem_append_left _ (List.mem_filter.2 ⟨ho, by simpa using hcovers⟩)
  cases e with
  | overwrite covered text' =>
    by_cases hcovers : span.containsSpan covered = true
    · exact .inr ⟨span, rfl, hcovers⟩
    · exact .inl (hkept _ hp hcovers)
  | remove covered =>
    by_cases hcovers : span.containsSpan covered = true
    · exact .inr ⟨span, rfl, hcovers⟩
    · exact .inl (hkept _ hp hcovers)
  | appendRight position text' =>
    by_cases hcovers : span.containsInner position = true
    · exact .inr ⟨span, rfl, hcovers⟩
    · obtain ⟨i, hi, rfl, rfl⟩ := hp
      exact .inl ⟨i, List.mem_filter.2 ⟨hi, by simpa using hcovers⟩, rfl, rfl⟩

/-- **A call that is accepted keeps what it does not replace.** -/
theorem Holds.next (hp : p.Holds e) (h : p.edit e' = .ok q) : q.Holds e ∨ e'.Replaces e := by
  cases e' with
  | overwrite span text => exact hp.overwrite h
  | remove span => exact hp.overwrite h
  | appendRight position text =>
    obtain ⟨-, -, rfl⟩ := appendRight_eq_ok h
    refine .inl ?_
    cases e with
    | overwrite span text => exact hp
    | remove span => exact hp
    | appendRight position text =>
      obtain ⟨i, hi, hsame⟩ := hp
      exact ⟨i, List.mem_append_left _ hi, hsame⟩

theorem exists_of_bind_eq_ok {x : Except PatchError Patch} {next : Patch → Except PatchError Patch}
    (h : x >>= next = .ok q) : ∃ p, x = .ok p ∧ next p = .ok q := by
  cases x with
  | error refusal => cases h
  | ok p => exact ⟨p, rfl, h⟩

theorem Holds.edits {edits : List Edit} (hp : p.Holds e) (h : edits.foldlM Patch.edit p = .ok q) :
    q.Holds e ∨ ∃ later ∈ edits, later.Replaces e := by
  induction edits generalizing p with
  | nil =>
    obtain rfl : p = q := Except.ok.inj h
    exact .inl hp
  | cons first rest ih =>
    obtain ⟨next, hnext, hrest⟩ := exists_of_bind_eq_ok h
    obtain hkept | hreplaced := hp.next hnext
    · exact (ih hkept hrest).imp_right fun ⟨later, hlater, hreplaces⟩ =>
        ⟨later, List.mem_cons_of_mem _ hlater, hreplaces⟩
    · exact .inr ⟨first, List.mem_cons_self, hreplaced⟩

/-- **Where nothing is refused, an edit is gone only if a later one replaces it.** -/
theorem holds_of_edits {before after : List Edit}
    (h : (before ++ e :: after).foldlM Patch.edit p = .ok q) :
    q.Holds e ∨ ∃ later ∈ after, later.Replaces e := by
  rw [List.foldlM_append] at h
  obtain ⟨middle, -, h⟩ := exists_of_bind_eq_ok h
  obtain ⟨next, hnext, h⟩ := exists_of_bind_eq_ok h
  exact (holds_of_edit hnext).edits h

end

end Patch

end ModuleAssets
