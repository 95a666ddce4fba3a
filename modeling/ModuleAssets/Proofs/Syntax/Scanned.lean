import ModuleAssets.Syntax.Token.Scan
/-!
# Scanning — tokens come one after the other

Whatever is read of a text, the place after it comes no earlier than the place
before, and a token that is not the end of the text takes some of the text.
`Scan.ComesAfter` says so of a token that was looked at from some offset on.
-/

namespace ModuleAssets.Syntax

/-! ## Escapes -/

/-- The place after a code point. -/
def CodePoint.after : CodePoint → Cursor
  | .code _ after => after
  | .broken _ after => after

/-- The place after an escape. -/
def Escape.after : Escape → Cursor
  | .codes _ _ after => after
  | .broken after => after

theorem le_hexRun (limit offset : Nat) (cs : List Char) (count value : Nat) :
    offset ≤ (hexRun limit offset cs count value).2.2.offset := by
  fun_induction hexRun limit offset cs count value with
  | case1 | case2 | case5 => exact Nat.le_refl _
  | case3 | case4 => omega

theorem le_unicodeEscape (c : Cursor) : c.offset ≤ (unicodeEscape c).after.offset := by
  unfold unicodeEscape
  split
  · rename_i rest _
    have hrun := le_hexRun rest.length (c.offset + 1) rest 0 0
    dsimp only
    split
    · exact Nat.le_of_succ_le hrun
    · split
      · exact Nat.le_succ_of_le (Nat.le_of_succ_le hrun)
      · exact Nat.le_of_succ_le hrun
  · have hrun := le_hexRun 4 c.offset c.chars 0 0
    dsimp only
    split
    · exact hrun
    · exact hrun

theorem le_octalRun (limit value offset : Nat) (cs : List Char) :
    offset ≤ (octalRun limit value offset cs).2.offset := by
  fun_induction octalRun limit value offset cs with
  | case1 | case2 | case4 => exact Nat.le_refl _
  | case3 => omega

theorem le_readEscape (c : Cursor) : c.offset ≤ (readEscape c).after.offset := by
  unfold readEscape
  split
  · exact Nat.le_refl _
  · rename_i d rest hchars
    have hnext : c.offset ≤ c.offset + d.utf8Size := Nat.le_add_right _ _
    dsimp only
    split
    · exact hnext
    · split
      · have hrun := le_hexRun 2 (c.offset + d.utf8Size) rest 0 0
        split
        · exact Nat.le_trans hnext hrun
        · exact Nat.le_trans hnext hrun
      · split
        · have hrun := le_unicodeEscape ⟨rest, c.offset + d.utf8Size⟩
          split
          · rename_i hcode
            rw [hcode] at hrun
            exact Nat.le_trans hnext hrun
          · rename_i hcode
            rw [hcode] at hrun
            exact Nat.le_trans hnext hrun
        · split
          · exact Nat.le_succ_of_le hnext
          · split
            · exact hnext
            · split
              · exact hnext
              · split
                · exact le_octalRun _ _ _ _
                · exact hnext

/-! ## Words -/

theorem le_wordRun (fuel : Nat) (first : Bool) (c : Cursor) :
    c.offset ≤ (wordRun fuel first c).after.offset := by
  fun_induction wordRun fuel first c with
  | case1 | case6 | case7 => exact Nat.le_refl _
  | case2 fuel first c cs hchars value after hcode d ih =>
    have hescape := le_unicodeEscape ⟨cs, c.offset + 2⟩
    rw [hcode] at hescape
    exact Nat.le_trans (Nat.le_trans (Nat.le_add_right _ _) hescape) ih
  | case3 fuel first c cs hchars offset after hcode =>
    have hescape := le_unicodeEscape ⟨cs, c.offset + 2⟩
    rw [hcode] at hescape
    exact Nat.le_trans (Nat.le_add_right _ _) hescape
  | case4 => exact Nat.le_succ _
  | case5 fuel first c d cs hescape hword hchars hfits ih =>
    exact Nat.le_trans (Nat.le_add_right _ _) ih

/-- A word has at least its first letter. -/
theorem lt_scanWord {fuel : Nat} (hfuel : 0 < fuel) {c : Cursor} {d : Char} {cs : List Char}
    (hchars : c.chars = d :: cs) (hd : d = '\\' ∨ isIdentifierStart d = true) :
    c.offset < (scanWord fuel c).after.offset := by
  obtain ⟨fuel, rfl⟩ := Nat.exists_eq_add_one.2 hfuel
  rw [scanWord]
  dsimp only
  unfold wordRun
  split
  · rename_i cs' _
    have hescape := le_unicodeEscape ⟨cs', c.offset + 2⟩
    split
    · rename_i hcode
      rw [hcode] at hescape
      have hrest := le_wordRun fuel false ‹Cursor›
      exact Nat.lt_of_lt_of_le (Nat.lt_of_lt_of_le (Nat.lt_add_of_pos_right Nat.two_pos) hescape)
        hrest
    · rename_i hcode
      rw [hcode] at hescape
      exact Nat.lt_of_lt_of_le (Nat.lt_add_of_pos_right Nat.two_pos) hescape
  · exact Nat.lt_succ_self _
  · rename_i d' cs' hnot heq
    obtain ⟨rfl, rfl⟩ := List.cons.inj (hchars.symm.trans heq)
    have hrest := le_wordRun fuel false ⟨cs, c.offset + d.utf8Size⟩
    split
    · exact Nat.lt_of_lt_of_le (Nat.lt_add_of_pos_right d.utf8Size_pos) hrest
    · rename_i hfits
      obtain rfl | hd := hd
      · exact (hnot rfl).elim
      · exact absurd hd hfits
  · rename_i heq
    rw [hchars] at heq
    cases heq

/-! ## Numbers -/

theorem le_digitsFrom (isDigit : Char → Bool) (offset : Nat) (cs : List Char) :
    offset ≤ (digitsFrom isDigit offset cs).2.2.offset := by
  induction cs generalizing offset with
  | nil => exact Nat.le_refl _
  | cons c cs ih =>
    have hrest := ih (offset + 1)
    rw [digitsFrom]
    split
    · exact Nat.le_of_succ_le hrest
    · split
      · exact Nat.le_of_succ_le hrest
      · exact Nat.le_refl _

theorem le_digitRun (isDigit : Char → Bool) (c : Cursor) :
    c.offset ≤ (digitRun isDigit c).after.offset :=
  le_digitsFrom isDigit c.offset c.chars

theorem lt_digitRun {isDigit : Char → Bool} {c : Cursor} {d : Char} {cs : List Char}
    (hchars : c.chars = d :: cs) (hd : isDigit d = true) :
    c.offset < (digitRun isDigit c).after.offset := by
  have hrest := le_digitsFrom isDigit (c.offset + 1) cs
  rw [digitRun, hchars, digitsFrom, if_pos hd]
  exact hrest

theorem after_finishNumber (value : Float) (after : Cursor) (complaints : List Complaint) :
    (finishNumber value after complaints).after = after := by
  rw [finishNumber]
  split
  · rfl
  · rfl

theorem le_basedNumber (base : Nat) (c : Cursor) : c.offset ≤ (basedNumber base c).after.offset := by
  have hrun := le_digitRun (fun d => (Json.hexValue? d).any (· < base)) c
  rw [basedNumber]
  split
  · exact hrun
  · split
    · exact Nat.le_succ_of_le hrun
    · rwa [after_finishNumber]

theorem lt_of_fractionPart? {c : Cursor} {run : DigitRun} (h : fractionPart? c = some run) :
    c.offset < run.after.offset := by
  unfold fractionPart? at h
  split at h
  · rename_i rest _
    have hrun := le_digitRun Char.isDigit ⟨rest, c.offset + 1⟩
    rw [Option.some.inj h] at hrun
    exact hrun
  · cases h

theorem lt_of_exponentPart? {c : Cursor} {negative : Bool} {run : DigitRun}
    (h : exponentPart? c = some (negative, run)) : c.offset < run.after.offset := by
  unfold exponentPart? at h
  split at h
  · split at h
    · have hrun (rest : List Char) (k : Nat) (heq : digitRun Char.isDigit ⟨rest, c.offset + k⟩ = run)
          (hk : 0 < k) : c.offset < run.after.offset :=
        Nat.lt_of_lt_of_le (Nat.lt_add_of_pos_right hk)
          (heq ▸ le_digitRun Char.isDigit ⟨rest, c.offset + k⟩)
      split at h
      · exact hrun _ 2 (Prod.mk.inj (Option.some.inj h)).2 Nat.two_pos
      · exact hrun _ 2 (Prod.mk.inj (Option.some.inj h)).2 Nat.two_pos
      · exact hrun _ 1 (Prod.mk.inj (Option.some.inj h)).2 Nat.one_pos
    · cases h
  · cases h

/-- A fraction or an exponent comes after the whole digits. -/
theorem le_finishDecimal (whole : List Char) (c : Cursor) (complaints : List Complaint) :
    c.offset ≤ (finishDecimal whole c complaints).after.offset ∧
      ((fractionPart? c).isSome = true →
        c.offset < (finishDecimal whole c complaints).after.offset) := by
  have hfraction : c.offset ≤ (((fractionPart? c).map (·.after)).getD c).offset ∧
      ((fractionPart? c).isSome = true →
        c.offset < (((fractionPart? c).map (·.after)).getD c).offset) := by
    cases h : fractionPart? c with
    | none => exact ⟨Nat.le_refl _, fun hsome => absurd hsome Bool.false_ne_true⟩
    | some run =>
      have hlt := lt_of_fractionPart? h
      exact ⟨Nat.le_of_lt hlt, fun _ => hlt⟩
  rw [finishDecimal]
  dsimp only
  split
  · rwa [after_finishNumber]
  · rename_i negative run hexponent
    have hlt := lt_of_exponentPart? hexponent
    have hafter (lexeme : Lexeme) (h : lexeme.after = run.after) :
        c.offset ≤ lexeme.after.offset ∧
          ((fractionPart? c).isSome = true → c.offset < lexeme.after.offset) := by
      rw [h]
      exact ⟨Nat.le_trans hfraction.1 (Nat.le_of_lt hlt),
        fun _ => Nat.lt_of_le_of_lt hfraction.1 hlt⟩
    split
    · exact hafter _ rfl
    · exact hafter _ (after_finishNumber _ _ _)

/-- A number begins with a digit, or with a point and takes it. -/
theorem lt_decimalNumber {c : Cursor} {d : Char} {cs : List Char} (hchars : c.chars = d :: cs)
    (hd : d.isDigit = true ∨ d = '.') : c.offset < (decimalNumber c).after.offset := by
  have hwhole := le_digitRun Char.isDigit c
  rw [decimalNumber]
  dsimp only
  split
  · exact Nat.lt_succ_of_le hwhole
  · have hfinish (complaints : List Complaint) := le_finishDecimal
      (digitRun Char.isDigit c).digits (digitRun Char.isDigit c).after complaints
    obtain hd | rfl := hd
    · have hlt : _ < (digitRun Char.isDigit c).after.offset := lt_digitRun hchars hd
      split
      · rwa [after_finishNumber]
      · exact Nat.lt_of_lt_of_le hlt (hfinish _).1
    · -- there are no digits before the point
      have hnone : digitRun Char.isDigit c = ⟨[], false, c.offset, c⟩ := by
        rw [digitRun, hchars, digitsFrom]
        obtain ⟨chars, offset⟩ := c
        cases hchars
        rfl
      have hpoint : (fractionPart? (digitRun Char.isDigit c).after).isSome = true := by
        rw [hnone, fractionPart?, hchars]
        rfl
      split
      · rename_i hoctal
        rw [hnone] at hoctal
        exact absurd hoctal Bool.false_ne_true
      · exact Nat.lt_of_le_of_lt hwhole ((hfinish _).2 hpoint)

theorem lt_scanNumber {c : Cursor} {d : Char} {cs : List Char} (hchars : c.chars = d :: cs)
    (hd : d.isDigit = true ∨ d = '.') : c.offset < (scanNumber c).after.offset := by
  unfold scanNumber
  split
  · split
    · rename_i rest _ _ base _
      have hbased := le_basedNumber base ⟨rest, c.offset + 2⟩
      exact Nat.lt_of_lt_of_le (Nat.lt_add_of_pos_right Nat.two_pos) hbased
    · exact lt_decimalNumber hchars hd
  · exact lt_decimalNumber hchars hd

/-! ## Quoted text -/

theorem le_textRun (quote : Char) (fuel : Nat) (c : Cursor) :
    c.offset ≤ (textRun quote fuel c).after.offset := by
  induction fuel generalizing c with
  | zero => exact Nat.le_refl _
  | succ fuel ih =>
    unfold textRun
    split
    · exact Nat.le_refl _
    · rename_i d cs _
      have hnext : c.offset ≤ c.offset + d.utf8Size := Nat.le_add_right _ _
      dsimp only
      split
      · exact hnext
      · split
        · have hescape := le_readEscape ⟨cs, c.offset + d.utf8Size⟩
          split
          · rename_i after heq
            rw [heq] at hescape
            exact Nat.le_trans (Nat.le_trans hnext hescape) (ih after)
          · rename_i heq
            rw [heq] at hescape
            exact Nat.le_trans hnext hescape
        · split
          · exact Nat.le_refl _
          · have hrest := ih ⟨cs, c.offset + d.utf8Size⟩
            exact Nat.le_trans hnext hrest

/-- A string begins after its quote. -/
theorem le_scanString (fuel : Nat) (quote : Char) (start : Nat) (inside : Cursor) :
    inside.offset ≤ (scanString fuel quote start inside).after.offset := by
  have hrun := le_textRun quote fuel inside
  unfold scanString
  dsimp only
  split
  · exact hrun
  · exact hrun

/-- A piece of a template takes at least what ends it. -/
theorem lt_of_scanPiece? {offset : Nat} {cs : List Char} {piece : Piece}
    (h : scanPiece? offset cs = some piece) : offset < piece.after.offset := by
  fun_induction scanPiece? offset cs generalizing piece with
  | case1 => cases h
  | case2 | case3 =>
    obtain rfl := Option.some.inj h
    exact Nat.lt_add_of_pos_right (by decide)
  | case4 offset c cs ih =>
    obtain ⟨rest, hrest, rfl⟩ := Option.map_eq_some_iff.1 h
    have hlt := ih hrest
    dsimp only
    omega
  | case5 offset c cs _ _ _ ih =>
    obtain ⟨rest, hrest, rfl⟩ := Option.map_eq_some_iff.1 h
    have hlt := ih hrest
    dsimp only
    omega

theorem lt_of_regexBody? {inClass : Bool} {offset : Nat} {cs : List Char} {after : Cursor}
    (h : regexBody? inClass offset cs = some after) : offset < after.offset := by
  fun_induction regexBody? inClass offset cs with
  | case1 | case2 | case4 => cases h
  | case3 inClass offset c cs _ ih =>
    have hlt := ih h
    omega
  | case5 inClass offset cs _ _ ih =>
    have hlt := ih h
    omega
  | case6 inClass offset cs _ _ _ ih =>
    have hlt := ih h
    omega
  | case7 =>
    obtain rfl := Option.some.inj h
    exact Nat.lt_succ_self _
  | case8 inClass offset c cs _ _ _ _ _ ih =>
    have hlt := ih h
    omega

/-- The flags of a regular expression come after its slash. -/
theorem lt_of_scanRegex? {fuel : Nat} {c : Cursor} {flags : WordRun}
    (h : scanRegex? fuel c = some flags) : c.offset < flags.after.offset := by
  obtain ⟨after, hafter, rfl⟩ := Option.map_eq_some_iff.1 h
  have hlt := lt_of_regexBody? hafter
  split
  · exact Nat.lt_of_lt_of_le hlt (le_wordRun _ _ _)
  · exact hlt

/-! ## Blanks and punctuators -/

theorem le_skipFrom (skipping : Skipping) (newline : Bool) (offset : Nat) (cs : List Char) :
    offset ≤ (skipFrom skipping newline offset cs).cursor.offset := by
  fun_induction skipFrom skipping newline offset cs
  all_goals first | exact Nat.le_refl _ | omega

/-- A token starts with the old comments in front of it. -/
theorem le_skipAll (fuel : Nat) (s : Skipped) :
    s.cursor.offset ≤ (skipAll fuel s).1.head?.getD (skipAll fuel s).2.cursor.offset ∧
      (skipAll fuel s).1.head?.getD (skipAll fuel s).2.cursor.offset ≤
        (skipAll fuel s).2.cursor.offset := by
  induction fuel generalizing s with
  | zero => exact ⟨Nat.le_refl _, Nat.le_refl _⟩
  | succ fuel ih =>
    rw [skipAll]
    split
    · have hcomment := le_skipFrom .lineComment s.newline s.cursor.offset s.cursor.chars
      have hrest := ih (skipFrom .lineComment s.newline s.cursor.offset s.cursor.chars)
      exact ⟨Nat.le_refl _, Nat.le_trans hcomment (Nat.le_trans hrest.1 hrest.2)⟩
    · exact ⟨Nat.le_refl _, Nat.le_refl _⟩

/-- No punctuator is empty. -/
theorem pos_of_mem_punctuators {p : List Char} (h : p ∈ punctuators) : 0 < p.length := by
  have hall : punctuators.all (fun p => decide (0 < p.length)) = true := by decide
  exact of_decide_eq_true (List.all_eq_true.1 hall p h)

theorem lt_scanPunctuator {c : Cursor} {d : Char} {cs : List Char} (hchars : c.chars = d :: cs) :
    c.offset < (scanPunctuator c).after.offset := by
  unfold scanPunctuator
  split
  · split
    · exact Nat.lt_succ_self _
    · exact Nat.lt_add_of_pos_right Nat.two_pos
  · split
    · rename_i p hp
      exact Nat.lt_add_of_pos_right (pos_of_mem_punctuators (List.mem_of_find?_eq_some hp))
    · have hd := d.utf8Size_pos
      rw [hchars, Cursor.skip, List.take_succ_cons, List.take_zero, Text.byteLength,
        Text.byteLength]
      exact Nat.lt_add_of_pos_right hd

/-! ## Tokens -/

/-- A token takes some of the text unless this ends. -/
theorem lt_scanToken {fuel : Nat} (hfuel : 0 < fuel) {c : Cursor} {d : Char} {cs : List Char}
    (hchars : c.chars = d :: cs) : c.offset < (scanToken fuel c).after.offset := by
  unfold scanToken
  split
  · rename_i heq
    rw [hchars] at heq
    cases heq
  · rename_i cs' _
    exact le_scanString fuel '"' c.offset ⟨cs', c.offset + 1⟩
  · rename_i cs' _
    exact le_scanString fuel '\'' c.offset ⟨cs', c.offset + 1⟩
  · split
    · exact Nat.lt_succ_self _
    · have hd := d.utf8Size_pos
      rw [hchars, Cursor.skip, Text.byteLength]
      exact Nat.lt_add_of_pos_right (Nat.lt_of_lt_of_le hd (Nat.le_add_right _ _))
  · rename_i heq
    split
    · exact lt_scanNumber heq (.inr rfl)
    · exact lt_scanPunctuator hchars
  · rename_i heq
    split
    · rename_i hdigit
      exact lt_scanNumber heq (.inl hdigit)
    · split
      · rename_i hword
        exact lt_scanWord hfuel heq hword
      · exact lt_scanPunctuator hchars

theorem scanToken_nil {fuel : Nat} {c : Cursor} (hchars : c.chars = []) :
    scanToken fuel c = ⟨.endOfText, c, []⟩ := by
  unfold scanToken
  rw [hchars]

/-- The token was looked at from the offset on. It comes after it, and unless it
is the end of the text it takes some of the text. -/
structure Scan.ComesAfter (offset : Nat) (scan : Scan) : Prop where
  le_start : offset ≤ scan.start
  start_le : scan.start ≤ scan.here.offset
  here_le : scan.here.offset ≤ scan.after.offset
  here_lt : scan.token ≠ .endOfText → scan.here.offset < scan.after.offset

/-- **A token follows the place it is read from.** -/
theorem Scan.comesAfter_next {fuel : Nat} (hfuel : 0 < fuel) (newline : Bool) (c : Cursor) :
    (Scan.next fuel newline c).ComesAfter c.offset := by
  have hblanks := le_skipFrom .blanks newline c.offset c.chars
  have hall := le_skipAll fuel (skipFrom .blanks newline c.offset c.chars)
  rw [Scan.next]
  dsimp only
  generalize skipAll fuel (skipFrom .blanks newline c.offset c.chars) = skipped at hall
  cases hchars : skipped.2.cursor.chars with
  | nil =>
    rw [scanToken_nil hchars]
    exact ⟨Nat.le_trans hblanks hall.1, hall.2, Nat.le_refl _, fun hne => absurd rfl hne⟩
  | cons d cs =>
    have htoken := lt_scanToken hfuel hchars
    exact ⟨Nat.le_trans hblanks hall.1, hall.2, Nat.le_of_lt htoken, fun _ => htoken⟩

end ModuleAssets.Syntax
