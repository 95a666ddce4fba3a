import ModuleAssets.Asset.Plan
import ModuleAssets.Json.Printer
import ModuleAssets.Proofs.Text.Slice
import ModuleAssets.Syntax.Token.Scan
/-!
# Quoted text — what is written between quotes reads back

Two writers put text between quotes: `Json.quote` between double ones, and the
references to assets between single ones. Each writes a text character by
character, and the reader takes what is written for one character as this
character (`Spells`). By induction on the text, the whole of it is read back, and
nothing is wrong with it (`scanString_of_spells`).
-/

namespace ModuleAssets.Syntax

/-! ## Codes -/

theorem Char.not_surrogate (c : Char) : ¬ (0xD800 ≤ c.toNat ∧ c.toNat < 0xE000) := by
  rintro ⟨hlow, hhigh⟩
  obtain hvalid | hvalid := c.valid
  · have : c.toNat < 0xD800 := hvalid
    omega
  · have : 0xDFFF < c.toNat := hvalid.1
    omega

/-- The codes of characters are read as these. -/
theorem decodeCodes?_toNat (cs : List Char) : decodeCodes? (cs.map Char.toNat) = some cs := by
  induction cs with
  | nil => rfl
  | cons c rest ih =>
    cases rest with
    | nil =>
      rw [List.map_cons, List.map_nil, decodeCodes?, if_neg (Char.not_surrogate c),
        Char.ofNat_toNat]
    | cons d rest =>
      have hpair : ¬ (0xD800 ≤ c.toNat ∧ c.toNat < 0xDC00 ∧ 0xDC00 ≤ d.toNat ∧ d.toNat < 0xE000) :=
        fun h => Char.not_surrogate c ⟨h.1, by omega⟩
      rw [List.map_cons, List.map_cons] at *
      rw [decodeCodes?, if_neg hpair, if_neg (Char.not_surrogate c), ih, Option.map_some,
        Char.ofNat_toNat]

/-! ## One character -/

/-- What is written is read as the character. -/
def Spells (quote c : Char) (written : List Char) : Prop :=
  ∀ fuel offset rest, ∃ escaped,
    textRun quote (fuel + 1) ⟨written ++ rest, offset⟩ =
      let run := textRun quote fuel ⟨rest, offset + Text.byteLength written⟩
      { run with codes := c.toNat :: run.codes, escaped := escaped || run.escaped }

/-- After a backslash it is read as the character. -/
def Escapes (c : Char) (written : List Char) : Prop :=
  ∀ offset rest, readEscape ⟨written ++ rest, offset⟩ =
    .codes [c.toNat] false ⟨rest, offset + Text.byteLength written⟩

/-- A character that has no meaning of its own is itself. -/
theorem spells_self {quote c : Char} (hquote : c ≠ quote) (hbackslash : c ≠ '\\')
    (hbreak : ¬ (c = '\n' ∨ c = '\r')) : Spells quote c [c] := by
  intro fuel offset rest
  refine ⟨false, ?_⟩
  show textRun quote (fuel + 1) ⟨c :: rest, offset⟩ = _
  rw [textRun]
  dsimp only
  rw [if_neg hquote, if_neg hbackslash, if_neg hbreak, Text.byteLength, Text.byteLength]
  rfl

theorem spells_escape {quote c : Char} {written : List Char} (hquote : quote ≠ '\\')
    (h : Escapes c written) : Spells quote c ('\\' :: written) := by
  intro fuel offset rest
  refine ⟨true, ?_⟩
  show textRun quote (fuel + 1) ⟨'\\' :: (written ++ rest), offset⟩ = _
  rw [textRun]
  dsimp only
  rw [if_neg hquote.symm, if_pos rfl, h, Text.byteLength, ← Nat.add_assoc]
  rfl

/-! ## Between single quotes -/

theorem spells_naming (c : Char) : Spells '\'' c (Naming.escapeChar c) := by
  have hquote : '\'' ≠ '\\' := by decide
  unfold Naming.escapeChar
  split
  · rename_i heq
    subst heq
    exact spells_escape hquote fun _ _ => rfl
  split
  · rename_i heq
    subst heq
    exact spells_escape hquote fun _ _ => rfl
  split
  · rename_i heq
    subst heq
    exact spells_escape hquote fun _ _ => rfl
  split
  · rename_i heq
    subst heq
    exact spells_escape hquote fun _ _ => rfl
  · rename_i hbackslash hsingle hnewline hreturn
    exact spells_self hsingle hbackslash (not_or.2 ⟨hnewline, hreturn⟩)

/-! ## Between double quotes -/

theorem hexValue?_hexDigit : ∀ n < 16, Json.hexValue? (Json.hexDigit n) = some n := by
  decide

theorem hexRun_zero (offset : Nat) (cs : List Char) (count value : Nat) :
    hexRun 0 offset cs count value = (count, value, ⟨cs, offset⟩) := by
  cases cs with
  | nil => rw [hexRun]
  | cons c cs => rw [hexRun]; exact nofun

theorem utf8Size_hexDigit : ∀ n < 16, (Json.hexDigit n).utf8Size = 1 := by
  decide

/-- A control character by its code. -/
theorem escapes_code {c : Char} (h : c.toNat < 0x20) :
    Escapes c ['u', '0', '0', Json.hexDigit (c.toNat / 16), Json.hexDigit (c.toNat % 16)] := by
  intro offset rest
  have hhigh : c.toNat / 16 < 16 := by omega
  have hlow : c.toNat % 16 < 16 := Nat.mod_lt _ (by decide)
  have hvalue : 16 * (16 * (16 * (16 * 0 + 0) + 0) + c.toNat / 16) + c.toNat % 16 = c.toNat := by
    omega
  have hzero : Json.hexValue? '0' = some 0 := by decide
  have hrun : hexRun 4 (offset + 1) ('0' :: '0' :: Json.hexDigit (c.toNat / 16) ::
      Json.hexDigit (c.toNat % 16) :: rest) 0 0 = (4, c.toNat, ⟨rest, offset + 5⟩) := by
    rw [hexRun, hzero]
    dsimp only
    rw [hexRun, hzero]
    dsimp only
    rw [hexRun, hexValue?_hexDigit _ hhigh]
    dsimp only
    rw [hexRun, hexValue?_hexDigit _ hlow]
    dsimp only
    rw [hexRun_zero, hvalue]
  have hcode : unicodeEscape ⟨'0' :: '0' :: Json.hexDigit (c.toNat / 16) ::
      Json.hexDigit (c.toNat % 16) :: rest, offset + 1⟩ = .code c.toNat ⟨rest, offset + 5⟩ := by
    unfold unicodeEscape
    split
    · rename_i hbrace
      exact absurd (List.cons.inj hbrace).1 (by decide)
    · rw [hrun]
      rfl
  have hletter : letterCode? 'u' = none := by decide
  have hother : ¬ 'u' = 'x' := by decide
  have hsize : 'u'.utf8Size = 1 := by decide
  unfold readEscape
  simp only [List.cons_append, List.nil_append, hletter, if_neg hother, if_true, hsize, hcode]
  simp only [Text.byteLength, utf8Size_hexDigit _ hhigh, utf8Size_hexDigit _ hlow]
  rfl

theorem spells_json (c : Char) : Spells '"' c (Json.escapeChar c) := by
  have hquote : '"' ≠ '\\' := by decide
  have hcode {n : Nat} (h : c.toNat = n) (hn : n < 0xD800) : c = Char.ofNat n := by
    rw [← h, Char.ofNat_toNat]
  unfold Json.escapeChar
  split
  · rename_i heq
    subst heq
    exact spells_escape hquote fun _ _ => rfl
  split
  · rename_i heq
    subst heq
    exact spells_escape hquote fun _ _ => rfl
  rename_i hdouble hbackslash
  split
  · rename_i hcontrol
    split
    · rename_i heq
      obtain rfl := hcode heq (by decide)
      exact spells_escape hquote fun _ _ => rfl
    split
    · rename_i heq
      obtain rfl := hcode heq (by decide)
      exact spells_escape hquote fun _ _ => rfl
    split
    · rename_i heq
      obtain rfl := hcode heq (by decide)
      exact spells_escape hquote fun _ _ => rfl
    split
    · rename_i heq
      obtain rfl := hcode heq (by decide)
      exact spells_escape hquote fun _ _ => rfl
    split
    · rename_i heq
      obtain rfl := hcode heq (by decide)
      exact spells_escape hquote fun _ _ => rfl
    · exact spells_escape hquote (escapes_code hcontrol)
  · rename_i hprinted
    refine spells_self hdouble hbackslash ?_
    rintro (rfl | rfl) <;> exact hprinted (by decide)

/-! ## Whole texts -/

/-- Something is written for each character. -/
theorem Spells.ne_nil {quote c : Char} {written : List Char} (h : Spells quote c written) :
    written ≠ [] := by
  rintro rfl
  obtain ⟨escaped, hrun⟩ := h 0 0 []
  exact absurd (congrArg TextRun.codes hrun) nofun

theorem length_le_flatMap {quote : Char} {write : Char → List Char}
    (hwrite : ∀ c, Spells quote c (write c)) (cs : List Char) :
    cs.length ≤ (cs.flatMap write).length := by
  induction cs with
  | nil => exact Nat.le_refl 0
  | cons c rest ih =>
    have := List.length_pos_iff.2 (hwrite c).ne_nil
    rw [List.flatMap_cons, List.length_append, List.length_cons]
    omega

/-- **A text that is written character by character is read back.** -/
theorem textRun_of_spells {quote : Char} {write : Char → List Char}
    (hwrite : ∀ c, Spells quote c (write c)) (cs : List Char) {fuel : Nat} (hfuel : cs.length < fuel)
    (offset : Nat) (rest : List Char) :
    ∃ escaped, textRun quote fuel ⟨cs.flatMap write ++ quote :: rest, offset⟩ =
      ⟨cs.map Char.toNat, escaped, [], none, true,
        ⟨rest, offset + Text.byteLength (cs.flatMap write) + quote.utf8Size⟩⟩ := by
  induction cs generalizing fuel offset with
  | nil =>
    obtain ⟨fuel, rfl⟩ := Nat.exists_eq_add_of_lt hfuel
    refine ⟨false, ?_⟩
    rw [List.flatMap_nil, List.nil_append, textRun]
    dsimp only
    rw [if_pos rfl]
    rfl
  | cons c cs ih =>
    obtain ⟨fuel, rfl⟩ := Nat.exists_eq_add_of_lt hfuel
    have hrest : cs.length < cs.length + 1 + fuel := by omega
    obtain ⟨escaped, hrun⟩ := ih hrest (offset + Text.byteLength (write c))
    obtain ⟨escaped', hc⟩ := hwrite c (cs.length + 1 + fuel) offset
      (cs.flatMap write ++ quote :: rest)
    refine ⟨escaped' || escaped, ?_⟩
    rw [List.flatMap_cons, List.append_assoc]
    rw [List.length_cons, hc, hrun]
    simp only [List.map_cons, Text.byteLength_append, Nat.add_assoc]

/-- So it is a token, and nothing is wrong with it. -/
theorem scanString_of_spells {quote : Char} {write : Char → List Char}
    (hwrite : ∀ c, Spells quote c (write c)) (cs : List Char) {fuel : Nat} (hfuel : cs.length < fuel)
    (start offset : Nat) (rest : List Char) :
    ∃ escaped, scanString fuel quote start ⟨cs.flatMap write ++ quote :: rest, offset⟩ =
      ⟨.text (some (String.ofList cs)) escaped,
        ⟨rest, offset + Text.byteLength (cs.flatMap write) + quote.utf8Size⟩, []⟩ := by
  obtain ⟨escaped, hrun⟩ := textRun_of_spells hwrite cs hfuel offset rest
  refine ⟨escaped, ?_⟩
  unfold scanString
  rw [hrun]
  dsimp only
  rw [decodeCodes?_toNat]
  rfl

end ModuleAssets.Syntax
