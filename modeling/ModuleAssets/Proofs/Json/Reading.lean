import ModuleAssets.Json.Outline
import ModuleAssets.Json.Printer
import ModuleAssets.Proofs.Syntax.Quoted
/-!
# Reading JSON — what is written compactly is read back

There are two readers: one gives the value of a text, and one passes over a value
unread. What is written for a value is read as this value, and passed over, in front of
whatever may come after it (`Reads`, `Passes`). This is shown for strings and whole
numbers, and from the values of its members for an object (`reads_object`,
`passes_object`), so that no induction over values is needed.
-/

namespace ModuleAssets.Json

/-! ## Strings -/

/-- **How a character is written**: as itself, as one letter after a backslash, or by its
code. -/
theorem escapeChar_cases (c : Char) :
    (escapeChar c = [c] ∧ c ≠ '"' ∧ c ≠ '\\' ∧ ¬ c.toNat < 0x20) ∨
      (∃ d ∈ ['"', '\\', 'b', 'f', 'n', 'r', 't'], escapeChar c = ['\\', d] ∧
        ∀ rest, escaped? (d :: rest) = some (c, rest)) ∨
      (c.toNat < 0x20 ∧
        escapeChar c = ['\\', 'u', '0', '0', hexDigit (c.toNat / 16), hexDigit (c.toNat % 16)]) := by
  have hcode {n : Nat} (h : c.toNat = n) : c = Char.ofNat n := by
    rw [← h, Char.ofNat_toNat]
  unfold escapeChar
  split
  · rename_i heq
    subst heq
    exact .inr (.inl ⟨'"', by decide, rfl, fun _ => rfl⟩)
  split
  · rename_i heq
    subst heq
    exact .inr (.inl ⟨'\\', by decide, rfl, fun _ => rfl⟩)
  rename_i hquote hbackslash
  split
  · rename_i hcontrol
    split
    · rename_i heq
      exact .inr (.inl ⟨'b', by decide, rfl, fun _ => hcode heq ▸ rfl⟩)
    split
    · rename_i heq
      exact .inr (.inl ⟨'t', by decide, rfl, fun _ => hcode heq ▸ rfl⟩)
    split
    · rename_i heq
      exact .inr (.inl ⟨'n', by decide, rfl, fun _ => hcode heq ▸ rfl⟩)
    split
    · rename_i heq
      exact .inr (.inl ⟨'f', by decide, rfl, fun _ => hcode heq ▸ rfl⟩)
    split
    · rename_i heq
      exact .inr (.inl ⟨'r', by decide, rfl, fun _ => hcode heq ▸ rfl⟩)
    · exact .inr (.inr ⟨hcontrol, rfl⟩)
  · rename_i hprinted
    exact .inl ⟨rfl, hquote, hbackslash, hprinted⟩

theorem hexQuad?_code {n : Nat} (h : n < 0x20) (rest : List Char) :
    hexQuad? ('0' :: '0' :: hexDigit (n / 16) :: hexDigit (n % 16) :: rest) = some (n, rest) := by
  have hhigh := Syntax.hexValue?_hexDigit (n / 16) (by omega)
  have hlow := Syntax.hexValue?_hexDigit (n % 16) (Nat.mod_lt _ (by decide))
  have hzero : hexValue? '0' = some 0 := by decide
  have hvalue : ((0 * 16 + 0) * 16 + n / 16) * 16 + n % 16 = n := by omega
  simp only [hexQuad?, hzero, hhigh, hlow, Option.bind_eq_bind, Option.bind_some, hvalue]
  rfl

theorem escaped?_code {c : Char} (h : c.toNat < 0x20) (rest : List Char) :
    escaped? ('u' :: '0' :: '0' :: hexDigit (c.toNat / 16) :: hexDigit (c.toNat % 16) :: rest) =
      some (c, rest) := by
  have hlow : ¬ (0xD800 ≤ c.toNat ∧ c.toNat < 0xDC00) := by omega
  have hhigh : ¬ (0xDC00 ≤ c.toNat ∧ c.toNat < 0xE000) := by omega
  simp only [escaped?, hexQuad?_code h, Option.bind_eq_bind, Option.bind_some, if_neg hlow,
    if_neg hhigh, Char.ofNat_toNat]
  rfl

/-- One character of a string is read. -/
theorem stringBody?_escapeChar (c : Char) (fuel : Nat) (rest : List Char) :
    stringBody? (fuel + 1) (escapeChar c ++ rest) =
      (stringBody? fuel rest).map fun (body, rest) => (c :: body, rest) := by
  have hescape {w : List Char} (h : escaped? (w ++ rest) = some (c, rest)) :
      stringBody? (fuel + 1) ('\\' :: (w ++ rest)) =
        (stringBody? fuel rest).map fun (body, rest) => (c :: body, rest) := by
    rw [stringBody?, if_neg (by decide), if_pos rfl, h, Option.bind_eq_bind, Option.bind_some]
    dsimp only
    cases stringBody? fuel rest <;> rfl
  obtain ⟨hself, hquote, hbackslash, hprinted⟩ | ⟨d, -, hletter, hread⟩ | ⟨hcontrol, hcode⟩ :=
    escapeChar_cases c
  · rw [hself, List.singleton_append, stringBody?, if_neg hquote, if_neg hbackslash,
      if_neg hprinted]
    cases stringBody? fuel rest <;> rfl
  · rw [hletter]
    exact hescape (w := [d]) (hread rest)
  · rw [hcode]
    exact hescape (w := ['u', '0', '0', _, _]) (escaped?_code hcontrol rest)

/-- One character of a string is passed over. -/
theorem afterString?_escapeChar (c : Char) (rest : List Char) :
    afterString? (escapeChar c ++ rest) = afterString? rest := by
  obtain ⟨hself, hquote, hbackslash, hprinted⟩ | ⟨d, hd, hletter, -⟩ | ⟨hcontrol, hcode⟩ :=
    escapeChar_cases c
  · rw [hself, List.singleton_append, afterString?, if_neg hprinted]
    · exact hquote
    · exact fun _ _ _ _ _ heq _ => hbackslash heq
    · exact fun _ _ heq _ => hbackslash heq
  · rw [hletter]
    simp only [List.mem_cons, List.not_mem_nil, or_false] at hd
    obtain rfl | rfl | rfl | rfl | rfl | rfl | rfl := hd <;> rfl
  · have hhigh := Syntax.hexValue?_hexDigit (c.toNat / 16) (by omega)
    have hlow := Syntax.hexValue?_hexDigit (c.toNat % 16) (Nat.mod_lt _ (by decide))
    have hzero : (hexValue? '0').isSome = true := by decide
    rw [hcode]
    show afterString? ('\\' :: 'u' :: '0' :: '0' :: _ :: _ :: rest) = _
    rw [afterString?, if_pos]
    simp [hhigh, hlow, hzero]

theorem length_pos_escapeChar (c : Char) : 0 < (escapeChar c).length := by
  obtain ⟨hself, -⟩ | ⟨d, -, hletter, -⟩ | ⟨-, hcode⟩ := escapeChar_cases c
  · rw [hself]
    exact Nat.one_pos
  · rw [hletter]
    exact Nat.two_pos
  · rw [hcode]
    exact Nat.succ_pos _

theorem stringBody?_quoted (cs : List Char) {fuel : Nat} (h : cs.length < fuel) (rest : List Char) :
    stringBody? fuel (cs.flatMap escapeChar ++ '"' :: rest) = some (cs, rest) := by
  induction cs generalizing fuel with
  | nil =>
    obtain ⟨fuel, rfl⟩ := Nat.exists_eq_add_of_lt h
    rfl
  | cons c cs ih =>
    obtain ⟨fuel, rfl⟩ := Nat.exists_eq_add_of_lt h
    have hrest : cs.length < (c :: cs).length + fuel := by
      rw [List.length_cons]
      omega
    rw [List.flatMap_cons, List.append_assoc, stringBody?_escapeChar, ih hrest]
    rfl

theorem length_le_flatMap_escapeChar (cs : List Char) :
    cs.length ≤ (cs.flatMap escapeChar).length := by
  induction cs with
  | nil => exact Nat.le_refl 0
  | cons c rest ih =>
    have := length_pos_escapeChar c
    rw [List.flatMap_cons, List.length_append, List.length_cons]
    omega

/-- **A string is read back.** -/
theorem stringAfterQuote?_quoted (s : String) (rest : List Char) :
    stringAfterQuote? (s.toList.flatMap escapeChar ++ '"' :: rest) = some (s, rest) := by
  have hfuel := length_le_flatMap_escapeChar s.toList
  rw [stringAfterQuote?, stringBody?_quoted]
  · rw [Option.map_some]
    exact congrArg (fun text => some (text, rest)) (String.ofList_toList ..)
  · rw [List.length_append, List.length_cons]
    omega

/-- **A string is passed over.** -/
theorem afterString?_quoted (cs rest : List Char) :
    afterString? (cs.flatMap escapeChar ++ '"' :: rest) = some rest := by
  induction cs with
  | nil => rfl
  | cons c cs ih => rw [List.flatMap_cons, List.append_assoc, afterString?_escapeChar, ih]

/-! ## Whole numbers -/

/-- What comes after a number does not go on with it. -/
def Ends (rest : List Char) : Prop :=
  ∀ c cs, rest = c :: cs → c.isDigit = false ∧ c ≠ '.' ∧ c ≠ 'e' ∧ c ≠ 'E'

theorem ends_nil : Ends [] :=
  fun _ _ => nofun

theorem ends_cons {c : Char} (h : c.isDigit = false ∧ c ≠ '.' ∧ c ≠ 'e' ∧ c ≠ 'E')
    (cs : List Char) : Ends (c :: cs) := by
  rintro c cs heq
  cases heq
  exact h

theorem head?_toDigits {n : Nat} (h : n ≠ 0) : (Nat.toDigits 10 n).head? ≠ some '0' := by
  induction n using Nat.strongRecOn with
  | _ n ih =>
    rw [Nat.toDigits_eq_if (by decide)]
    split
    · rename_i hsmall
      have hdigit : ∀ d < 10, d ≠ 0 → Nat.digitChar d ≠ '0' := by decide
      rw [List.head?_cons]
      exact fun heq => hdigit n hsmall h (Option.some.inj heq)
    · have hhead := ih (n / 10) (by omega) (by omega)
      obtain ⟨d, ds, hds⟩ := List.exists_cons_of_ne_nil
        (Nat.toDigits_ne_nil (b := 10) (n := n / 10))
      rw [hds] at hhead ⊢
      exact hhead

theorem takeWhile_digits {n : Nat} {rest : List Char} (h : Ends rest) :
    (Nat.toDigits 10 n ++ rest).takeWhile Char.isDigit = Nat.toDigits 10 n ∧
      (Nat.toDigits 10 n ++ rest).dropWhile Char.isDigit = rest := by
  have hdigits : ∀ c ∈ Nat.toDigits 10 n, c.isDigit = true :=
    fun c hc => Nat.isDigit_of_mem_toDigits (by decide) (by decide) hc
  rw [List.takeWhile_append_of_pos hdigits, List.dropWhile_append_of_pos hdigits]
  cases rest with
  | nil => exact ⟨List.append_nil _, rfl⟩
  | cons c cs =>
    have hc := (h c cs rfl).1
    rw [List.takeWhile_cons_of_neg (by simp [hc]), List.dropWhile_cons_of_neg (by simp [hc])]
    exact ⟨List.append_nil _, rfl⟩

/-- Digits of a number that fits 64 bits all fit. -/
theorem significand_eq (cs : List Char) {n : Nat} (h : Nat.ofDigitChars 10 cs n ≤ maxUnsigned) :
    significand n cs = (Nat.ofDigitChars 10 cs n, []) := by
  induction cs generalizing n with
  | nil => rfl
  | cons c cs ih =>
    rw [Nat.ofDigitChars_cons] at h
    have hgrow : ∀ m, m ≤ Nat.ofDigitChars 10 cs m := by
      intro m
      rw [Nat.ofDigitChars_eq_ofDigitChars_zero]
      have := Nat.le_mul_of_pos_left m (Nat.pow_pos (n := cs.length) (show 0 < 10 by decide))
      omega
    have hnext : 10 * n + Decimal.digitValue c ≤ maxUnsigned := Nat.le_trans (hgrow _) h
    rw [significand, if_neg (Nat.not_lt.2 hnext), Nat.ofDigitChars_cons]
    exact ih h

theorem unsigned?_toDigits {n : Nat} (hn : n ≤ maxUnsigned) {rest : List Char} (h : Ends rest) :
    unsigned? false (Nat.toDigits 10 n ++ rest) = some (.integer n, rest) := by
  obtain ⟨htake, hdrop⟩ := takeWhile_digits (n := n) h
  have hne : (Nat.toDigits 10 n).isEmpty = false := by
    rw [List.isEmpty_eq_false_iff]
    exact Nat.toDigits_ne_nil
  have hzero : ((Nat.toDigits 10 n).head? == some '0' && (Nat.toDigits 10 n).length != 1) =
      false := by
    by_cases hn : n = 0
    · subst hn
      rfl
    · rw [beq_false_of_ne (head?_toDigits hn), Bool.false_and]
  have hvalue : significand 0 (Nat.toDigits 10 n) = (n, []) := by
    rw [significand_eq _ (by rwa [Nat.ofDigitChars_ten_toDigits]), Nat.ofDigitChars_ten_toDigits]
  unfold unsigned?
  dsimp only
  rw [htake, hdrop, hne, hzero, hvalue, if_neg (by decide)]
  cases rest with
  | nil => rfl
  | cons c cs =>
    obtain ⟨-, hpoint, he, hE⟩ := h c cs rfl
    dsimp only
    split
    · rename_i heq
      exact absurd (List.cons.inj heq).1 hpoint
    · rename_i heq
      obtain ⟨rfl, rfl⟩ := List.cons.inj heq
      rw [if_neg (by simp [he, hE])]
      rfl
    · rename_i heq
      cases heq

theorem afterNumber?_toDigits (n : Nat) {rest : List Char} (h : Ends rest) :
    afterNumber? (Nat.toDigits 10 n ++ rest) = some rest := by
  obtain ⟨-, hdrop⟩ := takeWhile_digits (n := n) h
  have hwhole : afterWhole? (Nat.toDigits 10 n ++ rest) = some rest := by
    obtain ⟨d, ds, hds⟩ := List.exists_cons_of_ne_nil (Nat.toDigits_ne_nil (b := 10) (n := n))
    have hd : d.isDigit = true :=
      Nat.isDigit_of_mem_toDigits (n := n) (by decide) (by decide) (hds ▸ List.mem_cons_self)
    by_cases hn : n = 0
    · subst hn
      obtain rfl | ⟨c, cs, rfl⟩ : rest = [] ∨ ∃ c cs, rest = c :: cs := by
        cases rest with
        | nil => exact .inl rfl
        | cons c cs => exact .inr ⟨c, cs, rfl⟩
      · rfl
      · show (if c.isDigit = true then none else some (c :: cs)) = _
        rw [(h c cs rfl).1]
        rfl
    · have hhead := head?_toDigits hn
      rw [hds] at hhead hdrop ⊢
      unfold afterWhole?
      split
      · rename_i heq
        exact absurd (congrArg some (List.cons.inj heq).1) hhead
      · rw [afterDigits?, if_pos (by exact hd), hdrop]
  have hfraction : afterFraction? rest = some rest := by
    unfold afterFraction?
    split
    · exact absurd rfl (h _ _ rfl).2.1
    · rfl
  have hexponent : afterExponent? rest = some rest := by
    unfold afterExponent?
    split
    · rename_i c cs
      rw [if_neg (not_or.2 (h c cs rfl).2.2)]
    · rfl
  rw [afterNumber?, hwhole, Option.bind_eq_bind, Option.bind_some, hfraction,
    Option.bind_some, hexponent]

/-! ## Values -/

/-- The characters are read as the value, in front of whatever ends a number. -/
def Reads (depth : Nat) (v : Json) (w : List Char) : Prop :=
  ∀ rest, Ends rest → value? depth (w ++ rest) = some (v, rest)

/-- How passing over a value goes on. -/
def goOn (fuel : Nat) : Option Following → Option (List Char)
  | some (.done rest) => some rest
  | some (.value open_ rest) => afterValue? fuel open_ rest
  | none => none

theorem afterValue?_succ (fuel : Nat) (open_ cs : List Char) :
    afterValue? (fuel + 1) open_ cs = goOn fuel (enterValue? open_ cs) := by
  rw [afterValue?]
  cases enterValue? open_ cs with
  | none => rfl
  | some following => cases following <;> rfl

/-- The characters are passed over as one value, with no more steps than characters. -/
def Passes (w : List Char) : Prop :=
  ∃ cost ≤ w.length, ∀ fuel open_ rest, Ends rest →
    afterValue? (fuel + cost) open_ (w ++ rest) = goOn fuel (closeBrackets? open_ rest)

/-- **A value that is passed over is cut out of the text.** -/
theorem unread?_eq {w rest : List Char} (h : Passes w) (hrest : Ends rest) :
    unread? (w ++ rest) = some (w, rest) := by
  obtain ⟨cost, hcost, hpasses⟩ := h
  have hfuel : (w ++ rest).length + 1 = (w ++ rest).length + 1 - cost + cost := by
    rw [List.length_append]
    omega
  have hlength : (w ++ rest).length - rest.length = w.length := by
    rw [List.length_append, Nat.add_sub_cancel]
  rw [unread?, hfuel, hpasses _ [] rest hrest]
  show some (List.take ((w ++ rest).length - rest.length) (w ++ rest), rest) = _
  rw [hlength, List.take_left]

theorem toList_quote (s : String) :
    (quote s).toList = '"' :: (s.toList.flatMap escapeChar ++ ['"']) := by
  rw [quote, String.toList_ofList, quoteChars]

theorem compact_string (s : String) : compact (.string s) = quote s := by
  rw [compact, scalarText]
  · exact nofun
  · exact nofun

theorem toList_compact_integer (n : Nat) : (compact (.integer n)).toList = Nat.toDigits 10 n := by
  rw [compact, scalarText]
  · exact Nat.toList_repr
  · exact nofun
  · exact nofun

/-- **A string is a value.** -/
theorem reads_string (depth : Nat) (s : String) :
    Reads depth (.string s) (compact (.string s)).toList := by
  intro rest _
  have hread := stringAfterQuote?_quoted s rest
  rw [compact_string, toList_quote, List.cons_append, List.append_assoc, value?]
  show (stringAfterQuote? (s.toList.flatMap escapeChar ++ '"' :: rest)).map _ = _
  rw [hread]
  rfl

theorem passes_string (s : String) : Passes (compact (.string s)).toList := by
  rw [compact_string, toList_quote]
  refine ⟨1, Nat.le_add_left 1 _, fun fuel open_ rest _ => ?_⟩
  have hpass := afterString?_quoted s.toList rest
  rw [List.cons_append, List.append_assoc, afterValue?_succ]
  show goOn fuel ((afterString? (s.toList.flatMap escapeChar ++ '"' :: rest)).bind _) = _
  rw [hpass, Option.bind_some]

/-- A number starts with a digit, and so with nothing else that a value starts with. -/
theorem exists_digit (n : Nat) :
    ∃ d ds, Nat.toDigits 10 n = d :: ds ∧ ∀ c : Char, c.isDigit = false → d ≠ c := by
  obtain ⟨d, ds, hds⟩ := List.exists_cons_of_ne_nil (Nat.toDigits_ne_nil (b := 10) (n := n))
  have hd : d.isDigit = true :=
    Nat.isDigit_of_mem_toDigits (n := n) (by decide) (by decide) (hds ▸ List.mem_cons_self)
  refine ⟨d, ds, hds, fun c hc heq => ?_⟩
  rw [heq, hc] at hd
  cases hd

theorem skipBlanks_of_ne {d : Char} (h : ∀ c : Char, c.isDigit = false → d ≠ c) (cs : List Char) :
    skipBlanks (d :: cs) = d :: cs := by
  refine List.dropWhile_cons_of_neg ?_
  rw [beq_false_of_ne (h ' ' rfl), beq_false_of_ne (h '\n' rfl), beq_false_of_ne (h '\t' rfl),
    beq_false_of_ne (h '\r' rfl)]
  exact Bool.false_ne_true

/-- **A whole number is a value.** -/
theorem reads_integer (depth : Nat) {n : Nat} (h : n ≤ maxUnsigned) :
    Reads depth (.integer n) (compact (.integer n)).toList := by
  intro rest hrest
  have hread := unsigned?_toDigits h hrest
  obtain ⟨d, ds, hds, hne⟩ := exists_digit n
  rw [toList_compact_integer]
  rw [hds, List.cons_append] at hread ⊢
  unfold value?
  rw [skipBlanks_of_ne hne]
  split
  case h_8 => exact hread
  all_goals exact absurd (List.cons.inj ‹d :: _ = _›).1 (hne _ rfl)

theorem passes_integer (n : Nat) : Passes (compact (.integer n)).toList := by
  rw [toList_compact_integer]
  refine ⟨1, Nat.length_toDigits_pos, fun fuel open_ rest hrest => ?_⟩
  have hpass := afterNumber?_toDigits n hrest
  obtain ⟨d, ds, hds, hne⟩ := exists_digit n
  rw [hds, List.cons_append] at hpass ⊢
  have hscalar : afterScalar? (d :: (ds ++ rest)) = some rest := by
    unfold afterScalar?
    split
    case h_6 => exact hpass
    all_goals exact absurd (List.cons.inj ‹d :: _ = _›).1 (hne _ rfl)
  rw [afterValue?_succ]
  unfold enterValue?
  rw [skipBlanks_of_ne hne]
  split
  case h_3 => rw [hscalar, Option.bind_some]
  all_goals exact absurd (List.cons.inj ‹d :: _ = _›).1 (hne _ rfl)

/-! ## Objects -/

/-- Members as they are written, each after a comma. -/
def moreMembers : List (String × List Char) → List Char
  | [] => []
  | (key, w) :: rest => ',' :: (quoteChars key.toList ++ ':' :: (w ++ moreMembers rest))

/-- The members of an object between its brackets. -/
def objectChars (members : List (String × List Char)) : List Char :=
  '\x7b' :: ((moreMembers members).drop 1 ++ ['\x7d'])

theorem toList_compactMembers (members : List (String × Json)) :
    (compactMembers members).toList =
      (moreMembers (members.map fun m => (m.1, (compact m.2).toList))).drop 1 := by
  induction members with
  | nil => rfl
  | cons m rest ih =>
    obtain ⟨key, v⟩ := m
    cases rest with
    | nil =>
      rw [compactMembers]
      simp [moreMembers, quote]
    | cons next rest =>
      rw [compactMembers, String.toList_append, ih]
      · simp [moreMembers, quote]
      · exact nofun

/-- **How an object is written.** -/
theorem toList_compact_object (members : List (String × Json)) :
    (compact (.object members)).toList =
      objectChars (members.map fun m => (m.1, (compact m.2).toList)) := by
  rw [compact, String.toList_append, String.toList_append, toList_compactMembers]
  rfl

theorem length_le_moreMembers (members : List (String × List Char)) :
    members.length ≤ (moreMembers members).length := by
  induction members with
  | nil => exact Nat.le_refl 0
  | cons m rest ih =>
    obtain ⟨key, w⟩ := m
    rw [moreMembers]
    simp only [List.length_cons, List.length_append]
    omega

/-- Members end the number in front of them. -/
theorem ends_moreMembers (members : List (String × List Char)) (rest : List Char) :
    Ends (moreMembers members ++ '\x7d' :: rest) := by
  cases members with
  | nil => exact ends_cons (by decide) _
  | cons m members => exact ends_cons (by decide) _

section

variable {α : Type} {item : List Char → Option (α × List Char)}

theorem memberPair?_written (key : String) {w rest : List Char} {v : α}
    (h : item (w ++ rest) = some (v, rest)) :
    memberPair? item (quoteChars key.toList ++ ':' :: (w ++ rest)) = some ((key, v), rest) := by
  have hkey := stringAfterQuote?_quoted key (':' :: (w ++ rest))
  rw [quoteChars, List.cons_append, List.append_assoc]
  show ((stringAfterQuote? (key.toList.flatMap escapeChar ++ '"' :: ':' :: (w ++ rest))).bind _) = _
  rw [hkey, Option.bind_some]
  show ((item (w ++ rest)).bind _) = _
  rw [h]
  rfl

/-- **Members are read** as far as their values are. -/
theorem members?_written {text : α → List Char} {members : List (String × α)} (hne : members ≠ [])
    (h : ∀ m ∈ members, ∀ rest, Ends rest → item (text m.2 ++ rest) = some (m.2, rest)) {fuel : Nat}
    (hfuel : members.length ≤ fuel) (rest : List Char) :
    members? item fuel
        ((moreMembers (members.map fun m => (m.1, text m.2))).drop 1 ++ '\x7d' :: rest) =
      some (members, rest) := by
  induction members generalizing fuel with
  | nil => exact absurd rfl hne
  | cons m members ih =>
    obtain ⟨key, v⟩ := m
    obtain ⟨fuel, rfl⟩ := Nat.exists_eq_add_of_le hfuel
    have hpair := memberPair?_written key (h (key, v) List.mem_cons_self _
      (ends_moreMembers (members.map fun m => (m.1, text m.2)) rest))
    rw [List.map_cons, moreMembers, List.drop_one, List.tail_cons, List.append_assoc,
      List.cons_append, List.append_assoc, List.length_cons, Nat.add_right_comm, members?, hpair]
    cases members with
    | nil => rfl
    | cons next members =>
      have hrest := ih (List.cons_ne_nil _ _) (fun m hm => h m (List.mem_cons_of_mem _ hm))
        (Nat.le_add_right (next :: members).length fuel)
      have hcomma (cs : List (String × List Char)) (hcs : cs ≠ []) :
          separator? '\x7d' (moreMembers cs ++ '\x7d' :: rest) =
            some (true, (moreMembers cs).drop 1 ++ '\x7d' :: rest) := by
        obtain ⟨m, cs, rfl⟩ := List.exists_cons_of_ne_nil hcs
        rfl
      simp only [Option.bind_eq_bind, Option.bind_some, if_true, hrest,
        hcomma _ (fun hnil => List.cons_ne_nil next members (List.map_eq_nil_iff.1 hnil))]
      rfl

/-- There are not more members than characters. -/
theorem members?_all (text : α → List Char) {members : List (String × α)} (hne : members ≠ [])
    (h : ∀ m ∈ members, ∀ rest, Ends rest → item (text m.2 ++ rest) = some (m.2, rest))
    (rest : List Char) :
    let cs := (moreMembers (members.map fun m => (m.1, text m.2))).drop 1 ++ '\x7d' :: rest
    members? item (cs.length + 1) cs = some (members, rest) := by
  refine members?_written hne h ?_ rest
  have hlength := length_le_moreMembers (members.map fun m => (m.1, text m.2))
  rw [List.length_map] at hlength
  rw [List.length_append, List.length_drop, List.length_cons]
  omega

end

/-- **An object of values is a value.** -/
theorem reads_object {depth : Nat} {members : List (String × Json)}
    (h : ∀ m ∈ members, Reads depth m.2 (compact m.2).toList) :
    Reads (depth + 1) (.object members) (compact (.object members)).toList := by
  intro rest _
  rw [toList_compact_object, objectChars, List.cons_append, List.append_assoc]
  cases members with
  | nil => rfl
  | cons m members =>
    have hread := members?_all (fun v => (compact v).toList) (List.cons_ne_nil m members) h rest
    rw [value?]
    show ((members? (value? depth) _ _).map _) = _
    exact congrArg (Option.map _) hread

theorem enterValue?_object (open_ : List Char) (members : List (String × List Char))
    (rest : List Char) :
    enterValue? open_ (objectChars members ++ rest) =
      closeBrackets? ('\x7d' :: open_) (moreMembers members ++ '\x7d' :: rest) := by
  rw [objectChars, List.cons_append, List.append_assoc]
  cases members with
  | nil => rfl
  | cons m members => rfl

theorem afterKey?_written (key : String) (cs : List Char) :
    afterKey? (quoteChars key.toList ++ ':' :: cs) = some cs := by
  have hkey := afterString?_quoted key.toList (':' :: cs)
  rw [quoteChars, List.cons_append, List.append_assoc]
  show ((afterString? (key.toList.flatMap escapeChar ++ '"' :: ':' :: cs)).bind _) = _
  rw [hkey]
  rfl

/-- **Members are passed over** as far as their values are. -/
theorem exists_cost_moreMembers (members : List (String × List Char))
    (h : ∀ m ∈ members, Passes m.2) :
    ∃ cost ≤ (moreMembers members).length, ∀ fuel open_ rest,
      goOn (fuel + cost)
          (closeBrackets? ('\x7d' :: open_) (moreMembers members ++ '\x7d' :: rest)) =
        goOn fuel (closeBrackets? open_ rest) := by
  induction members with
  | nil => exact ⟨0, Nat.le_refl 0, fun _ _ _ => rfl⟩
  | cons m members ih =>
    obtain ⟨key, w⟩ := m
    obtain ⟨cost, hcost, hpasses⟩ := h (key, w) List.mem_cons_self
    obtain ⟨costs, hcosts, hrest⟩ := ih fun m hm => h m (List.mem_cons_of_mem _ hm)
    refine ⟨costs + cost, ?_, fun fuel open_ rest => ?_⟩
    · have hcost : cost ≤ w.length := hcost
      rw [moreMembers]
      simp only [List.length_cons, List.length_append]
      omega
    have hkey : closeBrackets? ('\x7d' :: open_) (moreMembers ((key, w) :: members) ++ '\x7d' :: rest) =
        some (.value ('\x7d' :: open_) (w ++ (moreMembers members ++ '\x7d' :: rest))) := by
      rw [moreMembers, List.cons_append, List.append_assoc, List.cons_append, List.append_assoc]
      show (afterKey? (quoteChars key.toList ++ ':' :: _)).map _ = _
      rw [afterKey?_written]
      rfl
    rw [hkey, ← Nat.add_assoc]
    exact (hpasses _ _ _ (ends_moreMembers members rest)).trans (hrest fuel open_ rest)

theorem passes_object {members : List (String × Json)}
    (h : ∀ m ∈ members, Passes (compact m.2).toList) :
    Passes (compact (.object members)).toList := by
  rw [toList_compact_object]
  obtain ⟨cost, hcost, hmembers⟩ := exists_cost_moreMembers
    (members.map fun m => (m.1, (compact m.2).toList)) fun m hm => by
      obtain ⟨member, hmember, rfl⟩ := List.mem_map.1 hm
      exact h member hmember
  refine ⟨cost + 1, ?_, fun fuel open_ rest _ => ?_⟩
  · rw [objectChars]
    simp only [List.length_cons, List.length_append, List.length_drop, List.length_nil]
    omega
  · rw [← Nat.add_assoc, afterValue?_succ, enterValue?_object, hmembers]

/-! ## Outlines -/

/-- **The outline of an object** has the texts of its members. -/
theorem outline?_object {members : List (String × Json)} (hne : members ≠ [])
    (h : ∀ m ∈ members, Passes (compact m.2).toList) :
    outline? (compact (.object members)) =
      some (.members (members.map fun m => (m.1, (compact m.2).toList))) := by
  have hunread : ∀ m ∈ members.map fun m => (m.1, (compact m.2).toList), ∀ rest, Ends rest →
      unread? (id m.2 ++ rest) = some (m.2, rest) := by
    intro m hm rest hrest
    obtain ⟨member, hmember, rfl⟩ := List.mem_map.1 hm
    exact unread?_eq (h member hmember) hrest
  have hread := members?_all id (fun hnil => hne (List.map_eq_nil_iff.1 hnil)) hunread []
  have hkept : ((members.map fun m => (m.1, (compact m.2).toList)).map fun m => (m.1, id m.2)) =
      members.map fun m => (m.1, (compact m.2).toList) := List.map_id' _
  rw [hkept] at hread
  rw [outline?, toList_compact_object, objectChars]
  obtain ⟨m, members, rfl⟩ := List.exists_cons_of_ne_nil hne
  show (((members? unread? _ _).map _).bind _) = _
  refine (congrArg (fun read => (Option.map _ read).bind _) hread).trans ?_
  rfl

/-- **A value inside an object is read.** -/
theorem valueOf?_of_reads {v : Json} {w : List Char} (h : Reads (maxDepth - 1) v w) :
    valueOf? w = some v := by
  have hread := h [] ends_nil
  rw [List.append_nil] at hread
  rw [valueOf?, hread]
  rfl

/-- **An object inside an object is read**, if its values are. -/
theorem valueOf?_object {members : List (String × Json)}
    (h : ∀ m ∈ members, ∀ depth, Reads depth m.2 (compact m.2).toList) :
    valueOf? (compact (.object members)).toList = some (.object members) := by
  have hdepth : maxDepth - 1 = maxDepth - 2 + 1 := by decide
  refine valueOf?_of_reads ?_
  rw [hdepth]
  exact reads_object fun m hm => h m hm _

end ModuleAssets.Json
