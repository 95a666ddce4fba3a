import ModuleAssets.Asset.Plan
import ModuleAssets.Proofs.Asset.Numbered
import ModuleAssets.Proofs.Path.Rooted
/-!
# Descending paths — names that lead nowhere but down

A path descends if all its pieces are names: none of them is empty or a step. The names of
assets come about in few ways, and each of these makes a path that descends: the last name
of a path that is worked out (`basename_rooted`), what such a path has below another
(`descends_below?`), and a number put in before an extension (`descends_numbered`).

What stands below another path is found by comparing characters, not names. So it may
begin in the middle of a name, and what is left of a name may be a step though the name is
none.
-/

namespace ModuleAssets

theorem Text.dropPrefix?_eq_some {cs beginning rest : List Char} :
    dropPrefix? cs beginning = some rest ↔ cs = beginning ++ rest := by
  induction beginning generalizing cs with
  | nil =>
    cases cs with
    | nil => exact Option.some_inj
    | cons c cs => exact Option.some_inj
  | cons b beginning ih =>
    cases cs with
    | nil => exact iff_of_false nofun nofun
    | cons c cs =>
      rw [dropPrefix?, List.cons_append, List.cons.injEq]
      split
      · rename_i hc
        exact ih.trans (and_iff_right (beq_iff_eq.1 hc)).symm
      · rename_i hc
        exact iff_of_false nofun fun h => hc (beq_iff_eq.2 h.1)

namespace Path

variable {front back name path : List Char} {names : List (List Char)}

/-- All pieces of the path are names. -/
def Descends (path : List Char) : Prop :=
  ∀ piece ∈ pieces path, IsPlain piece

instance (segment : List Char) : Decidable (IsPlain segment) :=
  inferInstanceAs (Decidable (_ ∧ _ ∧ _ ∧ _))

instance (path : List Char) : Decidable (Descends path) :=
  inferInstanceAs (Decidable (∀ piece ∈ pieces path, IsPlain piece))

/-- A text goes on after the last of the characters, or it has none. -/
theorem exists_lastOf (c : Char) (cs : List Char) :
    c ∉ cs ∨ ∃ front last, cs = front ++ c :: last ∧ c ∉ last := by
  by_cases hmem : c ∈ cs
  · obtain ⟨before, after, hcs, hbefore⟩ :=
      List.eq_append_cons_of_mem (List.mem_reverse.2 hmem)
    refine .inr ⟨after.reverse, before.reverse, ?_, List.mem_reverse.not.2 hbefore⟩
    rw [← List.reverse_reverse cs, hcs]
    simp
  · exact .inl hmem

theorem descends_append : Descends (front ++ '/' :: back) ↔ Descends front ∧ Descends back := by
  rw [Descends, pieces_append, List.forall_mem_append]
  rfl

theorem descends_iff_of_not_mem (h : '/' ∉ name) : Descends name ↔ IsPlain name := by
  rw [Descends, pieces_eq_singleton h]
  exact List.forall_mem_singleton

theorem IsPlain.descends (h : IsPlain name) : Descends name :=
  (descends_iff_of_not_mem h.2.2.2).2 h

theorem descends_joined (hne : names ≠ []) (h : ∀ n ∈ names, IsPlain n) :
    Descends (Text.joinWithChar '/' names) := by
  rw [Descends, pieces_joined hne fun n hn => (h n hn).2.2.2]
  exact h

theorem Descends.ne_nil (h : Descends path) : path ≠ [] := by
  rintro rfl
  exact (h [] List.mem_cons_self).1 rfl

/-! ## The last name -/

theorem basenameChars_name (front : List Char) (h : IsPlain name) :
    basenameChars (front ++ '/' :: name) = name := by
  have htrimmed : trimSlashes (front ++ '/' :: name) = front ++ '/' :: name := by
    rw [List.append_cons]
    exact trimSlashes_name _ h
  have hne : front ++ '/' :: name ≠ ['/'] := fun heq => by
    have hlength := congrArg List.length heq
    rw [List.length_append, List.length_cons, List.length_singleton] at hlength
    exact h.1 (List.length_eq_zero_iff.1 (by omega))
  rw [basenameChars, htrimmed]
  exact (if_neg hne).trans (congrArg Prod.snd (splitLast_name front h.2.2.2))

theorem basename_name (front : List Char) (h : IsPlain name) :
    basename (String.ofList (front ++ '/' :: name)) none = String.ofList name := by
  rw [basename, String.toList_ofList, basenameChars_name front h]

theorem basename_rooted (names : List (List Char)) (h : IsPlain name) :
    basename (String.ofList (rooted (names ++ [name]))) none = String.ofList name := by
  rw [rooted_concat, basename_name _ h]

theorem normalSegments_name (front : List Char) (h : IsPlain name) :
    normalSegments (front ++ '/' :: name) = normalSegments (front ++ ['/']) ++ [name] := by
  rw [normalSegments_append, pieces_eq_singleton h.2.2.2, List.foldl_cons, List.foldl_nil,
    keepSegment_plain h, List.reverse_cons, List.reverse_reverse]

/-- A path that ends with a name leads to something of that name. -/
theorem exists_rooted_of_resolve_name {directory target path : String} (h : IsPlain name)
    (htarget : target.toList = front ++ '/' :: name)
    (hresolved : resolve [directory, target] = some path) :
    ∃ names, path = String.ofList (rooted (names ++ [name])) := by
  obtain ⟨parts, hparts, rfl⟩ := Option.map_eq_some_iff.1 hresolved
  have habsolute := isAbsoluteChars_sinceAbsolute hparts
  have hends : ∃ before, Text.joinWithChar '/' parts = before ++ '/' :: name := by
    have hne : target.toList ≠ [] := by
      rw [htarget]
      exact List.append_ne_nil_of_right_ne_nil _ (List.cons_ne_nil _ _)
    change sinceAbsolute [target.toList, directory.toList] = some parts at hparts
    rw [sinceAbsolute, if_neg hne] at hparts
    split at hparts
    · cases hparts
      exact ⟨front, htarget⟩
    · obtain ⟨first, hfirst, rfl⟩ := Option.map_eq_some_iff.1 hparts
      rw [sinceAbsolute] at hfirst
      split at hfirst
      · cases hfirst
      · split at hfirst
        · cases hfirst
          refine ⟨directory.toList ++ '/' :: front, ?_⟩
          show directory.toList ++ '/' :: target.toList = _
          rw [htarget, List.append_assoc, List.cons_append]
        · cases hfirst
  obtain ⟨before, hbefore⟩ := hends
  refine ⟨normalSegments (before ++ ['/']), congrArg String.ofList ?_⟩
  rw [trimSlashes_normalizeChars habsolute, hbefore, normalSegments_name before h]

/-- What ends in more than two characters is no step. -/
theorem plain_of_suffix {ending : List Char} (hslash : '/' ∉ name) (h : ending <:+ name)
    (hlength : 2 < ending.length) : IsPlain name := by
  have hle := h.length_le
  refine ⟨?_, ?_, ?_, hslash⟩ <;> rintro rfl <;> simp only [List.length_cons, List.length_nil] at hle
    <;> omega

/-- What ends a path of several names ends its last name. -/
theorem exists_last_of_mem {ending : List Char} (hmem : '/' ∈ path) (h : ending <:+ path)
    (hslash : '/' ∉ ending) :
    ∃ front name, path = front ++ '/' :: name ∧ '/' ∉ name ∧ ending <:+ name := by
  obtain hnone | ⟨front, name, rfl, hname⟩ := exists_lastOf '/' path
  · exact absurd hmem hnone
  · refine ⟨front, name, rfl, hname, ?_⟩
    obtain hshort | hlong := List.suffix_or_suffix_of_suffix h (List.suffix_append front ('/' :: name))
    · obtain heq | hsuffix := List.suffix_cons_iff.1 hshort
      · exact absurd (heq ▸ List.mem_cons_self) hslash
      · exact hsuffix
    · exact absurd (hlong.subset List.mem_cons_self) hslash

/-- An absolute path has a slash. -/
theorem mem_of_isAbsoluteChars (h : isAbsoluteChars path = true) : '/' ∈ path := by
  cases path with
  | nil => cases h
  | cons c rest => exact beq_iff_eq.1 h ▸ List.mem_cons_self

/-- An absolute path that ends so has a last name that ends so. -/
theorem exists_last_of_suffix {ending : List Char} (habsolute : isAbsoluteChars path = true)
    (h : ending <:+ path) (hslash : '/' ∉ ending) :
    ∃ front name, path = front ++ '/' :: name ∧ '/' ∉ name ∧ ending <:+ name :=
  exists_last_of_mem (mem_of_isAbsoluteChars habsolute) h hslash

/-- **What ends a path still ends it when it is worked out**, unless it may be a step. -/
theorem isSuffix_resolve {directory target resolved : String} {ending : List Char}
    (hmem : '/' ∈ target.toList) (h : ending <:+ target.toList) (hslash : '/' ∉ ending)
    (hlength : 2 < ending.length) (hresolve : resolve [directory, target] = some resolved) :
    ending <:+ resolved.toList := by
  obtain ⟨front, name, htarget, hname, hending⟩ := exists_last_of_mem hmem h hslash
  obtain ⟨names, rfl⟩ :=
    exists_rooted_of_resolve_name (plain_of_suffix hname hending hlength) htarget hresolve
  rw [String.toList_ofList, rooted_concat]
  exact (hending.trans (List.suffix_cons '/' name)).trans (List.suffix_append _ _)

theorem isSuffix_normalize {target : String} {ending : List Char}
    (habsolute : isAbsolute target = true) (h : ending <:+ target.toList) (hslash : '/' ∉ ending)
    (hlength : 2 < ending.length) : ending <:+ (normalize target).toList := by
  obtain ⟨front, name, htarget, hname, hending⟩ := exists_last_of_suffix habsolute h hslash
  have hplain := plain_of_suffix hname hending hlength
  have hend : endsWithSlash target.toList = false := by
    rw [htarget, List.append_cons, endsWithSlash_append _ hplain.1]
    exact beq_false_of_ne fun hlast => hname (List.mem_of_getLast? hlast)
  rw [normalize, String.toList_ofList, normalizeChars_eq_rooted habsolute hend, htarget,
    normalSegments_name front hplain, rooted_concat]
  exact (hending.trans (List.suffix_cons '/' name)).trans (List.suffix_append _ _)

/-! ## What stands below another path -/

theorem Descends.dropWhile_slash (h : Descends path) : path.dropWhile (· == '/') = path := by
  cases path with
  | nil => rfl
  | cons c rest =>
    refine List.dropWhile_cons_of_neg fun hc => ?_
    obtain rfl : c = '/' := beq_iff_eq.1 hc
    have hfirst : Descends ([] ++ '/' :: rest) := h
    exact (descends_append.1 hfirst).1.ne_nil rfl

/-- What comes after a slash in a path with some names descends. -/
theorem descends_of_rooted (hne : names ≠ []) (hnames : ∀ n ∈ names, IsPlain n)
    (hpath : rooted names = front ++ '/' :: back) : Descends back := by
  have hpieces : pieces front ++ pieces back = [] :: names := by
    rw [← pieces_append, ← hpath, pieces_rooted hnames, if_neg hne]
  intro piece hpiece
  -- the empty piece before the first slash is one of the front
  cases hfront : pieces front with
  | nil => exact absurd hfront (Text.splitAtChar_ne_nil '/' front)
  | cons first others =>
    rw [hfront, List.cons_append, List.cons.injEq] at hpieces
    exact hnames piece (hpieces.2 ▸ List.mem_append_right _ hpiece)

/-- What is left of a name after some of its characters is no step, unless there are just
dots before the next slash or the end. -/
theorem descends_of_middle {c : Char} (hne : names ≠ []) (hnames : ∀ n ∈ names, IsPlain n)
    (hpath : rooted names = front ++ c :: back) (hc : c ≠ '/')
    (hend : '/' ∉ c :: back → IsPlain (c :: back))
    (hdots : ∀ rest, c :: back ≠ '.' :: '/' :: rest ∧ c :: back ≠ '.' :: '.' :: '/' :: rest) :
    Descends (c :: back) := by
  by_cases hslash : '/' ∈ c :: back
  · obtain ⟨first, rest, hsplit, hfirst⟩ := List.eq_append_cons_of_mem hslash
    rw [hsplit] at hpath hdots ⊢
    refine descends_append.2 ⟨(descends_iff_of_not_mem hfirst).2 ⟨?_, ?_, ?_, hfirst⟩, ?_⟩
    · rintro rfl
      exact hc (List.cons.inj hsplit).1
    · rintro rfl
      exact (hdots rest).1 rfl
    · rintro rfl
      exact (hdots rest).2 rfl
    · rw [← List.append_assoc] at hpath
      exact descends_of_rooted hne hnames hpath
  · exact (descends_iff_of_not_mem hslash).2 (hend hslash)

/-! ## Numbers in names -/

/-- Digits put in before an end without slashes make no step of a name. -/
theorem Descends.insert {digits ending : List Char} (h : Descends (front ++ back))
    (hdigits : ∃ d ∈ digits, d ≠ '.') (hslash : '/' ∉ digits ++ ending) :
    Descends (front ++ (digits ++ ending)) := by
  obtain ⟨d, hd, hdot⟩ := hdigits
  have hplain (stem : List Char) (hstem : '/' ∉ stem) : IsPlain (stem ++ (digits ++ ending)) := by
    have hmem : d ∈ stem ++ (digits ++ ending) :=
      List.mem_append_right _ (List.mem_append_left _ hd)
    refine ⟨List.ne_nil_of_mem hmem, fun heq => ?_, fun heq => ?_,
      List.mem_append.not.2 (not_or.2 ⟨hstem, hslash⟩)⟩ <;>
    · rw [heq] at hmem
      simp only [List.mem_cons, List.not_mem_nil, or_false, or_self] at hmem
      exact hdot hmem
  obtain hnone | ⟨directory, stem, rfl, hstem⟩ := exists_lastOf '/' front
  · exact (hplain front hnone).descends
  · rw [List.append_assoc, List.cons_append] at h ⊢
    exact descends_append.2 ⟨(descends_append.1 h).1, (hplain stem hstem).descends⟩

theorem not_mem_basenameChars (path : List Char) : '/' ∉ basenameChars path := by
  have hlast (cs : List Char) : '/' ∉ (cs.reverse.takeWhile (· != '/')).reverse := fun hmem => by
    simpa using List.all_eq_true.1 List.all_takeWhile '/' (List.mem_reverse.1 hmem)
  rw [basenameChars]
  split
  · exact List.not_mem_nil
  · rw [splitLast]
    split
    · exact hlast _
    · -- nothing stands before the last slash, so that there is none
      rename_i hlength
      have hall := (reverse_takeWhile_reverse_isSuffix (· != '/') (trimSlashes path)).eq_of_length_le
        (Nat.le_of_not_lt hlength)
      have hnone := hlast (trimSlashes path)
      rwa [hall] at hnone

theorem not_mem_extname (path : String) : '/' ∉ (extname path).toList := by
  rw [extname]
  split
  · exact List.not_mem_nil
  · rw [String.toList_ofList]
    exact fun hmem => not_mem_basenameChars _ ((extension_isSuffix _).subset hmem)

end Path

/-- **A numbered name descends** where the preferred one does. -/
theorem Registry.descends_numbered {preferred : String} (h : Path.Descends preferred.toList)
    (number : Nat) : Path.Descends (numbered preferred number).toList := by
  have hdigit {d : Char} (hd : d ∈ Nat.toDigits 10 number) : d ≠ '.' ∧ d ≠ '/' := by
    have hisDigit := Nat.isDigit_of_mem_toDigits (by decide) (by decide) hd
    constructor <;> rintro rfl <;> cases hisDigit
  obtain ⟨d, hd⟩ := List.exists_mem_of_ne_nil (Nat.toDigits 10 number) Nat.toDigits_ne_nil
  rw [toList_numbered, List.append_assoc]
  refine Path.Descends.insert ((List.take_append_drop _ preferred.toList).symm ▸ h)
    ⟨d, hd, (hdigit hd).1⟩ (List.mem_append.not.2 (not_or.2 ⟨fun hmem => (hdigit hmem).2 rfl, ?_⟩))
  exact Path.not_mem_extname preferred

namespace Naming

open ModuleAssets.Path

/-- **What an addon has below its package descends**, if its path is worked out and does
not go on with dots alone where the path of the package ends. -/
theorem descends_below? {names : List (List Char)} (hnames : ∀ n ∈ names, IsPlain n)
    {path base rest : String} (hpath : path = String.ofList (rooted names))
    (hending : Text.endsWith path ".node" = true)
    (hdot : Text.startsWith path (base ++ "./") = false)
    (hdots : Text.startsWith path (base ++ "../") = false)
    (h : below? path base = some rest) : Descends rest.toList := by
  obtain ⟨raw, hraw, hrest⟩ := Option.bind_eq_some_iff.1 h
  have hsplit : path.toList = base.toList ++ raw := Text.dropPrefix?_eq_some.1 hraw
  have hrooted : rooted names = base.toList ++ raw := by
    rw [← hsplit, hpath, String.toList_ofList]
  have hne : names ≠ [] := by
    rintro rfl
    rw [hpath] at hending
    cases hending
  dsimp only at hrest
  split at hrest
  · cases hrest
  rename_i hleft
  obtain rfl := Option.some.inj hrest
  rw [String.toList_ofList]
  cases raw with
  | nil => exact absurd rfl hleft
  | cons c back =>
    by_cases hc : c = '/'
    · subst hc
      have hback := descends_of_rooted hne hnames hrooted
      rw [List.dropWhile_cons_of_pos (by rfl), hback.dropWhile_slash]
      exact hback
    · have hbeginning (beginning : String)
          (hstarts : Text.startsWith path (base ++ beginning) = false) (tail : List Char) :
          c :: back ≠ beginning.toList ++ tail := by
        intro heq
        have htrue : Text.startsWith path (base ++ beginning) = true := by
          rw [Text.startsWith, List.isPrefixOf_iff_prefix, hsplit, heq, String.toList_append,
            ← List.append_assoc]
          exact List.prefix_append _ _
        exact Bool.false_ne_true (hstarts.symm.trans htrue)
      have hlast : ['e'] <:+ c :: back := by
        have hpath : ['e'] <:+ path.toList :=
          List.IsSuffix.trans (by decide) (List.isSuffixOf_iff_suffix.1 hending)
        exact List.suffix_of_suffix_length_le hpath (hsplit ▸ List.suffix_append _ _)
          (Nat.le_add_left 1 _)
      rw [List.dropWhile_cons_of_neg (by simpa using hc)]
      refine descends_of_middle hne hnames hrooted hc (fun hslash => ?_)
        fun tail => ⟨hbeginning "./" hdot tail, hbeginning "../" hdots tail⟩
      refine ⟨List.cons_ne_nil _ _, fun heq => ?_, fun heq => ?_, hslash⟩
      · rw [heq] at hlast
        exact absurd hlast (by decide)
      · rw [heq] at hlast
        exact absurd hlast (by decide)

end Naming

end ModuleAssets
