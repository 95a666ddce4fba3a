import ModuleAssets.Proofs.Path.ScanBack
import ModuleAssets.Proofs.Text.Units
import ModuleAssets.Value.Catalogue
/-!
# Accessors — the parts of a path, and what a program reads off it

The directory, the last segment and the extension are read off the parts of a path here, and
off its units from their end when a program runs. The two agree on every extension and on every
last segment. They disagree on the directory of a name behind two slashes (`IsDoubleRooted`),
and on a last segment without its ending where the scan looks for the ending in more than the
segment (`Overreaches`). `accessors_by_scan` states it for the functions and for their calls.
-/

namespace ModuleAssets

namespace Text

variable {c d : Char} {cs : List Char}

theorem mem_flatMap_unitsOf_iff (hd : d.toNat < 0x80) : d.toNat ∈ cs.flatMap unitsOf ↔ d ∈ cs := by
  rw [List.mem_flatMap]
  constructor
  · rintro ⟨c, hc, hmem⟩
    exact (mem_unitsOf_iff hd).1 hmem ▸ hc
  · exact fun hmem => ⟨d, hmem, (mem_unitsOf_iff hd).2 rfl⟩

theorem flatMap_unitsOf_eq_nil_iff : cs.flatMap unitsOf = [] ↔ cs = [] :=
  @units_inj cs []

theorem flatMap_unitsOf_replicate (hc : c.toNat < 0x10000) (n : Nat) :
    (List.replicate n c).flatMap unitsOf = List.replicate n c.toNat := by
  induction n with
  | zero => rfl
  | succ n ih =>
    rw [List.replicate_succ, List.flatMap_cons, ih, unitsOf, if_pos hc]
    rfl

theorem units_ofList (cs : List Char) : units (String.ofList cs) = cs.flatMap unitsOf := by
  rw [units, String.toList_ofList]

end Text

namespace Path

open Text (units unitsOf)
open ScanBack (slash dot)

variable {path name ending : List Char} {directory : Option (List Char)} {slashes : Nat}

/-! ## Parts and their units -/

theorem units_replicate (slashes : Nat) :
    (List.replicate slashes '/').flatMap unitsOf = List.replicate slashes slash :=
  Text.flatMap_unitsOf_replicate (by decide) slashes

theorem units_frontOf (directory : Option (List Char)) :
    (frontOf '/' directory).flatMap unitsOf =
      frontOf slash (directory.map (List.flatMap unitsOf)) := by
  cases directory with
  | none => rfl
  | some directory =>
    rw [frontOf, List.flatMap_append]
    rfl

namespace EndsInName

/-- The units of a path that ends in a name end in that name's. -/
theorem flatMap_unitsOf (h : EndsInName '/' path directory name slashes) :
    EndsInName slash (path.flatMap unitsOf) (directory.map (List.flatMap unitsOf))
      (name.flatMap unitsOf) slashes where
  path_eq := by
    rw [h.path_eq, List.flatMap_append, List.flatMap_append, units_frontOf, units_replicate]
  nonempty := mt Text.flatMap_unitsOf_eq_nil_iff.1 h.nonempty
  not_mem := mt (Text.mem_flatMap_unitsOf_iff (by decide)).1 h.not_mem

theorem directory_eq {directory' : Option (List Char)} {name' : List Char} {slashes' : Nat}
    (h : EndsInName '/' path directory name slashes)
    (h' : EndsInName '/' path directory' name' slashes') : directory = directory' := by
  have hsplit := congrArg splitLast (h.trimSlashes_eq.symm.trans h'.trimSlashes_eq)
  rw [splitLast_frontOf directory h.not_mem, splitLast_frontOf directory' h'.not_mem] at hsplit
  exact congrArg Prod.fst hsplit

theorem endsWithSlash_iff (h : EndsInName '/' path directory name slashes) :
    endsWithSlash path = true ↔ slashes ≠ 0 := by
  rw [endsWithSlash, beq_iff_eq, h.path_eq]
  cases slashes with
  | zero =>
    obtain ⟨front, c, rfl⟩ := (List.eq_nil_or_concat' name).resolve_left h.nonempty
    have hc : c ≠ '/' := fun heq =>
      h.not_mem (heq ▸ List.mem_append_right _ (List.mem_singleton_self c))
    rw [List.replicate_zero, List.append_nil, ← List.append_assoc, List.getLast?_concat]
    exact iff_of_false (fun heq => hc (Option.some_inj.1 heq)) (fun hne => hne rfl)
  | succ n =>
    rw [List.replicate_succ', ← List.append_assoc, List.getLast?_concat]
    exact iff_of_true rfl (Nat.succ_ne_zero n)

end EndsInName

/-! ## Directories -/

/-- The path is a name behind two slashes that stand at its start. -/
def IsDoubleRooted (path : String) : Prop :=
  ∃ name slashes, EndsInName '/' path.toList (some ['/']) name slashes

/-- **The directory is the one that the scan gives**, unless the path is a name behind two
slashes. -/
theorem units_dirname_iff (path : String) :
    units (dirname path) = ScanBack.dirname (units path) ↔ ¬ IsDoubleRooted path := by
  obtain ⟨slashes, hpath⟩ | ⟨directory, name, slashes, h⟩ := exists_endsInName path.toList
  · have hsingle : ¬ IsDoubleRooted path := fun ⟨_, _, h⟩ => h.not_replicate _ hpath
    rw [← String.ofList_toList (s := path), hpath] at hsingle ⊢
    refine iff_of_true ?_ hsingle
    rw [Text.units_ofList, units_replicate]
    cases slashes with
    | zero => rfl
    | succ slashes =>
      rw [dirname_replicate, ScanBack.dirname_replicate]
      rfl
  have hdouble : IsDoubleRooted path ↔ directory = some ['/'] :=
    ⟨fun ⟨_, _, h'⟩ => h.directory_eq h', fun heq => ⟨name, slashes, heq ▸ h⟩⟩
  have hdirname := h.dirname_eq
  rw [String.ofList_toList] at hdirname
  have hunits : units path = path.toList.flatMap unitsOf := rfl
  rw [hdouble, hdirname, hunits, ScanBack.dirname_eq h.flatMap_unitsOf]
  cases directory with
  | none => exact iff_of_true rfl (Option.some_ne_none _).symm
  | some directory =>
    show units (if directory = [] then "/" else String.ofList directory) =
      (if directory.flatMap unitsOf = [] then [slash]
        else if directory.flatMap unitsOf = [slash] then [slash, slash]
        else directory.flatMap unitsOf) ↔ _
    by_cases hnil : directory = []
    · subst hnil
      exact iff_of_true rfl (by simp)
    rw [if_neg hnil, if_neg (mt Text.flatMap_unitsOf_eq_nil_iff.1 hnil), Text.units_ofList,
      Option.some_inj]
    by_cases hroot : directory = ['/']
    · subst hroot
      exact iff_of_false (by decide) (fun hne => hne rfl)
    · have hroot' : directory.flatMap unitsOf ≠ [slash] := mt (@Text.units_inj _ ['/']).1 hroot
      rw [if_neg hroot']
      exact iff_of_true rfl hroot

/-! ## Last segments -/

/-- **The last segment is the one that the scan gives.** -/
theorem units_basename (path : String) :
    units (basename path none) = ScanBack.basename (units path) := by
  rw [basename, Text.units_ofList, units]
  obtain ⟨slashes, hpath⟩ | ⟨directory, name, slashes, h⟩ := exists_endsInName path.toList
  · rw [hpath, basenameChars_replicate, units_replicate, ScanBack.basename_replicate]
    rfl
  · rw [h.basenameChars_eq, ScanBack.basename_eq h.flatMap_unitsOf]

/-- The ending does not lie in the last segment, and the scan looks for it all the same: the
ending is the whole path, or there are slashes behind the segment and the ending is longer than
the segment that it ends with. -/
def Overreaches (path ending : String) : Prop :=
  ending ≠ "" ∧ (units ending).length ≤ (units path).length ∧
    (ending = path ∧ basename path none ≠ "" ∨
      ending ≠ path ∧ endsWithSlash path.toList = true ∧ ending ≠ basename path none ∧
        Text.endsWith ending (basename path none) = true)

instance (path ending : String) : Decidable (Overreaches path ending) :=
  inferInstanceAs (Decidable (_ ∧ _ ∧ (_ ∧ _ ∨ _ ∧ _ ∧ _ ∧ _)))

/-- The last segment as characters, without an ending. -/
def nameWithout (name ending : List Char) : List Char :=
  if ending = [] ∨ name = ending then name else (Text.dropSuffix? name ending).getD name

theorem basename_some (path ending : String) :
    basename path (some ending) =
      String.ofList (nameWithout (basenameChars path.toList) ending.toList) := by
  have hnil : ending = "" ↔ ending.toList = [] := by rw [← String.toList_inj]; rfl
  rw [basename, nameWithout]
  show (if _ then _ else _) = _
  rw [apply_ite String.ofList]
  exact if_congr (or_congr hnil Iff.rfl) rfl rfl

theorem nameWithout_suffix (front : List Char) (hne : ending ≠ []) :
    nameWithout (front ++ ending) ending = if front = [] then front ++ ending else front := by
  have hwhole : front ++ ending = ending ↔ front = [] := List.append_left_eq_self
  by_cases hfront : front = []
  · rw [nameWithout, if_pos (.inr (hwhole.2 hfront)), if_pos hfront]
  · have hsuffix : ending.isSuffixOf (front ++ ending) = true :=
      List.isSuffixOf_iff_suffix.2 (List.suffix_append front ending)
    rw [nameWithout, if_neg (not_or.2 ⟨hne, mt hwhole.1 hfront⟩), if_neg hfront,
      Text.dropSuffix?, if_pos hsuffix, List.length_append, Nat.add_sub_cancel, List.take_left]
    rfl

theorem nameWithout_of_not_suffix (h : ¬ ending <:+ name) : nameWithout name ending = name := by
  have hsuffix : ¬ ending.isSuffixOf name = true := mt List.isSuffixOf_iff_suffix.1 h
  rw [nameWithout, Text.dropSuffix?, if_neg hsuffix]
  exact ite_self _

theorem nameWithout_nil (ending : List Char) : nameWithout [] ending = [] := by
  by_cases hnil : ending = []
  · exact if_pos (.inl hnil)
  · exact nameWithout_of_not_suffix (mt List.suffix_nil.1 hnil)

/-- Something of a name is left. -/
theorem nameWithout_ne_nil (h : name ≠ []) (ending : List Char) : nameWithout name ending ≠ [] := by
  by_cases hnil : ending = []
  · rwa [nameWithout, if_pos (.inl hnil)]
  by_cases hsuffix : ending <:+ name
  · obtain ⟨front, rfl⟩ := hsuffix
    rw [nameWithout_suffix front hnil]
    by_cases hfront : front = []
    · rwa [if_pos hfront]
    · rwa [if_neg hfront]
  · rwa [nameWithout_of_not_suffix hsuffix]

/-- For slashes alone there is no segment that the ending could lie in. -/
theorem units_basename_some_iff_of_slashes {path : String}
    (hpath : path.toList = List.replicate slashes '/') (ending : String) :
    units (basename path (some ending)) = ScanBack.basenameWithout (units path) (units ending) ↔
      ¬ Overreaches path ending := by
  have hunits : units path = List.replicate slashes slash := by
    rw [units, hpath, units_replicate]
  have hnone : basename path none = "" := by
    rw [basename, hpath, basenameChars_replicate]
  have hempty : units (basename path (some ending)) = [] := by
    rw [basename_some, hpath, basenameChars_replicate, Text.units_ofList, nameWithout_nil]
    rfl
  have hsame : units ending = units path ↔ ending = path := by
    rw [units, units, Text.units_inj, String.toList_inj]
  have hnil : units ending = [] ↔ ending = "" := by
    rw [units, Text.flatMap_unitsOf_eq_nil_iff, String.toList_eq_nil_iff]
  rw [hempty]
  by_cases hbase : units ending = [] ∨ (units path).length < (units ending).length
  · rw [ScanBack.basenameWithout, if_pos hbase, hunits, ScanBack.basename_replicate]
    exact iff_of_true rfl fun hover =>
      hbase.elim (fun heq => hover.1 (hnil.1 heq)) (Nat.not_lt.2 hover.2.1)
  obtain ⟨hne, hlength⟩ := not_or.1 hbase
  by_cases hwhole : ending = path
  · rw [ScanBack.basenameWithout, if_neg hbase, if_pos (hsame.2 hwhole)]
    exact iff_of_true rfl fun hover => hover.2.2.elim (fun h => h.2 hnone) fun h => h.1 hwhole
  have hwhole' : units ending ≠ List.replicate slashes slash := hunits ▸ mt hsame.1 hwhole
  have hpos : slashes ≠ 0 := by
    rintro rfl
    rw [hunits] at hlength
    exact hne (List.length_eq_zero_iff.1 (Nat.le_zero.1 (Nat.not_lt.1 hlength)))
  rw [hunits, List.length_replicate] at hlength
  rw [hunits, ScanBack.basenameWithout_replicate hne (Nat.not_lt.1 hlength) hwhole']
  refine iff_of_false (fun heq => hpos ?_) (not_not.2 ⟨mt hnil.2 hne, ?_, .inr ⟨hwhole, ?_, ?_, ?_⟩⟩)
  · exact (List.replicate_eq_nil_iff _).1 heq.symm
  · rw [hunits, List.length_replicate]
    exact Nat.not_lt.1 hlength
  · obtain ⟨n, rfl⟩ := Nat.exists_eq_succ_of_ne_zero hpos
    rw [endsWithSlash, hpath, List.replicate_succ', List.getLast?_concat]
    rfl
  · rw [hnone]
    exact mt hnil.2 hne
  · rw [hnone]
    exact List.isSuffixOf_iff_suffix.2 List.nil_suffix

section

variable {path : String} (h : EndsInName '/' path.toList directory name slashes)
include h

theorem overreaches_iff (ending : String) :
    Overreaches path ending ↔
      ending.toList ≠ [] ∧ (units ending).length ≤ (units path).length ∧
        (ending.toList = path.toList ∨
          slashes ≠ 0 ∧ ending.toList ≠ name ∧ name <:+ ending.toList) := by
  have hbase : (basename path none).toList = name := by
    rw [basename, h.basenameChars_eq]
    exact String.toList_ofList
  have hnonempty : basename path none ≠ "" := fun heq => h.nonempty (by rw [← hbase, heq]; rfl)
  have hname : ending = basename path none ↔ ending.toList = name := by
    rw [← String.toList_inj, hbase]
  have hwhole : ending = path ↔ ending.toList = path.toList := String.toList_inj.symm
  have hempty : ending = "" ↔ ending.toList = [] := String.toList_eq_nil_iff.symm
  simp only [Overreaches, Text.endsWith, List.isSuffixOf_iff_suffix, h.endsWithSlash_iff, hbase,
    ne_eq, hname, hwhole, hempty]
  constructor
  · rintro ⟨hne, hlength, ⟨heq, -⟩ | ⟨-, hrest⟩⟩
    · exact ⟨hne, hlength, .inl heq⟩
    · exact ⟨hne, hlength, .inr hrest⟩
  · rintro ⟨hne, hlength, hcases⟩
    by_cases heq : ending.toList = path.toList
    · exact ⟨hne, hlength, .inl ⟨heq, hnonempty⟩⟩
    · exact ⟨hne, hlength, .inr ⟨heq, hcases.resolve_left heq⟩⟩

/-- An ending that lies in the name is found by the scan as well. -/
theorem units_basename_of_suffix {ending : String} (hempty : ending.toList ≠ [])
    (hlength : (units ending).length ≤ (units path).length) (hwhole : ending.toList ≠ path.toList)
    (hsuffix : ending.toList <:+ name) :
    units (basename path (some ending)) = ScanBack.basenameWithout (units path) (units ending) ∧
      ¬ Overreaches path ending := by
  obtain ⟨front, hfront⟩ := hsuffix
  have hunits : name.flatMap unitsOf = front.flatMap unitsOf ++ units ending := by
    rw [← hfront, List.flatMap_append]
    rfl
  have hwithout := ScanBack.basenameWithout_suffix h.flatMap_unitsOf
    (mt Text.flatMap_unitsOf_eq_nil_iff.1 hempty) hlength (mt Text.units_inj.1 hwhole) hunits
  rw [overreaches_iff h, basename_some, Text.units_ofList, h.basenameChars_eq]
  refine ⟨?_, ?_⟩
  · refine Eq.trans ?_ hwithout.symm
    rw [← hfront, nameWithout_suffix front hempty]
    simp only [Text.flatMap_unitsOf_eq_nil_iff]
    exact apply_ite _ _ _ _
  · rintro ⟨-, -, heq | ⟨-, hdiffer, hshorter⟩⟩
    · exact hwhole heq
    · exact hdiffer (List.IsSuffix.eq_of_length_le ⟨front, hfront⟩ hshorter.length_le)

/-- An ending that begins in front of the name is found by the scan if slashes follow. -/
theorem units_basename_of_longer {ending : String} (hempty : ending.toList ≠ [])
    (hlength : (units ending).length ≤ (units path).length) (hwhole : ending.toList ≠ path.toList)
    (hsuffix : ¬ ending.toList <:+ name) (hlonger : name <:+ ending.toList) :
    units (basename path (some ending)) = ScanBack.basenameWithout (units path) (units ending) ↔
      ¬ Overreaches path ending := by
  obtain ⟨front, hfront⟩ := hlonger
  have hfront' : front ≠ [] := by
    rintro rfl
    exact hsuffix (hfront ▸ List.suffix_rfl)
  have hunits : units ending = front.flatMap unitsOf ++ name.flatMap unitsOf := by
    rw [units, ← hfront, List.flatMap_append]
  have hparts : EndsInName slash (units path) _ _ _ := h.flatMap_unitsOf
  have hwithout := ScanBack.basenameWithout_longer hparts hlength
    (mt Text.units_inj.1 hwhole) (mt Text.flatMap_unitsOf_eq_nil_iff.1 hfront') hunits
  have hdiffer : ending.toList ≠ name := fun heq => hsuffix (heq ▸ List.suffix_rfl)
  have hover : (ending.toList = path.toList ∨
      slashes ≠ 0 ∧ ending.toList ≠ name ∧ name <:+ ending.toList) ↔ slashes ≠ 0 :=
    ⟨fun hcases => (hcases.resolve_left hwhole).1,
      fun hslashes => .inr ⟨hslashes, hdiffer, front, hfront⟩⟩
  rw [overreaches_iff h, basename_some, Text.units_ofList, h.basenameChars_eq,
    nameWithout_of_not_suffix hsuffix, hwithout, List.self_eq_append_right,
    List.replicate_eq_nil_iff, hover, and_iff_right hlength, and_iff_right hempty, not_not]

/-- The cases are those of the scan: the ending lies in the name, begins in front of it, or
neither ends with the other. -/
theorem units_basename_some_iff_of_name (ending : String) :
    units (basename path (some ending)) = ScanBack.basenameWithout (units path) (units ending) ↔
      ¬ Overreaches path ending := by
  have hparts : EndsInName slash (units path) (directory.map (List.flatMap unitsOf))
      (name.flatMap unitsOf) slashes := h.flatMap_unitsOf
  have hscan : ScanBack.basename (units path) = name.flatMap unitsOf := ScanBack.basename_eq hparts
  have hnil : units ending = [] ↔ ending.toList = [] := Text.flatMap_unitsOf_eq_nil_iff
  have hsame : units ending = units path ↔ ending.toList = path.toList := Text.units_inj
  have hname : units (basename path (some ending)) =
      (nameWithout name ending.toList).flatMap unitsOf := by
    rw [basename_some, Text.units_ofList, h.basenameChars_eq]
  by_cases hempty : ending.toList = []
  · rw [hname, overreaches_iff h, ScanBack.basenameWithout, if_pos (.inl (hnil.2 hempty)), hscan,
      nameWithout, if_pos (.inl hempty)]
    exact iff_of_true rfl fun hover => hover.1 hempty
  by_cases hlong : (units path).length < (units ending).length
  · have hshort : (name.flatMap unitsOf).length ≤ (units path).length := by
      rw [hparts.length_eq]
      omega
    have hsuffix : ¬ ending.toList <:+ name := fun hsuffix =>
      Nat.not_le.2 hlong ((Text.units_suffix_iff.2 hsuffix).length_le.trans hshort)
    rw [hname, overreaches_iff h, ScanBack.basenameWithout, if_pos (.inr hlong), hscan,
      nameWithout_of_not_suffix hsuffix]
    exact iff_of_true rfl fun hover => absurd hover.2.1 (Nat.not_le.2 hlong)
  have hlength := Nat.not_lt.1 hlong
  by_cases hwhole : ending.toList = path.toList
  · rw [hname, overreaches_iff h, ScanBack.basenameWithout,
      if_neg (not_or.2 ⟨mt hnil.1 hempty, hlong⟩), if_pos (hsame.2 hwhole)]
    exact iff_of_false
      (mt Text.flatMap_unitsOf_eq_nil_iff.1 (nameWithout_ne_nil h.nonempty ending.toList))
      (not_not.2 ⟨hempty, hlength, .inl hwhole⟩)
  by_cases hsuffix : ending.toList <:+ name
  · obtain ⟨heq, hnot⟩ := units_basename_of_suffix h hempty hlength hwhole hsuffix
    exact iff_of_true heq hnot
  by_cases hlonger : name <:+ ending.toList
  · exact units_basename_of_longer h hempty hlength hwhole hsuffix hlonger
  · rw [hname, overreaches_iff h, nameWithout_of_not_suffix hsuffix,
      ScanBack.basenameWithout_parted hparts (mt hsame.1 hwhole) (mt Text.units_suffix_iff.1 hsuffix)
        (mt Text.units_suffix_iff.1 hlonger)]
    refine iff_of_true rfl ?_
    rintro ⟨-, -, heq | ⟨-, -, hshorter⟩⟩
    · exact hwhole heq
    · exact hlonger hshorter

end

/-- **The last segment without an ending is the one that the scan gives**, unless the scan
overreaches. -/
theorem units_basename_some_iff (path ending : String) :
    units (basename path (some ending)) = ScanBack.basenameWithout (units path) (units ending) ↔
      ¬ Overreaches path ending := by
  obtain ⟨slashes, hpath⟩ | ⟨directory, name, slashes, h⟩ := exists_endsInName path.toList
  · exact units_basename_some_iff_of_slashes hpath ending
  · exact units_basename_some_iff_of_name h ending

/-! ## Extensions -/

/-- With its last dot told, a name of two dots has one in front and nothing behind. -/
theorem eq_dots_iff {stem tail : List Char} (hdot : '.' ∉ tail) :
    stem ++ '.' :: tail = ['.', '.'] ↔ stem = ['.'] ∧ tail = [] := by
  constructor
  · intro heq
    rcases stem with - | ⟨c, - | ⟨d, more⟩⟩
    · exact absurd ((List.cons.inj heq).2 ▸ List.mem_singleton_self '.') hdot
    · obtain ⟨rfl, hrest⟩ := List.cons.inj heq
      exact ⟨rfl, (List.cons.inj hrest).2⟩
    · have hlength := congrArg List.length heq
      simp at hlength
  · rintro ⟨rfl, rfl⟩
    rfl

/-- **The extension is the one that the scan gives.** -/
theorem units_extname (path : String) : units (extname path) = ScanBack.extname (units path) := by
  have hunits : units path = path.toList.flatMap unitsOf := rfl
  obtain ⟨slashes, hpath⟩ | ⟨directory, name, slashes, h⟩ := exists_endsInName path.toList
  · rw [extname, hunits, hpath, basenameChars_replicate, units_replicate,
      ScanBack.extname_replicate]
    rfl
  have hparts := h.flatMap_unitsOf
  rw [extname, hunits, h.basenameChars_eq, apply_ite units, Text.units_ofList]
  obtain hdot | ⟨stem, tail, rfl, hdot⟩ := exists_lastOf '.' name
  · rw [extension_of_not_mem hdot, ScanBack.extname_of_not_mem hparts
      (mt (Text.mem_flatMap_unitsOf_iff (by decide)).1 hdot)]
    exact ite_self _
  · have hdot' : dot ∉ tail.flatMap unitsOf :=
      mt (Text.mem_flatMap_unitsOf_iff (d := '.') (by decide)).1 hdot
    have hname : (stem ++ '.' :: tail).flatMap unitsOf =
        stem.flatMap unitsOf ++ dot :: tail.flatMap unitsOf := List.flatMap_append
    rw [hname] at hparts
    have hstem : stem.flatMap unitsOf = [dot] ↔ stem = ['.'] := @Text.units_inj stem ['.']
    have hcases : (stem.flatMap unitsOf = [] ∨
        (stem.flatMap unitsOf = [dot] ∧ tail.flatMap unitsOf = [])) ↔
          (stem = [] ∨ stem ++ '.' :: tail = ['.', '.']) := by
      rw [Text.flatMap_unitsOf_eq_nil_iff, Text.flatMap_unitsOf_eq_nil_iff, hstem,
        eq_dots_iff hdot]
    rw [ScanBack.extname_eq hparts hdot', extension_eq stem hdot, if_congr hcases rfl rfl]
    by_cases hdots : stem ++ '.' :: tail = ['.', '.']
    · rw [if_pos hdots, if_pos (.inr hdots)]
      rfl
    by_cases hnil : stem = []
    · rw [if_neg hdots, if_pos hnil, if_pos (.inl hnil)]
      rfl
    · rw [if_neg hdots, if_neg hnil, if_neg (not_or.2 ⟨hnil, hdots⟩)]
      exact Text.units_ofList _

/-! ## What programs read -/

namespace ScanBack

/-- What a program gets from the function when it runs. There is nothing for a function that
reads no part of a path, and for arguments that the function throws at. -/
def call? (f : PathFunction) (arguments : List Value) : Option (List Nat) :=
  (PathFunction.firstText? arguments).bind fun path =>
    match f with
    | .dirname => some (dirname (units path))
    | .basename =>
      match arguments[1]? with
      | none | some Value.undefined => some (basename (units path))
      | some ending => ending.text?.map fun ending => basenameWithout (units path) (units ending)
    | .extname => some (extname (units path))
    | _ => none

end ScanBack

/-- The call reads something else than the program does. -/
def Misreads (f : PathFunction) (arguments : List Value) : Prop :=
  ∃ path, PathFunction.firstText? arguments = some path ∧
    (f = .dirname ∧ IsDoubleRooted path ∨
      f = .basename ∧ ∃ ending, arguments[1]? = some (.text ending) ∧ Overreaches path ending)

/-- The function reads a part of a path. -/
def IsAccessor (f : PathFunction) : Prop :=
  f = .dirname ∨ f = .basename ∨ f = .extname

/-- **A call is taken for what the program gets**, unless it misreads. -/
theorem call?_eq_scan_iff {f : PathFunction} (hf : IsAccessor f) (arguments : List Value) :
    ((f.call? arguments).bind Value.text?).map units = ScanBack.call? f arguments ↔
      ¬ Misreads f arguments := by
  cases hpath : PathFunction.firstText? arguments with
  | none =>
    have hcall : f.call? arguments = none := by
      rcases hf with rfl | rfl | rfl <;> rw [PathFunction.call?, hpath] <;> rfl
    rw [hcall, ScanBack.call?, hpath]
    refine iff_of_true rfl ?_
    rintro ⟨path, hsome, -⟩
    rw [hpath] at hsome
    cases hsome
  | some path =>
    have hmisreads : Misreads f arguments ↔ f = .dirname ∧ IsDoubleRooted path ∨
        f = .basename ∧ ∃ ending, arguments[1]? = some (.text ending) ∧ Overreaches path ending := by
      rw [Misreads, hpath]
      simp
    rw [hmisreads, ScanBack.call?, hpath, Option.bind_some]
    rcases hf with rfl | rfl | rfl
    · rw [PathFunction.call?, hpath]
      show some (units (dirname path)) = some _ ↔ _
      rw [Option.some_inj, units_dirname_iff]
      simp
    · rw [PathFunction.call?, hpath, Option.bind_some]
      cases hsecond : arguments[1]? with
      | none =>
        show some (units (basename path none)) = some _ ↔ _
        rw [units_basename]
        simp
      | some ending =>
        cases ending with
        | undefined =>
          show some (units (basename path none)) = some _ ↔ _
          rw [units_basename]
          simp
        | text ending =>
          show some (units (basename path (some ending))) = some _ ↔ _
          rw [Option.some_inj, units_basename_some_iff]
          simp
        | _ => exact iff_of_true rfl (by simp)
    · rw [PathFunction.call?, hpath]
      show some (units (extname path)) = some _ ↔ _
      rw [Option.some_inj, units_extname]
      simp

/-- **Accessors read what programs read**, and it is told exactly where they do not. -/
theorem accessors_by_scan (path ending : String) {f : PathFunction} (hf : IsAccessor f)
    (arguments : List Value) :
    (units (dirname path) = ScanBack.dirname (units path) ↔ ¬ IsDoubleRooted path) ∧
    units (basename path none) = ScanBack.basename (units path) ∧
    (units (basename path (some ending)) =
      ScanBack.basenameWithout (units path) (units ending) ↔ ¬ Overreaches path ending) ∧
    units (extname path) = ScanBack.extname (units path) ∧
    (((f.call? arguments).bind Value.text?).map units = ScanBack.call? f arguments ↔
      ¬ Misreads f arguments) :=
  ⟨units_dirname_iff path, units_basename path, units_basename_some_iff path ending,
    units_extname path, call?_eq_scan_iff hf arguments⟩

theorem accessors_by_scan_stem :
    IsAccessor .basename ∧ ¬ Overreaches "a/b.js/" ".js" ∧
      ScanBack.basenameWithout (units "a/b.js/") (units ".js") = units "b" ∧
      ¬ Misreads .basename [.text "a/b.js/", .text ".js"] ∧
      ScanBack.call? .basename [.text "a/b.js/", .text ".js"] = some (units "b") := by
  have haccessor : IsAccessor .basename := .inr (.inl rfl)
  have hfits : ¬ Overreaches "a/b.js/" ".js" := by decide
  have hreads : ¬ Misreads .basename [.text "a/b.js/", .text ".js"] := by
    rintro ⟨path, hpath, ⟨hf, -⟩ | ⟨-, ending, hending, hover⟩⟩
    · cases hf
    · cases hpath
      cases hending
      exact hfits hover
  obtain ⟨-, -, hname, -, hcall⟩ := accessors_by_scan "a/b.js/" ".js" haccessor
    [.text "a/b.js/", .text ".js"]
  exact ⟨haccessor, hfits, (hname.2 hfits).symm.trans (by decide), hreads,
    (hcall.2 hreads).symm.trans (by decide)⟩

/-- Of a name behind two slashes a program gets both slashes as the directory, and of a path
that is its own ending it gets nothing. -/
theorem accessors_beside_scan :
    dirname "//a" = "/" ∧ ScanBack.dirname (units "//a") = units "//" ∧
      basename "a" (some "a") = "a" ∧ ScanBack.basenameWithout (units "a") (units "a") = [] ∧
      Misreads .dirname [.text "//a"] ∧ Misreads .basename [.text "a", .text "a"] := by
  have hroot : IsDoubleRooted "//a" := ⟨['a'], 0, rfl, by decide, by decide⟩
  have hover : Overreaches "a" "a" := by decide
  exact ⟨by decide, by decide, by decide, by decide, ⟨"//a", rfl, .inl ⟨rfl, hroot⟩⟩,
    ⟨"a", rfl, .inr ⟨rfl, "a", rfl, hover⟩⟩⟩

end Path

end ModuleAssets
