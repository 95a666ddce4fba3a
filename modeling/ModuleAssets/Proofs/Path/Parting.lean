import ModuleAssets.Proofs.Path.Normal
import ModuleAssets.Proofs.Path.Scan
/-!
# Parting — two paths read side by side

The way from one path to another is found by reading both side by side, character by
character, up to where they part. What counts is the last slash that both have before
that (`Parting`): the way leads up once for each segment that the first path still has,
and then down what the second has. This gives what dropping the segments that both share
gives (`Scan.relative_eq`).
-/

namespace ModuleAssets.Path

/-- What two paths have left where they part: the first what comes after the last slash that
both have, the second that slash and what comes after it. -/
structure Parting where
  start : List Char
  target : List Char

namespace Scan

/-- A step up for each segment. -/
def ups (cs : List Char) : List Char :=
  Text.joinWithChar '/' (List.replicate (cs.count '/' + 1) ['.', '.'])

/-- Up from the one path and down the other. -/
def cross (p : Parting) : List Char :=
  ups p.start ++ p.target

/-- Reads two paths side by side, `moved` telling that something was read before. -/
def sideBySide (moved : Bool) (p : Parting) : List Char → List Char → List Char
  | [], [] => cross p
  | [], d :: target =>
    if d = '/' then target else if moved = false then d :: target else cross p
  | c :: start, [] =>
    if c = '/' ∨ moved = false then cross ⟨start, []⟩ else cross p
  | c :: start, d :: target =>
    if c ≠ d then cross p
    else if c = '/' then sideBySide true ⟨start, d :: target⟩ start target
    else sideBySide true p start target

/-- The path from one path to another, both taken from a directory. -/
def relative (directory start target : List Char) : Option (List Char) :=
  if start = target then some []
  else
    (resolve directory [some start]).bind fun start =>
      (resolve directory [some target]).map fun target =>
        if start = target then [] else sideBySide false ⟨start.drop 1, target⟩ (start.drop 1)
          (target.drop 1)

/-! ## Where two paths part -/

variable {a b : List Char} {names names' : List (List Char)} {p : Parting} {moved : Bool}

theorem count_joined (hne : names ≠ []) (h : ∀ n ∈ names, '/' ∉ n) :
    (Text.joinWithChar '/' names).count '/' + 1 = names.length := by
  induction names with
  | nil => exact absurd rfl hne
  | cons first rest ih =>
    have hfirst := List.count_eq_zero.2 (h first List.mem_cons_self)
    by_cases hrest : rest = []
    · subst hrest
      exact congrArg (· + 1) hfirst
    · have hcount := ih hrest fun n hn => h n (List.mem_cons_of_mem _ hn)
      rw [← List.singleton_append, joined_append (List.cons_ne_nil _ _) hrest, List.count_append,
        List.count_cons_self, hcount, List.singleton_append, List.length_cons]
      show first.count '/' + rest.length + 1 = _
      rw [hfirst, Nat.zero_add]

theorem ups_joined (hne : names ≠ []) (h : ∀ n ∈ names, '/' ∉ n) :
    ups (Text.joinWithChar '/' names) =
      Text.joinWithChar '/' (List.replicate names.length ['.', '.']) := by
  rw [ups, count_joined hne h]

/-- What both have is passed over. -/
theorem sideBySide_shared (h : '/' ∉ a) (moved : Bool) (p : Parting) (start target : List Char) :
    sideBySide moved p (a ++ start) (a ++ target) =
      sideBySide (moved || !a.isEmpty) p start target := by
  induction a generalizing moved with
  | nil => rw [List.isEmpty_nil, Bool.not_true, Bool.or_false]; rfl
  | cons c rest ih =>
    obtain ⟨hc, hrest⟩ := not_or.1 (List.mem_cons.not.1 h)
    rw [List.cons_append, List.cons_append, sideBySide, if_neg (not_not.2 rfl),
      if_neg (Ne.symm hc), ih hrest]
    simp

/-- Two segments that are not the same part the paths. -/
theorem sideBySide_differing (hne : a ≠ b) (ha : '/' ∉ a) (hb : '/' ∉ b)
    (hmoved : moved = true ∨ a ≠ [] ∧ b ≠ []) {start target : List Char}
    (hstart : start = [] ∨ ∃ rest, start = '/' :: rest)
    (htarget : target = [] ∨ ∃ rest, target = '/' :: rest) :
    sideBySide moved p (a ++ start) (b ++ target) = cross p := by
  induction a generalizing b moved with
  | nil =>
    obtain rfl := hmoved.resolve_right fun h => h.1 rfl
    obtain ⟨d, rest, rfl⟩ := List.exists_cons_of_ne_nil (Ne.symm hne)
    have hd : d ≠ '/' := fun heq => hb (heq ▸ List.mem_cons_self)
    obtain rfl | ⟨start, rfl⟩ := hstart
    · exact (if_neg hd).trans (if_neg (by decide))
    · exact if_pos hd.symm
  | cons c a ih =>
    obtain ⟨hc, ha⟩ := not_or.1 (List.mem_cons.not.1 ha)
    cases b with
    | nil =>
      obtain rfl := hmoved.resolve_right fun h => h.2 rfl
      obtain rfl | ⟨target, rfl⟩ := htarget
      · rw [List.cons_append]
        exact if_neg (not_or.2 ⟨Ne.symm hc, by decide⟩)
      · exact if_pos (Ne.symm hc)
    | cons d b =>
      rw [List.cons_append, List.cons_append, sideBySide]
      by_cases hcd : c = d
      · subst hcd
        rw [if_neg (not_not.2 rfl), if_neg (Ne.symm hc)]
        exact ih (fun heq => hne (heq ▸ rfl)) ha (not_or.1 (List.mem_cons.not.1 hb)).2 (.inl rfl)
      · rw [if_pos hcd]

theorem joined_cons (name : List Char) (rest : List (List Char)) :
    ∃ back, Text.joinWithChar '/' (name :: rest) = name ++ back ∧
      (rest = [] → back = []) ∧ (rest ≠ [] → back = '/' :: Text.joinWithChar '/' rest) := by
  cases rest with
  | nil => exact ⟨[], (List.append_nil name).symm, fun _ => rfl, fun h => absurd rfl h⟩
  | cons next rest => exact ⟨_, rfl, fun h => absurd h (List.cons_ne_nil _ _), fun _ => rfl⟩

/-- **From a slash that both have, the way is that between the segments that follow.** -/
theorem sideBySide_joined (hnames : ∀ n ∈ names, IsPlain n) (hnames' : ∀ n ∈ names', IsPlain n)
    (hne : names ≠ []) (hne' : names' ≠ []) (hdiffer : names ≠ names') (moved : Bool) :
    sideBySide moved ⟨Text.joinWithChar '/' names, '/' :: Text.joinWithChar '/' names'⟩
        (Text.joinWithChar '/' names) (Text.joinWithChar '/' names') =
      Text.joinWithChar '/'
        (upAndDown (dropShared names names').1 (dropShared names names').2) := by
  induction names generalizing names' moved with
  | nil => exact absurd rfl hne
  | cons a rest ih =>
    obtain ⟨b, rest', rfl⟩ := List.exists_cons_of_ne_nil hne'
    obtain ⟨ha, hrest⟩ := List.forall_mem_cons.1 hnames
    obtain ⟨hb, hrest'⟩ := List.forall_mem_cons.1 hnames'
    obtain ⟨back, hback, hnil, hcons⟩ := joined_cons a rest
    obtain ⟨back', hback', hnil', hcons'⟩ := joined_cons b rest'
    have hslash : ∀ n ∈ rest, '/' ∉ n := fun n hn => (hrest n hn).2.2.2
    by_cases hab : a = b
    · subst hab
      rw [hback, hback', sideBySide_shared ha.2.2.2,
        show (moved || !a.isEmpty) = true by simp [ha.1], dropShared, if_pos rfl]
      by_cases hempty : rest = []
      · have hsome' : rest' ≠ [] := fun hempty' => hdiffer (by rw [hempty, hempty'])
        rw [hnil hempty, hcons' hsome', hempty]
        exact if_pos rfl
      · rw [hcons hempty]
        by_cases hempty' : rest' = []
        · obtain ⟨next, others, hsome⟩ := List.exists_cons_of_ne_nil hempty
          rw [hnil' hempty', hempty', hsome]
          show (if _ then _ else _) = _
          rw [if_pos (.inl rfl), ← hsome, cross, ups_joined hempty hslash, List.append_nil, hsome]
          show _ = Text.joinWithChar '/' (List.replicate _ _ ++ [])
          rw [List.append_nil]
          rfl
        · rw [hcons' hempty', sideBySide, if_neg (not_not.2 rfl), if_pos rfl]
          exact ih hrest hrest' hempty hempty' (fun heq => hdiffer (heq ▸ rfl)) true
    · have hends : back = [] ∨ ∃ cs, back = '/' :: cs := by
        by_cases hempty : rest = []
        · exact .inl (hnil hempty)
        · exact .inr ⟨_, hcons hempty⟩
      have hends' : back' = [] ∨ ∃ cs, back' = '/' :: cs := by
        by_cases hempty : rest' = []
        · exact .inl (hnil' hempty)
        · exact .inr ⟨_, hcons' hempty⟩
      have hparts (p : Parting) : sideBySide moved p (Text.joinWithChar '/' (a :: rest))
          (Text.joinWithChar '/' (b :: rest')) = cross p := by
        rw [hback, hback']
        exact sideBySide_differing hab ha.2.2.2 hb.2.2.2 (.inr ⟨ha.1, hb.1⟩) hends hends'
      rw [hparts, dropShared, if_neg hab, cross,
        ups_joined (List.cons_ne_nil _ _) fun n hn => (hnames n hn).2.2.2, upAndDown,
        joined_append (by simp) (List.cons_ne_nil _ _)]

/-! ## The way from one path to another -/

theorem resolve_absolute {path : List Char} (h : isAbsoluteChars path = true)
    (directory : List Char) :
    resolve directory [some path] = some (rooted (normalSegments path)) := by
  have hpath : isAbsolute (String.ofList path) = true := by
    rwa [isAbsolute, String.toList_ofList]
  have hscan := resolve_eq (resolve_singleton hpath) directory
  rwa [List.map_singleton, String.toList_ofList, String.toList_ofList] at hscan

theorem dropShared_self {α : Type} [DecidableEq α] (xs : List α) : dropShared xs xs = ([], []) := by
  induction xs with
  | nil => rfl
  | cons x rest ih => rw [dropShared, if_pos rfl, ih]

/-- **Read side by side, two absolute paths have the way that their segments have.** -/
theorem relative_eq {start target path : String} (h : Path.relative start target = some path)
    (directory : List Char) :
    relative directory start.toList target.toList = some path.toList := by
  unfold Path.relative at h
  split at h
  case isFalse => cases h
  rename_i habsolute
  obtain ⟨hstart, htarget⟩ := (Bool.and_eq_true _ _).mp habsolute
  have hplain := plain_normalSegments hstart
  have hplain' := plain_normalSegments htarget
  dsimp only at h
  rw [segments_of_absolute hstart, segments_of_absolute htarget, List.map_const'] at h
  obtain rfl := Option.some.inj h
  rw [String.toList_ofList, relative]
  split
  · rename_i hsame
    rw [hsame, dropShared_self]
    rfl
  rw [resolve_absolute hstart, resolve_absolute htarget]
  dsimp only [Option.bind_some, Option.map_some]
  generalize normalSegments start.toList = names at hplain
  generalize normalSegments target.toList = names' at hplain'
  refine congrArg some ?_
  split
  · rename_i hsame
    have hnames : names = names' := by
      rw [← normalSegments_rooted hplain, hsame, normalSegments_rooted hplain']
    rw [hnames, dropShared_self]
    rfl
  rename_i hdiffer
  show sideBySide false ⟨Text.joinWithChar '/' names, '/' :: Text.joinWithChar '/' names'⟩
    (Text.joinWithChar '/' names) (Text.joinWithChar '/' names') = _
  have hslash {names : List (List Char)} (h : ∀ n ∈ names, IsPlain n) {c : Char} {cs : List Char}
      (hjoined : Text.joinWithChar '/' names = c :: cs) : c ≠ '/' := by
    have hrelative := isAbsoluteChars_joined fun n hn => (h n hn).isPiece
    rw [hjoined] at hrelative
    exact ne_of_beq_false hrelative
  have hjoined {names : List (List Char)} (h : ∀ n ∈ names, IsPlain n) (hne : names ≠ []) :
      ∃ c cs, Text.joinWithChar '/' names = c :: cs :=
    List.exists_cons_of_ne_nil (joined_ne_nil hne fun n hn => (h n hn).isPiece)
  by_cases hempty : names = []
  · subst hempty
    by_cases hempty' : names' = []
    · exact absurd (by rw [hempty']) hdiffer
    · obtain ⟨c, cs, hcs⟩ := hjoined hplain' hempty'
      obtain ⟨first, others, hsome⟩ := List.exists_cons_of_ne_nil hempty'
      have hshared : dropShared [] names' = ([], names') := by rw [hsome]; rfl
      rw [hshared, hcs]
      show (if _ then _ else _) = Text.joinWithChar '/' names'
      rw [if_neg (hslash hplain' hcs), if_pos rfl, hcs]
  · by_cases hempty' : names' = []
    · subst hempty'
      obtain ⟨c, cs, hcs⟩ := hjoined hplain hempty
      obtain ⟨first, others, hsome⟩ := List.exists_cons_of_ne_nil hempty
      have hshared : dropShared names [] = (names, []) := by rw [hsome]; rfl
      -- the first character is no slash, so that it does not matter whether it is counted
      have hcount := count_joined hempty fun n hn => (hplain n hn).2.2.2
      rw [hcs, List.count_cons_of_ne (hslash hplain hcs)] at hcount
      rw [hshared, hcs]
      show (if _ then _ else _) = Text.joinWithChar '/' (List.replicate _ _ ++ [])
      rw [if_pos (.inr rfl), cross, ups, hcount, List.append_nil, List.append_nil]
    · have hnames : names ≠ names' := fun heq => hdiffer (by rw [heq])
      exact sideBySide_joined hplain hplain' hempty hempty' hnames false

end Scan

end ModuleAssets.Path
