import ModuleAssets.Proofs.Path.LastName
/-!
# Scans from the end — the last name of a path

When a program runs, its path module reads a path from its end to find the directory, the
last segment and the extension. Slashes at the end are passed over, then the last segment is
read up to the slash in front of it. What is kept on the way are positions, counted in units.

For a path that ends in a name it is worked out here what the scans give
(`ScanBack.dirname_eq`, `ScanBack.basename_eq`, `ScanBack.basenameWithout_eq`,
`ScanBack.extname_eq`), and likewise for slashes alone.
-/

namespace ModuleAssets.Path

namespace ScanBack

/-- The unit of a slash. -/
def slash : Nat := '/'.toNat

/-- The unit of a dot. -/
def dot : Nat := '.'.toNat

/-! ## Directories -/

/-- Where the directory ends in a path that is read from its end. That is the slash in front
of the last segment, unless this is the first unit. `matched` tells that only slashes were
read. -/
def directoryEnd (matched : Bool) : List Nat → Option Nat
  | [] => none
  | [_] => none
  | c :: d :: before =>
    if c = slash then
      if matched then directoryEnd true (d :: before) else some (before.length + 1)
    else directoryEnd false (d :: before)

/-- The directory of a path. -/
def dirname (path : List Nat) : List Nat :=
  if path = [] then [dot]
  else
    match directoryEnd true path.reverse with
    | none => if path.head? = some slash then [slash] else [dot]
    | some stop => if path.head? = some slash ∧ stop = 1 then [slash, slash] else path.take stop

/-! ## Last segments -/

/-- Where a segment starts and, if it has a unit, where it ends. -/
structure Bounds where
  start : Nat
  stop : Option Nat

/-- The last segment of a path that is read from its end. -/
def bounds (stop : Option Nat) : List Nat → Bounds
  | [] => ⟨0, stop⟩
  | c :: before =>
    if c = slash then if stop.isSome then ⟨before.length + 1, stop⟩ else bounds none before
    else bounds (stop.or (some (before.length + 1))) before

/-- The last segment, and where it ends without an ending. -/
structure EndingBounds extends Bounds where
  /-- Missing as long as the ending is neither found nor ruled out. -/
  cut : Option Nat

/-- The last segment of a path that is read from its end together with an ending, of which
`left` is what is not read yet. -/
def endingBounds (left : List Nat) (stop cut : Option Nat) : List Nat → EndingBounds
  | [] => ⟨⟨0, stop⟩, cut⟩
  | c :: before =>
    if c = slash then
      if stop.isSome then ⟨⟨before.length + 1, stop⟩, cut⟩ else endingBounds left none cut before
    else
      let stop := stop.or (some (before.length + 1))
      match left with
      | [] => endingBounds [] stop cut before
      | e :: left =>
        if c = e then endingBounds left stop (if left = [] then some before.length else cut) before
        else endingBounds [] stop stop before

/-- The units from one position to another. -/
def slice (path : List Nat) (start stop : Nat) : List Nat :=
  (path.take stop).drop start

/-- The last segment of a path. -/
def basename (path : List Nat) : List Nat :=
  let found := bounds none path.reverse
  match found.stop with
  | none => []
  | some stop => slice path found.start stop

/-- The last segment of a path without an ending. -/
def basenameWithout (path ending : List Nat) : List Nat :=
  if ending = [] ∨ path.length < ending.length then basename path
  else if ending = path then []
  else
    let found := endingBounds ending.reverse none none path.reverse
    let cut := if found.cut = some found.start then found.stop else found.cut
    slice path found.start (cut.getD path.length)

/-! ## Extensions -/

/-- The last segment, and what is known of its dots. -/
structure DotBounds extends Bounds where
  /-- The last dot. -/
  dot : Option Nat
  /-- What stands in front of it: nothing (`0`), or something that starts with a dot (`1`) or
  with another unit (`-1`). -/
  state : Int

/-- The dots of the last segment of a path that is read from its end. -/
def dotBounds (stop last : Option Nat) (state : Int) : List Nat → DotBounds
  | [] => ⟨⟨0, stop⟩, last, state⟩
  | c :: before =>
    if c = slash then
      if stop.isSome then ⟨⟨before.length + 1, stop⟩, last, state⟩
      else dotBounds none last state before
    else
      let stop := stop.or (some (before.length + 1))
      if c = dot then
        if last.isSome then dotBounds stop last 1 before
        else dotBounds stop (some before.length) state before
      else dotBounds stop last (if last.isSome then -1 else state) before

/-- The extension of a path. -/
def extname (path : List Nat) : List Nat :=
  let found := dotBounds none none 0 path.reverse
  match found.dot, found.stop with
  | some last, some stop =>
    if found.state = 0 ∨ (found.state = 1 ∧ last + 1 = stop ∧ last = found.start + 1) then []
    else slice path last stop
  | _, _ => []

end ScanBack

open ScanBack (slash dot)

variable {path name rest ending : List Nat} {directory : Option (List Nat)} {slashes stop : Nat}
  {last cut : Option Nat} {c : Nat}

/-! ## Paths from their end -/

namespace EndsInName

theorem reverse_eq (h : EndsInName slash path directory name slashes) :
    path.reverse =
      List.replicate slashes slash ++ (name.reverse ++ (frontOf slash directory).reverse) := by
  rw [h.path_eq, List.reverse_append, List.reverse_replicate, List.reverse_append]

theorem length_eq (h : EndsInName slash path directory name slashes) :
    path.length = (frontOf slash directory).length + name.length + slashes := by
  rw [h.path_eq, List.length_append, List.length_append, List.length_replicate]

/-- The bounds of the name have it between them. -/
theorem slice_eq (h : EndsInName slash path directory name slashes) :
    ScanBack.slice path (frontOf slash directory).length
      ((frontOf slash directory).length + name.length) = name := by
  rw [ScanBack.slice, h.path_eq, ← List.length_append, List.take_left', List.drop_left']
  · rfl
  · rfl

end EndsInName

namespace ScanBack

/-! ## Where directories end -/

theorem directoryEnd_replicate (slashes : Nat) :
    directoryEnd true (List.replicate slashes slash) = none := by
  induction slashes with
  | zero => rfl
  | succ n ih =>
    cases n with
    | zero => rfl
    | succ n =>
      rw [List.replicate_succ, List.replicate_succ, directoryEnd, if_pos rfl, if_pos rfl]
      exact ih

theorem directoryEnd_slashes (slashes : Nat) (h : rest ≠ []) :
    directoryEnd true (List.replicate slashes slash ++ rest) = directoryEnd true rest := by
  induction slashes with
  | zero => rfl
  | succ n ih =>
    obtain ⟨d, before, hrest⟩ : ∃ d before, List.replicate n slash ++ rest = d :: before :=
      List.exists_cons_of_ne_nil fun hnil => h (List.append_eq_nil_iff.1 hnil).2
    rw [List.replicate_succ, List.cons_append, hrest, directoryEnd, if_pos rfl, if_pos rfl,
      ← hrest, ih]

theorem directoryEnd_cons (matched : Bool) (h : c ≠ slash) :
    directoryEnd matched (c :: rest) = directoryEnd false rest := by
  cases rest with
  | nil => rfl
  | cons d before => rw [directoryEnd, if_neg h]

theorem directoryEnd_name (matched : Bool) (hname : name ≠ []) (h : slash ∉ name) :
    directoryEnd matched (name ++ rest) = directoryEnd false rest := by
  induction name generalizing matched with
  | nil => exact absurd rfl hname
  | cons c more ih =>
    obtain ⟨hc, hmore⟩ := not_or.1 (mt List.mem_cons.2 h)
    rw [List.cons_append, directoryEnd_cons matched (Ne.symm hc)]
    by_cases hnil : more = []
    · rw [hnil, List.nil_append]
    · exact ih false hnil hmore

theorem directoryEnd_front (directory : Option (List Nat)) :
    directoryEnd false (frontOf slash directory).reverse =
      directory.bind fun directory => if directory = [] then none else some directory.length := by
  cases directory with
  | none => rfl
  | some directory =>
    rw [frontOf, List.reverse_append]
    obtain rfl | ⟨before, d, rfl⟩ := List.eq_nil_or_concat' directory
    · rfl
    · have hne : before ++ [d] ≠ [] := by simp
      rw [List.reverse_append]
      show directoryEnd false (slash :: d :: before.reverse) = if before ++ [d] = [] then _ else _
      rw [directoryEnd, if_pos rfl, if_neg hne, List.length_reverse, List.length_append]
      rfl

/-- **The directory is what stands in front of the slash before the name**, but of a slash
there the scan gives two. -/
theorem dirname_eq (h : EndsInName slash path directory name slashes) :
    dirname path =
      directory.elim [dot] fun directory =>
        if directory = [] then [slash]
        else if directory = [slash] then [slash, slash] else directory := by
  have hname : name.reverse ≠ [] := by simpa using h.nonempty
  have hrest : name.reverse ++ (frontOf slash directory).reverse ≠ [] :=
    fun hnil => hname (List.append_eq_nil_iff.1 hnil).1
  have hend : directoryEnd true path.reverse =
      directory.bind fun directory => if directory = [] then none else some directory.length := by
    rw [h.reverse_eq, directoryEnd_slashes slashes hrest,
      directoryEnd_name true hname (by simpa using h.not_mem), directoryEnd_front]
  rw [dirname, if_neg h.ne_nil, hend]
  cases directory with
  | none =>
    have hhead : path.head? ≠ some slash := by
      obtain ⟨c, more, rfl⟩ := List.exists_cons_of_ne_nil h.nonempty
      rw [h.path_eq]
      exact fun hc => h.not_mem (Option.some_inj.1 hc ▸ List.mem_cons_self)
    exact if_neg hhead
  | some directory =>
    obtain rfl | ⟨c, more, rfl⟩ : directory = [] ∨ ∃ c more, directory = c :: more := by
      cases directory <;> simp
    · have hhead : path.head? = some slash := by rw [h.path_eq]; rfl
      exact if_pos hhead
    · have hhead : path.head? = some c := by rw [h.path_eq]; rfl
      have htake : path.take (c :: more).length = c :: more := by
        rw [h.path_eq, frontOf, List.append_assoc, List.append_assoc]
        exact List.take_left
      have hroot : (path.head? = some slash ∧ (c :: more).length = 1) ↔ c :: more = [slash] := by
        rw [hhead, List.length_cons, Option.some_inj, List.cons.injEq, Nat.add_eq_right,
          List.length_eq_zero_iff]
      show (if _ ∧ (c :: more).length = 1 then _ else path.take (c :: more).length) =
        if c :: more = [slash] then _ else _
      rw [htake]
      exact if_congr hroot rfl rfl

theorem dirname_replicate (slashes : Nat) :
    dirname (List.replicate (slashes + 1) slash) = [slash] := by
  rw [dirname, if_neg (by simp), List.reverse_replicate, directoryEnd_replicate]
  exact if_pos rfl

/-! ## Where last segments stand -/

theorem bounds_slashes (slashes : Nat) :
    bounds none (List.replicate slashes slash ++ rest) = bounds none rest := by
  induction slashes with
  | zero => rfl
  | succ n ih =>
    rw [List.replicate_succ, List.cons_append, bounds, if_pos rfl]
    exact ih

theorem bounds_cons (h : c ≠ slash) :
    bounds none (c :: rest) = bounds (some (rest.length + 1)) rest :=
  if_neg h

theorem bounds_name (h : slash ∉ name) :
    bounds (some stop) (name ++ rest) = bounds (some stop) rest := by
  induction name with
  | nil => rfl
  | cons c more ih =>
    obtain ⟨hc, hmore⟩ := not_or.1 (mt List.mem_cons.2 h)
    rw [List.cons_append, bounds, if_neg (Ne.symm hc)]
    exact ih hmore

theorem bounds_front (directory : Option (List Nat)) :
    bounds (some stop) (frontOf slash directory).reverse =
      ⟨(frontOf slash directory).length, some stop⟩ := by
  cases directory with
  | none => rfl
  | some directory =>
    rw [frontOf, List.reverse_append, List.length_append]
    show bounds (some stop) (slash :: directory.reverse) = _
    rw [bounds, if_pos rfl, List.length_reverse]
    rfl

theorem bounds_eq (h : EndsInName slash path directory name slashes) :
    bounds none path.reverse =
      ⟨(frontOf slash directory).length,
        some ((frontOf slash directory).length + name.length)⟩ := by
  obtain ⟨front, c, rfl⟩ := (List.eq_nil_or_concat' name).resolve_left h.nonempty
  obtain ⟨hfront, hc⟩ := not_or.1 (mt List.mem_append.2 h.not_mem)
  have hlength : (front.reverse ++ (frontOf slash directory).reverse).length + 1 =
      (frontOf slash directory).length + (front ++ [c]).length := by
    simp only [List.length_append, List.length_reverse, List.length_singleton]
    omega
  rw [h.reverse_eq, bounds_slashes, List.reverse_append]
  show bounds none (c :: (front.reverse ++ _)) = _
  rw [bounds_cons fun heq => hc (heq ▸ List.mem_singleton_self c), hlength,
    bounds_name (by simpa using hfront), bounds_front]

theorem bounds_replicate (slashes : Nat) : bounds none (List.replicate slashes slash) = ⟨0, none⟩ := by
  have hslashes := @bounds_slashes [] slashes
  rwa [List.append_nil] at hslashes

/-- **The last segment is the name.** -/
theorem basename_eq (h : EndsInName slash path directory name slashes) : basename path = name := by
  rw [basename, bounds_eq h]
  exact h.slice_eq

theorem basename_replicate (slashes : Nat) : basename (List.replicate slashes slash) = [] := by
  rw [basename, List.reverse_replicate, bounds_replicate]

/-! ## Where endings begin -/

/-- The ending does not change where the segment is found. -/
theorem endingBounds_toBounds (left : List Nat) (stop cut : Option Nat) (path : List Nat) :
    (endingBounds left stop cut path).toBounds = bounds stop path := by
  induction path generalizing left stop cut with
  | nil => rfl
  | cons c before ih =>
    rw [endingBounds, bounds]
    by_cases hc : c = slash
    · rw [if_pos hc, if_pos hc]
      by_cases hstop : stop.isSome = true
      · rw [if_pos hstop, if_pos hstop]
      · rw [if_neg hstop, if_neg hstop]
        exact ih ..
    rw [if_neg hc, if_neg hc]
    cases left with
    | nil => exact ih ..
    | cons e left =>
      show (if c = e then _ else _ : EndingBounds).toBounds = _
      by_cases he : c = e
      · rw [if_pos he]
        exact ih ..
      · rw [if_neg he]
        exact ih ..

theorem endingBounds_slashes (left : List Nat) (slashes : Nat) :
    endingBounds left none none (List.replicate slashes slash ++ rest) =
      endingBounds left none none rest := by
  induction slashes with
  | zero => rfl
  | succ n ih =>
    rw [List.replicate_succ, List.cons_append, endingBounds, if_pos rfl]
    exact ih

/-- The first unit that is no slash ends the segment. -/
theorem endingBounds_cons (left : List Nat) (h : c ≠ slash) :
    endingBounds left none cut (c :: rest) =
      endingBounds left (some (rest.length + 1)) cut (c :: rest) := by
  rw [endingBounds, if_neg h, endingBounds, if_neg h]
  rfl

/-- Without units left of the ending it is settled. -/
theorem cut_endingBounds_nil (stop cut : Option Nat) (path : List Nat) :
    (endingBounds [] stop cut path).cut = cut := by
  induction path generalizing stop with
  | nil => rfl
  | cons c before ih =>
    rw [endingBounds]
    by_cases hc : c = slash
    · rw [if_pos hc]
      by_cases hstop : stop.isSome = true
      · rw [if_pos hstop]
      · rw [if_neg hstop]
        exact ih _
    · rw [if_neg hc]
      exact ih _

/-- In front of the segment nothing is read of the ending. -/
theorem cut_endingBounds_front (left : List Nat) (directory : Option (List Nat)) :
    (endingBounds left (some stop) cut (frontOf slash directory).reverse).cut = cut := by
  cases directory with
  | none => rfl
  | some directory =>
    rw [frontOf, List.reverse_append]
    rfl

/-- Units that the ending shares with the segment are read off both. -/
theorem endingBounds_shared {shared left : List Nat} (hleft : left ≠ []) (h : slash ∉ shared) :
    endingBounds (shared ++ left) (some stop) cut (shared ++ rest) =
      endingBounds left (some stop) cut rest := by
  induction shared with
  | nil => rfl
  | cons c more ih =>
    obtain ⟨hc, hmore⟩ := not_or.1 (mt List.mem_cons.2 h)
    have hne : more ++ left ≠ [] := fun hnil => hleft (List.append_eq_nil_iff.1 hnil).2
    rw [List.cons_append, List.cons_append, endingBounds, if_neg (Ne.symm hc)]
    show (if c = c then endingBounds _ (some stop) (if more ++ left = [] then _ else cut) _
      else _) = _
    rw [if_pos rfl, if_neg hne]
    exact ih hmore

/-- The ending is read off the segment. -/
theorem cut_endingBounds_read {left : List Nat} (hleft : left ≠ []) (h : slash ∉ left) :
    (endingBounds left (some stop) cut (left ++ rest)).cut = some rest.length := by
  obtain ⟨front, e, rfl⟩ := (List.eq_nil_or_concat' left).resolve_left hleft
  obtain ⟨hfront, he⟩ := not_or.1 (mt List.mem_append.2 h)
  have hne : e ≠ slash := fun heq => he (heq ▸ List.mem_singleton_self e)
  rw [List.append_assoc, endingBounds_shared (List.cons_ne_nil _ _) hfront]
  show (endingBounds [e] (some stop) cut (e :: rest)).cut = _
  rw [endingBounds, if_neg hne]
  show (if e = e then endingBounds [] (some stop) (some rest.length) rest else _).cut = _
  rw [if_pos rfl, cut_endingBounds_nil]

/-- Ending and segment part, so the ending is ruled out. -/
theorem cut_endingBounds_parted {shared left : List Nat} {d : Nat} (h : slash ∉ shared)
    (hd : d ≠ slash) (hne : d ≠ c) :
    (endingBounds (shared ++ c :: left) (some stop) cut (shared ++ d :: rest)).cut = some stop := by
  rw [endingBounds_shared (List.cons_ne_nil _ _) h, endingBounds, if_neg hd]
  show (if d = c then _ else endingBounds [] (some stop) (some stop) rest).cut = _
  rw [if_neg hne, cut_endingBounds_nil]

/-- Two lists part somewhere, unless one goes on where the other stops. -/
theorem exists_parted (xs ys : List Nat) :
    (∃ more, ys = xs ++ more) ∨ (∃ more, more ≠ [] ∧ xs = ys ++ more) ∨
      ∃ shared x xs' y ys', y ≠ x ∧ xs = shared ++ x :: xs' ∧ ys = shared ++ y :: ys' := by
  induction xs generalizing ys with
  | nil => exact .inl ⟨ys, rfl⟩
  | cons x xs ih =>
    cases ys with
    | nil => exact .inr (.inl ⟨x :: xs, List.cons_ne_nil _ _, rfl⟩)
    | cons y ys =>
      by_cases hsame : y = x
      · subst hsame
        obtain ⟨more, rfl⟩ | ⟨more, hmore, rfl⟩ | ⟨shared, a, as, b, bs, hne, rfl, rfl⟩ := ih ys
        · exact .inl ⟨more, rfl⟩
        · exact .inr (.inl ⟨more, hmore, rfl⟩)
        · exact .inr (.inr ⟨y :: shared, a, as, b, bs, hne, rfl, rfl⟩)
      · exact .inr (.inr ⟨[], x, xs, y, ys, hsame, rfl, rfl⟩)

/-- The ending of a path is looked for from the end of its name. -/
theorem endingBounds_eq (h : EndsInName slash path directory name slashes) (left : List Nat) :
    endingBounds left none none path.reverse =
      endingBounds left (some ((frontOf slash directory).length + name.length)) none
        (name.reverse ++ (frontOf slash directory).reverse) := by
  obtain ⟨front, c, rfl⟩ := (List.eq_nil_or_concat' name).resolve_left h.nonempty
  have hc : c ≠ slash := fun heq =>
    h.not_mem (heq ▸ List.mem_append_right _ (List.mem_singleton_self c))
  have hlength : (front.reverse ++ (frontOf slash directory).reverse).length + 1 =
      (frontOf slash directory).length + (front ++ [c]).length := by
    simp only [List.length_append, List.length_reverse, List.length_singleton]
    omega
  rw [h.reverse_eq, endingBounds_slashes, List.reverse_append, ← hlength]
  exact endingBounds_cons left hc

/-- Where a path is cut for its ending. -/
def cutOf (path ending : List Nat) : Option Nat :=
  (endingBounds ending.reverse none none path.reverse).cut

section

variable (h : EndsInName slash path directory name slashes)
include h

theorem basenameWithout_cut (hne : ending ≠ []) (hlength : ending.length ≤ path.length)
    (hpath : ending ≠ path) :
    basenameWithout path ending =
      slice path (frontOf slash directory).length
        ((if cutOf path ending = some (frontOf slash directory).length then
          some ((frontOf slash directory).length + name.length) else cutOf path ending).getD
            path.length) := by
  have hbounds := (endingBounds_toBounds ending.reverse none none path.reverse).trans (bounds_eq h)
  rw [basenameWithout, if_neg (not_or.2 ⟨hne, Nat.not_lt.2 hlength⟩), if_neg hpath]
  dsimp only
  rw [hbounds]
  rfl

/-- **A name that ends so loses its ending**, unless it is that ending. -/
theorem basenameWithout_suffix {front : List Nat} (hne : ending ≠ [])
    (hlength : ending.length ≤ path.length) (hpath : ending ≠ path) (hname : name = front ++ ending) :
    basenameWithout path ending = if front = [] then name else front := by
  have hslash : slash ∉ ending.reverse := fun hmem =>
    h.not_mem (hname ▸ List.mem_append_right _ (List.mem_reverse.1 hmem))
  have hcut : cutOf path ending = some ((frontOf slash directory).length + front.length) := by
    rw [cutOf, endingBounds_eq h, hname, List.reverse_append, List.append_assoc,
      cut_endingBounds_read (by simpa using hne) hslash, List.length_append, List.length_reverse,
      List.length_reverse, Nat.add_comm]
  rw [basenameWithout_cut h hne hlength hpath, hcut]
  by_cases hfront : front = []
  · rw [if_pos hfront, hfront, List.length_nil, Nat.add_zero, if_pos rfl]
    exact h.slice_eq
  · have hstart : some ((frontOf slash directory).length + front.length) ≠
        some (frontOf slash directory).length := by
      simpa using hfront
    rw [if_neg hfront, if_neg hstart, Option.getD_some, slice, h.path_eq, hname,
      ← List.length_append, List.append_assoc, List.append_assoc, ← List.append_assoc _ front,
      List.take_left, List.drop_left]

/-- **An ending that only begins in front of the name keeps the slashes behind it.** -/
theorem basenameWithout_longer {front : List Nat} (hlength : ending.length ≤ path.length)
    (hpath : ending ≠ path) (hfront : front ≠ []) (hending : ending = front ++ name) :
    basenameWithout path ending = name ++ List.replicate slashes slash := by
  have hne : ending ≠ [] := by
    rw [hending]
    exact fun hnil => hfront (List.append_eq_nil_iff.1 hnil).1
  have hcut : cutOf path ending = none := by
    rw [cutOf, endingBounds_eq h, hending, List.reverse_append,
      endingBounds_shared (by simpa using hfront) (by simpa using h.not_mem),
      cut_endingBounds_front]
  rw [basenameWithout_cut h hne hlength hpath, hcut, if_neg (Option.some_ne_none _).symm,
    Option.getD_none, slice, List.take_length, h.path_eq, List.append_assoc, List.drop_left]

/-- **Any other ending leaves the name as it is.** -/
theorem basenameWithout_parted (hpath : ending ≠ path) (hsuffix : ¬ ending <:+ name)
    (hsuffix' : ¬ name <:+ ending) : basenameWithout path ending = name := by
  by_cases hbase : ending = [] ∨ path.length < ending.length
  · rw [basenameWithout, if_pos hbase, basename_eq h]
  obtain ⟨hne, hlength⟩ := not_or.1 hbase
  have hcut : cutOf path ending =
      some ((frontOf slash directory).length + name.length) := by
    obtain ⟨more, hmore⟩ | ⟨more, -, hmore⟩ | ⟨shared, x, xs, y, ys, hxy, hxs, hys⟩ :=
      exists_parted ending.reverse name.reverse
    · exact absurd (List.reverse_prefix.1 ⟨more, hmore.symm⟩) hsuffix
    · exact absurd (List.reverse_prefix.1 ⟨more, hmore.symm⟩) hsuffix'
    · have hmem : slash ∉ shared ++ y :: ys := fun hmem =>
        h.not_mem (List.mem_reverse.1 (hys ▸ hmem))
      obtain ⟨hshared, hy⟩ := not_or.1 (mt List.mem_append.2 hmem)
      rw [cutOf, endingBounds_eq h, hxs, hys, List.append_assoc]
      exact cut_endingBounds_parted hshared (fun heq => hy (heq ▸ List.mem_cons_self)) hxy
  have hstart : some ((frontOf slash directory).length + name.length) ≠
      some (frontOf slash directory).length := by
    simpa using h.nonempty
  rw [basenameWithout_cut h hne (Nat.not_lt.1 hlength) hpath, hcut, if_neg hstart]
  exact h.slice_eq

end

/-- Of slashes alone everything is kept. -/
theorem basenameWithout_replicate (hne : ending ≠ []) (hlength : ending.length ≤ slashes)
    (hpath : ending ≠ List.replicate slashes slash) :
    basenameWithout (List.replicate slashes slash) ending = List.replicate slashes slash := by
  have hend := @endingBounds_slashes [] ending.reverse slashes
  rw [List.append_nil] at hend
  rw [basenameWithout, if_neg (not_or.2 ⟨hne, by simpa using hlength⟩), if_neg hpath,
    List.reverse_replicate, hend]
  exact List.take_length

/-! ## Extensions -/

theorem dotBounds_slashes (slashes : Nat) :
    dotBounds none none 0 (List.replicate slashes slash ++ rest) = dotBounds none none 0 rest := by
  induction slashes with
  | zero => rfl
  | succ n ih =>
    rw [List.replicate_succ, List.cons_append, dotBounds, if_pos rfl]
    exact ih

theorem dotBounds_cons {state : Int} (h : c ≠ slash) :
    dotBounds none last state (c :: rest) =
      dotBounds (some (rest.length + 1)) last state (c :: rest) := by
  rw [dotBounds, if_neg h, dotBounds, if_neg h]
  rfl

/-- The dots of a path are looked for from the end of its name. -/
theorem dotBounds_eq (h : EndsInName slash path directory name slashes) :
    dotBounds none none 0 path.reverse =
      dotBounds (some ((frontOf slash directory).length + name.length)) none 0
        (name.reverse ++ (frontOf slash directory).reverse) := by
  obtain ⟨front, c, rfl⟩ := (List.eq_nil_or_concat' name).resolve_left h.nonempty
  have hc : c ≠ slash := fun heq =>
    h.not_mem (heq ▸ List.mem_append_right _ (List.mem_singleton_self c))
  have hlength : (front.reverse ++ (frontOf slash directory).reverse).length + 1 =
      (frontOf slash directory).length + (front ++ [c]).length := by
    simp only [List.length_append, List.length_reverse, List.length_singleton]
    omega
  rw [h.reverse_eq, dotBounds_slashes, List.reverse_append, ← hlength]
  exact dotBounds_cons hc

/-- Units without a dot are passed over. -/
theorem dotBounds_tail {tail : List Nat} {state : Int} (hslash : slash ∉ tail) (hdot : dot ∉ tail) :
    dotBounds (some stop) none state (tail ++ rest) = dotBounds (some stop) none state rest := by
  induction tail with
  | nil => rfl
  | cons c more ih =>
    obtain ⟨hc, hmore⟩ := not_or.1 (mt List.mem_cons.2 hslash)
    obtain ⟨hc', hmore'⟩ := not_or.1 (mt List.mem_cons.2 hdot)
    rw [List.cons_append, dotBounds, if_neg (Ne.symm hc)]
    dsimp only
    rw [if_neg (Ne.symm hc')]
    exact ih hmore hmore'

theorem dotBounds_front (directory : Option (List Nat)) (state : Int) :
    dotBounds (some stop) last state (frontOf slash directory).reverse =
      ⟨⟨(frontOf slash directory).length, some stop⟩, last, state⟩ := by
  cases directory with
  | none => rfl
  | some directory =>
    rw [frontOf, List.reverse_append, List.length_append]
    show dotBounds (some stop) last state (slash :: directory.reverse) = _
    rw [dotBounds, if_pos rfl, List.length_reverse]
    rfl

/-- What stands in front of the last dot. -/
def stateOf (state : Int) : List Nat → Int
  | [] => state
  | c :: _ => if c = dot then 1 else -1

/-- In front of the last dot the first unit decides. The induction is on the units, from the
end that is read first. -/
theorem dotBounds_stem {stem : List Nat} (h : slash ∉ stem) (lastDot : Nat)
    (directory : Option (List Nat)) (state : Int) :
    dotBounds (some stop) (some lastDot) state
        (stem.reverse ++ (frontOf slash directory).reverse) =
      ⟨⟨(frontOf slash directory).length, some stop⟩, some lastDot, stateOf state stem⟩ := by
  induction stem using List.reverseRecOn generalizing state with
  | nil => exact dotBounds_front directory state
  | append_singleton stem c ih =>
    obtain ⟨hstem, hc⟩ := not_or.1 (mt List.mem_append.2 h)
    have hne : c ≠ slash := fun heq => hc (heq ▸ List.mem_singleton_self c)
    have hread : stateOf state (stem ++ [c]) = stateOf (if c = dot then 1 else -1) stem := by
      cases stem <;> rfl
    rw [List.reverse_append, hread]
    show dotBounds _ _ _ (c :: (stem.reverse ++ _)) = _
    rw [dotBounds, if_neg hne]
    dsimp only
    by_cases hdot : c = dot
    · rw [if_pos hdot, if_pos hdot]
      exact ih hstem 1
    · rw [if_neg hdot, if_neg hdot]
      exact ih hstem (-1)

/-- A name without a dot has no extension. -/
theorem extname_of_not_mem (h : EndsInName slash path directory name slashes) (hdot : dot ∉ name) :
    extname path = [] := by
  have hfound : dotBounds none none 0 path.reverse =
      ⟨⟨(frontOf slash directory).length,
        some ((frontOf slash directory).length + name.length)⟩, none, 0⟩ := by
    rw [dotBounds_eq h, dotBounds_tail (by simpa using h.not_mem) (by simpa using hdot),
      dotBounds_front]
  rw [extname, hfound]

/-- **The extension goes from the last dot on**, unless the name begins with that or is two
dots. -/
theorem extname_eq {stem tail : List Nat}
    (h : EndsInName slash path directory (stem ++ dot :: tail) slashes) (hdot : dot ∉ tail) :
    extname path = if stem = [] ∨ (stem = [dot] ∧ tail = []) then [] else dot :: tail := by
  obtain ⟨hstem, htail⟩ := not_or.1 (mt List.mem_append.2 h.not_mem)
  have htail' : slash ∉ tail := fun hmem => htail (List.mem_cons_of_mem _ hmem)
  have hreverse : (stem ++ dot :: tail).reverse ++ (frontOf slash directory).reverse =
      tail.reverse ++ dot :: (stem.reverse ++ (frontOf slash directory).reverse) := by simp
  have hlength : (stem.reverse ++ (frontOf slash directory).reverse).length =
      (frontOf slash directory).length + stem.length := by
    simp only [List.length_append, List.length_reverse]
    omega
  have hfound : dotBounds none none 0 path.reverse =
      ⟨⟨(frontOf slash directory).length,
        some ((frontOf slash directory).length + (stem ++ dot :: tail).length)⟩,
        some ((frontOf slash directory).length + stem.length), stateOf 0 stem⟩ := by
    rw [dotBounds_eq h, hreverse, dotBounds_tail (by simpa using htail') (by simpa using hdot),
      dotBounds, if_neg (by decide)]
    dsimp only
    rw [if_pos rfl, hlength]
    exact dotBounds_stem hstem _ directory 0
  have hslice : slice path ((frontOf slash directory).length + stem.length)
      ((frontOf slash directory).length + (stem ++ dot :: tail).length) = dot :: tail := by
    have hname := h.slice_eq
    rw [slice] at hname ⊢
    rw [← List.drop_drop, hname, List.drop_left]
  rw [extname, hfound]
  dsimp only
  rw [hslice, List.length_append, List.length_cons]
  refine if_congr ?_ rfl rfl
  cases stem with
  | nil => simp [stateOf]
  | cons c more =>
    by_cases hc : c = dot
    · subst hc
      have hstate : stateOf 0 (dot :: more) = 1 := rfl
      simp only [hstate, List.length_cons, List.cons.injEq, true_and, reduceCtorEq, false_or,
        ← List.length_eq_zero_iff]
      omega
    · simp [stateOf, hc]

theorem extname_replicate (slashes : Nat) : extname (List.replicate slashes slash) = [] := by
  have hfound := @dotBounds_slashes [] slashes
  rw [List.append_nil] at hfound
  rw [extname, List.reverse_replicate, hfound]
  rfl

end ScanBack

end ModuleAssets.Path
