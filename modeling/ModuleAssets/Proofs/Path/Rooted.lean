import ModuleAssets.Proofs.Path.Below
/-!
# Rooted paths — absolute paths by their names

An absolute path that is worked out is made of names that are no steps. Whatever a path
leads to from a directory is rooted like this (`resolve_rooted`), so that to resolve a path
is to go on from the names of the directory with its pieces.
-/

namespace ModuleAssets.Path

variable {names : List (List Char)} {name path : List Char}

/-- The absolute path with some names. -/
def rooted (names : List (List Char)) : List Char :=
  '/' :: Text.joinWithChar '/' names

/-- A piece of a path, which may be a step. -/
def IsPiece (piece : List Char) : Prop :=
  piece ≠ [] ∧ '/' ∉ piece

theorem IsPlain.isPiece (h : IsPlain name) : IsPiece name :=
  ⟨h.1, h.2.2.2⟩

/-! ## Pieces and names -/

theorem not_mem_of_mem_pieces {piece : List Char} (h : piece ∈ pieces path) : '/' ∉ piece := by
  unfold pieces at h
  induction path generalizing piece with
  | nil =>
    obtain rfl := List.mem_singleton.1 h
    exact List.not_mem_nil
  | cons c rest ih =>
    rw [Text.splitAtChar] at h
    split at h
    · obtain rfl | h := List.mem_cons.1 h
      · exact List.not_mem_nil
      · exact ih h
    · rename_i hc
      cases hrest : Text.splitAtChar '/' rest with
      | nil => exact absurd hrest (Text.splitAtChar_ne_nil '/' rest)
      | cons first others =>
        rw [hrest] at h
        obtain rfl | h := List.mem_cons.1 h
        · refine List.mem_cons.not.2 (not_or.2 ⟨fun heq => hc (heq ▸ beq_self_eq_true '/'), ?_⟩)
          exact ih (hrest ▸ List.mem_cons_self)
        · exact ih (hrest ▸ List.mem_cons_of_mem _ h)

theorem pieces_joined (hne : names ≠ []) (h : ∀ n ∈ names, '/' ∉ n) :
    pieces (Text.joinWithChar '/' names) = names := by
  induction names with
  | nil => exact absurd rfl hne
  | cons first rest ih =>
    have hfirst := pieces_eq_singleton (h first List.mem_cons_self)
    cases rest with
    | nil => exact hfirst
    | cons next rest =>
      rw [Text.joinWithChar, pieces_append, hfirst,
        ih (List.cons_ne_nil _ _) fun n hn => h n (List.mem_cons_of_mem _ hn)]
      rfl

theorem joined_append {front back : List (List Char)} (hfront : front ≠ []) (hback : back ≠ []) :
    Text.joinWithChar '/' (front ++ back) =
      Text.joinWithChar '/' front ++ '/' :: Text.joinWithChar '/' back := by
  induction front with
  | nil => exact absurd rfl hfront
  | cons first rest ih =>
    cases rest with
    | nil =>
      obtain ⟨next, others, rfl⟩ := List.exists_cons_of_ne_nil hback
      rfl
    | cons next rest =>
      rw [List.cons_append, List.cons_append, Text.joinWithChar, ← List.cons_append,
        ih (List.cons_ne_nil _ _), Text.joinWithChar, List.append_assoc]
      rfl

theorem joined_ne_nil {place : List (List Char)} (hne : place ≠ [])
    (h : ∀ step ∈ place, IsPiece step) : Text.joinWithChar '/' place ≠ [] := by
  intro hnil
  have hpieces := pieces_joined hne fun step hstep => (h step hstep).2
  rw [hnil] at hpieces
  exact (h [] (hpieces ▸ List.mem_singleton_self _)).1 rfl

theorem keepSegment_plain (h : IsPlain name) (absolute : Bool) (kept : List (List Char)) :
    keepSegment absolute kept name = name :: kept := by
  obtain ⟨hempty, hdot, hdots, -⟩ := h
  unfold keepSegment
  rw [if_neg (not_or.2 ⟨hempty, hdot⟩), if_neg hdots]

theorem foldl_plain (h : ∀ n ∈ names, IsPlain n) (absolute : Bool) (kept : List (List Char)) :
    names.foldl (keepSegment absolute) kept = names.reverse ++ kept := by
  induction names generalizing kept with
  | nil => rfl
  | cons first rest ih =>
    rw [List.foldl_cons, keepSegment_plain (h first List.mem_cons_self),
      ih fun n hn => h n (List.mem_cons_of_mem _ hn), List.reverse_cons, List.append_assoc]
    rfl

/-- Below the root all that is kept is plain. -/
theorem plain_foldl {steps kept : List (List Char)} (hsteps : ∀ step ∈ steps, '/' ∉ step)
    (hkept : ∀ n ∈ kept, IsPlain n) : ∀ n ∈ steps.foldl (keepSegment true) kept, IsPlain n := by
  induction steps generalizing kept with
  | nil => exact hkept
  | cons step rest ih =>
    refine ih (fun s hs => hsteps s (List.mem_cons_of_mem _ hs)) ?_
    unfold keepSegment
    split
    · exact hkept
    · rename_i hidle
      obtain ⟨hempty, hdot⟩ := not_or.1 hidle
      split
      · cases kept with
        | nil => exact fun _ => nofun
        | cons last others =>
          obtain ⟨hlast, hothers⟩ := List.forall_mem_cons.1 hkept
          dsimp only
          rw [if_neg hlast.2.2.1]
          exact hothers
      · rename_i hdots
        exact List.forall_mem_cons.2
          ⟨⟨hempty, hdot, hdots, hsteps step List.mem_cons_self⟩, hkept⟩

theorem plain_normalSegments (h : isAbsoluteChars path = true) :
    ∀ n ∈ normalSegments path, IsPlain n := by
  intro n hn
  rw [normalSegments, List.mem_reverse, h] at hn
  exact plain_foldl (fun _ => not_mem_of_mem_pieces) (List.forall_mem_nil _) n hn

theorem pieces_rooted (h : ∀ n ∈ names, IsPlain n) :
    pieces (rooted names) = [] :: if names = [] then [[]] else names := by
  rw [rooted, ← List.nil_append ('/' :: _), pieces_append]
  split
  · rename_i hnil
    rw [hnil]
    rfl
  · rename_i hne
    rw [pieces_joined hne fun n hn => (h n hn).2.2.2]
    rfl

theorem normalSegments_rooted (h : ∀ n ∈ names, IsPlain n) :
    normalSegments (rooted names) = names := by
  rw [normalSegments, pieces_rooted h, List.foldl_cons]
  split
  · rename_i hnil
    rw [hnil]
    rfl
  · show (names.foldl (keepSegment true) []).reverse = names
    rw [foldl_plain h, List.append_nil, List.reverse_reverse]

/-! ## Slashes at the end -/

/-- A path with one more name. -/
theorem rooted_concat (names : List (List Char)) (name : List Char) :
    rooted (names ++ [name]) = (if names = [] then [] else rooted names) ++ '/' :: name := by
  by_cases hnil : names = []
  · rw [hnil]
    rfl
  · rw [if_neg hnil, rooted, joined_append hnil (List.cons_ne_nil _ _)]
    rfl

theorem ne_nil_of_isAbsoluteChars (h : isAbsoluteChars path = true) : path ≠ [] := by
  rintro rfl
  cases h

/-- A slash behind a path is none in front of it. -/
theorem isAbsoluteChars_concat (h : path ≠ []) :
    isAbsoluteChars (path ++ ['/']) = isAbsoluteChars path := by
  obtain ⟨c, rest, rfl⟩ := List.exists_cons_of_ne_nil h
  rfl

theorem normalSegments_concat (h : path ≠ []) :
    normalSegments (path ++ ['/']) = normalSegments path := by
  rw [normalSegments, normalSegments, pieces_append, isAbsoluteChars_concat h, List.foldl_append]
  rfl

theorem isAbsoluteChars_slash (h : isAbsoluteChars path = true) :
    isAbsoluteChars (path ++ ['/']) = true :=
  (isAbsoluteChars_concat (ne_nil_of_isAbsoluteChars h)).trans h

theorem normalSegments_slash (h : isAbsoluteChars path = true) :
    normalSegments (path ++ ['/']) = normalSegments path :=
  normalSegments_concat (ne_nil_of_isAbsoluteChars h)

theorem trimSlashes_slash (h : isAbsoluteChars path = true) :
    trimSlashes (path ++ ['/']) = trimSlashes path := by
  rw [trimSlashes, trimSlashes, isAbsoluteChars_slash h, h, List.reverse_append]
  rfl

/-- No slash is taken away from the end of a name. -/
theorem trimSlashes_name (front : List Char) (h : IsPlain name) :
    trimSlashes (front ++ name) = front ++ name := by
  have hlast : (front ++ name).reverse.dropWhile (· == '/') = (front ++ name).reverse := by
    obtain rfl | ⟨cs, c, rfl⟩ := List.eq_nil_or_concat' name
    · exact absurd rfl h.1
    · have hc : c ≠ '/' := fun heq =>
        h.2.2.2 (heq ▸ List.mem_append_right _ List.mem_cons_self)
      rw [← List.append_assoc, List.reverse_append]
      exact List.dropWhile_cons_of_neg (by simpa using hc)
  rw [trimSlashes, hlast, List.reverse_reverse]
  exact if_neg fun hnil => h.1 (List.append_eq_nil_iff.1 hnil.1).2

theorem trimSlashes_rooted (h : ∀ n ∈ names, IsPlain n) :
    trimSlashes (rooted names) = rooted names := by
  obtain rfl | ⟨front, name, rfl⟩ := List.eq_nil_or_concat' names
  · rfl
  · rw [rooted_concat, List.append_cons]
    exact trimSlashes_name _ (h name (List.mem_append_right _ List.mem_cons_self))

/-- **An absolute path is worked out to its names.** -/
theorem trimSlashes_normalizeChars (h : isAbsoluteChars path = true) :
    trimSlashes (normalizeChars path) = rooted (normalSegments path) := by
  have hplain := trimSlashes_rooted (plain_normalSegments h)
  rw [normalizeChars, if_neg (ne_nil_of_isAbsoluteChars h), h]
  dsimp only
  rw [if_pos rfl, if_neg (List.cons_ne_nil _ _)]
  split
  · exact (trimSlashes_slash rfl).trans hplain
  · exact hplain

/-! ## Going on from a directory -/

/-- The names that a path leads to from the names of a directory. -/
def goOn (names : List (List Char)) (path : List Char) : List (List Char) :=
  if isAbsoluteChars path then normalSegments path
  else ((pieces path).foldl (keepSegment true) names.reverse).reverse

theorem plain_goOn (h : ∀ n ∈ names, IsPlain n) (path : List Char) :
    ∀ n ∈ goOn names path, IsPlain n := by
  intro n hn
  rw [goOn] at hn
  split at hn
  · exact plain_normalSegments ‹_› n hn
  · rw [List.mem_reverse] at hn
    exact plain_foldl (fun _ => not_mem_of_mem_pieces)
      (fun n hn => h n (List.mem_reverse.1 hn)) n hn

/-- **A path leads from a directory to where its pieces go on.** -/
theorem resolve_rooted (h : ∀ n ∈ names, IsPlain n) (path : String) :
    resolve [String.ofList (rooted names), path] =
      some (String.ofList (rooted (goOn names path.toList))) := by
  have hresolved (cs : List Char) (hcs : isAbsoluteChars cs = true) :
      String.ofList (trimSlashes (normalizeChars cs)) =
        String.ofList (rooted (normalSegments cs)) :=
    congrArg String.ofList (trimSlashes_normalizeChars hcs)
  have hsince : sinceAbsolute [rooted names] = some [rooted names] := rfl
  rw [resolve, List.map_cons, List.map_cons, List.map_nil, String.toList_ofList]
  show (sinceAbsolute [path.toList, rooted names]).map _ = _
  rw [sinceAbsolute, goOn]
  by_cases hempty : path.toList = []
  · rw [if_pos hempty, hsince, hempty]
    refine congrArg some ((hresolved (rooted names) rfl).trans ?_)
    rw [normalSegments_rooted h]
    show _ = String.ofList (rooted names.reverse.reverse)
    rw [List.reverse_reverse]
  · rw [if_neg hempty]
    by_cases habsolute : isAbsoluteChars path.toList = true
    · rw [if_pos habsolute, if_pos habsolute]
      exact congrArg some (hresolved _ habsolute)
    · rw [if_neg habsolute, if_neg habsolute, hsince]
      refine congrArg some ((hresolved (rooted names ++ '/' :: path.toList) rfl).trans ?_)
      rw [normalSegments_append, normalSegments_slash rfl, normalSegments_rooted h]
      rfl

/-- Segments from an absolute one on are an absolute path. -/
theorem isAbsoluteChars_sinceAbsolute {segments parts : List (List Char)}
    (h : sinceAbsolute segments = some parts) :
    isAbsoluteChars (Text.joinWithChar '/' parts) = true := by
  suffices hfirst : ∃ first rest, parts = first :: rest ∧ isAbsoluteChars first = true by
    obtain ⟨first, rest, rfl, hfirst⟩ := hfirst
    cases first with
    | nil => cases hfirst
    | cons c cs => cases rest <;> exact hfirst
  induction segments generalizing parts with
  | nil => cases h
  | cons segment before ih =>
    rw [sinceAbsolute] at h
    split at h
    · exact ih h
    · split at h
      · rename_i habsolute
        obtain rfl := Option.some.inj h
        exact ⟨segment, [], rfl, habsolute⟩
      · obtain ⟨found, hfound, rfl⟩ := Option.map_eq_some_iff.1 h
        obtain ⟨first, rest, rfl, hfirst⟩ := ih hfound
        exact ⟨first, rest ++ [segment], rfl, hfirst⟩

/-- What segments lead to has the names of the segments put together. -/
theorem resolve_eq_rooted {segments : List String} {parts : List (List Char)}
    (h : sinceAbsolute (segments.map String.toList).reverse = some parts) :
    resolve segments =
      some (String.ofList (rooted (normalSegments (Text.joinWithChar '/' parts)))) := by
  rw [resolve, h]
  exact congrArg (some <| String.ofList ·)
    (trimSlashes_normalizeChars (isAbsoluteChars_sinceAbsolute h))

theorem resolve_singleton {path : String} (h : isAbsolute path = true) :
    resolve [path] = some (String.ofList (rooted (normalSegments path.toList))) := by
  have hsince : sinceAbsolute [path.toList] = some [path.toList] := by
    rw [sinceAbsolute, if_neg (ne_nil_of_isAbsoluteChars h)]
    exact if_pos h
  have hresolve : resolve [path] =
      some (String.ofList (rooted (normalSegments (Text.joinWithChar '/' [path.toList])))) :=
    resolve_eq_rooted hsince
  exact hresolve

/-- **What is resolved is rooted.** -/
theorem exists_rooted_of_resolve {segments : List String} {path : String}
    (h : resolve segments = some path) :
    ∃ names, (∀ n ∈ names, IsPlain n) ∧ path = String.ofList (rooted names) := by
  obtain ⟨parts, hparts, -⟩ := Option.map_eq_some_iff.1 h
  have hrooted := resolve_eq_rooted hparts
  rw [h, Option.some.injEq] at hrooted
  exact ⟨_, plain_normalSegments (isAbsoluteChars_sinceAbsolute hparts), hrooted⟩

/-- An absolute path that does not end in a slash is worked out to its names. -/
theorem normalizeChars_eq_rooted (habsolute : isAbsoluteChars path = true)
    (hend : endsWithSlash path = false) : normalizeChars path = rooted (normalSegments path) := by
  rw [normalizeChars, if_neg (ne_nil_of_isAbsoluteChars habsolute), habsolute, hend]
  dsimp only
  rw [if_pos rfl, if_neg (List.cons_ne_nil _ _), if_neg fun h => Bool.false_ne_true h.1]
  rfl

theorem exists_rooted_of_normalize {path : String} (habsolute : isAbsolute path = true)
    (hend : endsWithSlash path.toList = false) :
    ∃ names, (∀ n ∈ names, IsPlain n) ∧ normalize path = String.ofList (rooted names) :=
  ⟨_, plain_normalSegments habsolute,
    congrArg String.ofList (normalizeChars_eq_rooted habsolute hend)⟩

/-- **What is rooted is worked out.** -/
theorem resolve_self {names : List (List Char)} (h : ∀ n ∈ names, IsPlain n) :
    resolve [String.ofList (rooted names)] = some (String.ofList (rooted names)) := by
  have habsolute : isAbsolute (String.ofList (rooted names)) = true := by
    rw [isAbsolute, String.toList_ofList]
    rfl
  rw [resolve_singleton habsolute, String.toList_ofList, normalSegments_rooted h]

theorem isAbsoluteChars_joined {steps : List (List Char)}
    (h : ∀ step ∈ steps, IsPiece step) :
    isAbsoluteChars (Text.joinWithChar '/' steps) = false := by
  cases steps with
  | nil => rfl
  | cons first rest =>
    obtain ⟨hempty, hslash⟩ := h first List.mem_cons_self
    obtain ⟨c, cs, rfl⟩ := List.exists_cons_of_ne_nil hempty
    have hc : c ≠ '/' := fun heq => hslash (heq ▸ List.mem_cons_self)
    cases rest <;> exact beq_false_of_ne hc

/-- Steps one after another go on one after another. -/
theorem goOn_joined {steps : List (List Char)} (h : ∀ step ∈ steps, IsPiece step)
    (names : List (List Char)) :
    goOn names (Text.joinWithChar '/' steps) =
      (steps.foldl (keepSegment true) names.reverse).reverse := by
  rw [goOn, isAbsoluteChars_joined h, if_neg Bool.false_ne_true]
  by_cases hne : steps = []
  · subst hne
    rfl
  · rw [pieces_joined hne fun step hstep => (h step hstep).2]

/-! ## The directory of a path -/

theorem splitLast_name (front : List Char) (h : '/' ∉ name) :
    splitLast (front ++ '/' :: name) = (some front, name) := by
  have hlast : ((front ++ '/' :: name).reverse.takeWhile (· != '/')).reverse = name := by
    rw [List.reverse_append, List.reverse_cons, List.append_assoc, List.takeWhile_append_of_pos]
    · simp
    · intro c hc
      simpa using fun heq : c = '/' => h (heq ▸ List.mem_reverse.1 hc)
  have hlength : (front ++ '/' :: name).length = front.length + (name.length + 1) :=
    List.length_append
  have htake : front.length + (name.length + 1) - name.length - 1 = front.length := by omega
  rw [splitLast, hlast, hlength, if_pos (by omega), htake, List.take_left]

/-- The directory of a path is what stands before its last name. -/
theorem dirname_name (front : List Char) (h : IsPlain name) :
    dirname (String.ofList (front ++ '/' :: name)) =
      if front = [] then "/" else String.ofList front := by
  have hne : String.ofList (front ++ '/' :: name) ≠ "" := by simp
  have htrimmed : trimSlashes (front ++ '/' :: name) = front ++ '/' :: name := by
    rw [List.append_cons]
    exact trimSlashes_name _ h
  rw [dirname, if_neg hne, String.toList_ofList, htrimmed, splitLast_name front h.2.2.2]
  cases front with
  | nil => rfl
  | cons c rest => rfl

theorem dirname_rooted (names : List (List Char)) (h : IsPlain name) :
    dirname (String.ofList (rooted (names ++ [name]))) = String.ofList (rooted names) := by
  rw [rooted_concat, dirname_name _ h]
  cases names with
  | nil => rfl
  | cons first rest => rfl

/-! ## Below a directory -/

/-- What stands below a directory is worked out from the directory. -/
theorem normalSegments_below (directory : List Char) {place : List (List Char)} (hne : place ≠ [])
    (h : ∀ step ∈ place, IsPiece step) :
    normalSegments (directory ++ '/' :: Text.joinWithChar '/' place) =
      (place.foldl (keepSegment (isAbsoluteChars (directory ++ ['/'])))
        (normalSegments (directory ++ ['/'])).reverse).reverse := by
  rw [normalSegments_append, pieces_joined hne fun step hstep => (h step hstep).2]

/-- No slash stands behind the last piece. -/
theorem endsWithSlash_joined {place : List (List Char)} (hne : place ≠ [])
    (h : ∀ step ∈ place, IsPiece step) : endsWithSlash (Text.joinWithChar '/' place) = false := by
  obtain rfl | ⟨front, last, rfl⟩ := List.eq_nil_or_concat' place
  · exact absurd rfl hne
  · obtain ⟨hempty, hslash⟩ := h last (List.mem_append_right _ List.mem_cons_self)
    have hname : endsWithSlash last = false :=
      beq_false_of_ne fun heq => hslash (List.mem_of_getLast? heq)
    by_cases hfront : front = []
    · rw [hfront]
      exact hname
    · have hsingle : Text.joinWithChar '/' [last] = last := rfl
      rw [joined_append hfront (List.cons_ne_nil _ _), hsingle, List.append_cons,
        endsWithSlash_append _ hempty, hname]

theorem endsWithSlash_below (directory : List Char) {place : List (List Char)} (hne : place ≠ [])
    (h : ∀ step ∈ place, IsPiece step) :
    endsWithSlash (directory ++ '/' :: Text.joinWithChar '/' place) = false := by
  rw [List.append_cons, endsWithSlash_append _ (joined_ne_nil hne h)]
  exact endsWithSlash_joined hne h

/-- Steps up from some names, and down to others. -/
def upAndDown (up down : List (List Char)) : List (List Char) :=
  List.replicate up.length ['.', '.'] ++ down

theorem isPiece_upAndDown {up down : List (List Char)} (h : ∀ n ∈ down, IsPlain n) :
    ∀ step ∈ upAndDown up down, IsPiece step := by
  refine List.forall_mem_append.2 ⟨fun step hstep => ?_, fun n hn => (h n hn).isPiece⟩
  rw [List.eq_of_mem_replicate hstep]
  exact ⟨by decide, by decide⟩

/-- **The steps lead from the one to the other.** -/
theorem foldl_upAndDown (shared : List (List Char)) {up down : List (List Char)}
    (hup : ∀ n ∈ up, IsPlain n) (hdown : ∀ n ∈ down, IsPlain n) (absolute : Bool)
    (kept : List (List Char)) :
    (upAndDown up down).foldl (keepSegment absolute) ((shared ++ up).reverse ++ kept) =
      (shared ++ down).reverse ++ kept := by
  have hdots : ['.', '.'] ∉ up.reverse := fun hmem => (hup _ (List.mem_reverse.1 hmem)).2.2.1 rfl
  rw [upAndDown, List.foldl_append, List.reverse_append, List.append_assoc, ← List.length_reverse,
    foldl_climbing hdots, foldl_plain hdown, List.reverse_append, List.append_assoc]

end ModuleAssets.Path
