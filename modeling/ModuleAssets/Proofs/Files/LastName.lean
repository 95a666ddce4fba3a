import ModuleAssets.Proofs.Files.Delivered
import ModuleAssets.Proofs.Path.Below
import Mathlib.Data.List.TakeWhile
/-!
# Last names — what the end of a path tells of where it leads

Paths that differ only in their last names are followed to the same directory, and only
there are their names looked up (`walkLinks_last`). So they lead to different places, unless
one of them is the path of a link (`FileTree.place_below_ne`). A path that ends in no name leads
to a directory, so that no file can be read from it (`lastName?_of_read`).
-/

namespace ModuleAssets

namespace Location

variable {path name : String} {cs : List Char}

theorem not_mem_takeWhile (cs : List Char) : '/' ∉ cs.takeWhile (· != '/') := by
  intro hmem
  have hslash := List.mem_takeWhile_imp hmem
  simp at hslash

/-- A last name is looked up as it is. -/
theorem isPlain_of_lastName? (h : lastName? path = some name) : Path.IsPlain name.toList := by
  unfold lastName? at h
  dsimp only at h
  split at h
  · cases h
  · rename_i hname
    obtain rfl := Option.some.inj h
    rw [not_or, not_or] at hname
    rw [String.toList_ofList]
    exact ⟨hname.1, hname.2.1, hname.2.2, fun hmem =>
      not_mem_takeWhile _ (List.mem_reverse.1 hmem)⟩

/-- The names of a path, without what a slash at its end means. -/
def innerNames (cs : List Char) : List (List Char) :=
  (Text.splitAtChar '/' cs).filter (· ≠ [])

theorem innerNames_append (front back : List Char) :
    innerNames (front ++ '/' :: back) = innerNames front ++ innerNames back := by
  rw [innerNames, Text.splitAtChar_append, List.filter_append]
  rfl

/-- The names of a path that lead to another place. -/
def steps (cs : List Char) : List (List Char) :=
  (innerNames cs).filter (· ≠ ['.'])

theorem steps_append (front back : List Char) :
    steps (front ++ '/' :: back) = steps front ++ steps back := by
  rw [steps, innerNames_append, List.filter_append]
  rfl

/-- What is idle at the end of a path makes no step. -/
theorem steps_dropIdle (cs : List Char) : steps (dropIdle cs).reverse = steps cs.reverse := by
  induction cs using dropIdle.induct with
  | case1 rest ih =>
    rw [dropIdle, ih, List.reverse_cons]
    exact ((steps_append rest.reverse []).trans (List.append_nil _)).symm
  | case2 rest ih =>
    rw [dropIdle, ih, List.reverse_cons, List.reverse_cons, List.append_assoc]
    exact ((steps_append rest.reverse ['.']).trans (List.append_nil _)).symm
  | case3 cs hslash hdot => rw [dropIdle.eq_3 cs hslash hdot]

/-- Nothing idle is left. -/
theorem dropIdle_stays (cs rest : List Char) :
    dropIdle cs ≠ '/' :: rest ∧ dropIdle cs ≠ '.' :: '/' :: rest := by
  induction cs using dropIdle.induct with
  | case1 more ih => exact ih
  | case2 more ih => exact ih
  | case3 cs hslash hdot =>
    rw [dropIdle.eq_3 cs hslash hdot]
    exact ⟨hslash rest, hdot rest⟩

/-- **A path without a last name** goes up in the end, if it goes anywhere. -/
theorem up_of_lastName? (h : lastName? path = none) {last : List Char}
    (hlast : (steps path.toList).getLast? = some last) : last = ['.', '.'] := by
  unfold lastName? at h
  dsimp only at h
  split at h
  swap
  · cases h
  rename_i hname
  have hsteps := steps_dropIdle path.toList.reverse
  rw [List.reverse_reverse] at hsteps
  rw [← hsteps] at hlast
  have hstays := dropIdle_stays path.toList.reverse
  generalize dropIdle path.toList.reverse = cs at hname hstays hlast
  -- the last piece of what is left, and what stands before it
  have hparts : cs.takeWhile (· != '/') ++ cs.dropWhile (· != '/') = cs :=
    List.takeWhile_append_dropWhile
  generalize hpiece : (cs.takeWhile (· != '/')).reverse = piece at hname
  rw [List.reverse_eq_iff.1 hpiece] at hparts
  cases hbefore : cs.dropWhile (· != '/') with
  | nil =>
    rw [hbefore, List.append_nil] at hparts
    rw [← hparts, List.reverse_reverse] at hlast
    obtain rfl | rfl | rfl := hname
    · cases hlast
    · cases hlast
    · exact (Option.some.inj hlast).symm
  | cons c before =>
    have hc : c = '/' := by
      have hstop := List.head?_dropWhile_not (· != '/') cs
      rw [hbefore] at hstop
      simpa using hstop
    subst hc
    rw [hbefore] at hparts
    obtain rfl | rfl | rfl := hname
    · exact absurd hparts.symm (hstays before).1
    · exact absurd hparts.symm (hstays before).2
    · rw [← hparts, List.reverse_append, List.reverse_cons, List.reverse_reverse,
        List.append_assoc, List.singleton_append, steps_append] at hlast
      have hup : steps ['.', '.'] = [['.', '.']] := rfl
      rw [hup, List.getLast?_concat] at hlast
      exact (Option.some.inj hlast).symm

theorem innerNames_plain {piece : List Char} (h : Path.IsPlain piece) :
    innerNames piece = [piece] := by
  have hpieces : Text.splitAtChar '/' piece = [piece] := Path.pieces_eq_singleton h.2.2.2
  rw [innerNames, hpieces]
  exact List.filter_cons_of_pos (decide_eq_true h.1)

/-- The characters of a name below a directory. -/
theorem exists_front (directory : String) (h : Path.IsPlain name.toList) :
    ∃ front, (below directory name).toList = front ++ name.toList ∧
      innerNames (front ++ name.toList) = innerNames directory.toList ++ [name.toList] := by
  have hname := innerNames_plain h
  have hrelative : ¬Text.startsWith name "/" = true := by
    intro hprefix
    obtain ⟨rest, hrest⟩ := List.isPrefixOf_iff_prefix.1 hprefix
    exact h.2.2.2 (hrest ▸ List.mem_cons_self)
  rw [below, if_neg hrelative]
  split
  · rename_i hdirectory
    refine ⟨directory.toList, String.toList_append, ?_⟩
    obtain rfl | hslash := hdirectory
    · exact hname
    · obtain ⟨front, hfront⟩ := List.isSuffixOf_iff_suffix.1 hslash
      have hfront : front ++ '/' :: [] = directory.toList := hfront
      rw [← hfront, List.append_assoc, List.singleton_append, innerNames_append,
        innerNames_append, hname]
      exact congrArg (· ++ _) (List.append_nil _).symm
  · refine ⟨directory.toList ++ ['/'], ?_, ?_⟩
    · rw [String.toList_append, String.toList_append]
      rfl
    · rw [List.append_assoc, List.singleton_append, innerNames_append, hname]

/-- **A name below a directory** is the last of its names. -/
theorem names_below (directory : String) (h : Path.IsPlain name.toList) :
    Arrival.names (below directory name) =
      (innerNames directory.toList).map String.ofList ++ [name] := by
  obtain ⟨front, hchars, hnames⟩ := exists_front directory h
  have hlast : (front ++ name.toList).getLast? ≠ some '/' := by
    rw [List.getLast?_append_of_ne_nil _ h.1]
    exact fun hlast => h.2.2.2 (List.mem_of_getLast? hlast)
  unfold Arrival.names
  dsimp only
  rw [hchars, if_neg hlast, ← innerNames, hnames, List.map_append, List.map_singleton,
    String.ofList_toList]

/-- The names of a path but for those that stay. -/
theorem filter_names (path : String) :
    (Arrival.names path).filter (· ≠ ".") = (steps path.toList).map String.ofList := by
  have hsame (piece : List Char) : String.ofList piece = "." ↔ piece = ['.'] := String.ofList_inj
  have hdot : ((fun name => decide (name ≠ ".")) ∘ String.ofList) =
      fun piece : List Char => decide (piece ≠ ['.']) :=
    funext fun piece => decide_eq_decide.2 (not_congr (hsame piece))
  unfold Arrival.names
  dsimp only
  rw [← innerNames, List.filter_map, hdot]
  refine congrArg (List.map String.ofList) ?_
  split
  · exact (List.filter_append ..).trans (List.append_nil _)
  · rfl

end Location

namespace Arrival

variable {root : Node} {follow : Bool} {here : List String} {name : String} {a : Arrival}
  {jump : List String → String → List String → Except FileError Arrival}

/-- Some names are followed by a last one in one directory, or lead nowhere, whatever the last
one is and whether or not it is followed. -/
def ComesTo (root : Node) (walked : Bool → String → Except FileError Arrival) : Prop :=
  (∀ follow name a, walked follow name ≠ .ok a) ∨
    ∃ links directory, ∀ follow name,
      walked follow name = walkLinks root follow links directory [name]

/-- If following fails in any case, the names lead nowhere. -/
theorem ComesTo.nowhere (e : FileError) : ComesTo root fun _ _ => .error e :=
  .inl fun _ _ _ h => by cases h

theorem walk_last (jump : Bool → List String → String → List String → Except FileError Arrival)
    (hself : ∃ links, ∀ follow, walkLinks root follow links = walk root follow (jump follow))
    (hjump : ∀ here text rest,
      ComesTo root fun follow name => jump follow here text (rest ++ [name]))
    (steps : List String) (here : List String) :
    ComesTo root fun follow name => walk root follow (jump follow) here (steps ++ [name]) := by
  induction steps generalizing here with
  | nil =>
    obtain ⟨links, hlinks⟩ := hself
    exact .inr ⟨links, here, fun follow name =>
      congrFun (congrFun (hlinks follow) here).symm [name]⟩
  | cons first rest ih =>
    have hlonger (name : String) : rest ++ [name] ≠ [] := List.concat_ne_nil name rest
    cases hat : root.at? here with
    | none => exact .inl fun follow name a h => by simp [walk, hat] at h
    | some n =>
      cases n with
      | file content mode => exact .inl fun follow name a h => by simp [walk, hat] at h
      | link text => exact .inl fun follow name a h => by simp [walk, hat] at h
      | directory entries =>
        simp only [List.cons_append, walk, hat]
        split
        · exact ih here
        split
        · exact ih here.dropLast
        split
        · exact .nowhere _
        cases hchild : Node.child? entries first with
        | none =>
          simp only [hlonger, if_false]
          exact .nowhere _
        | some n =>
          cases n with
          | file content mode => exact ih (here ++ [first])
          | directory inner => exact ih (here ++ [first])
          | link text =>
            -- there are names behind the link, so that it is followed in any case
            simp only [hlonger, false_and, if_false]
            exact hjump here text rest

/-- **All names but the last** lead to one directory, or nowhere. -/
theorem walkLinks_last (root : Node) (links : Nat) (here steps : List String) :
    ComesTo root fun follow name => walkLinks root follow links here (steps ++ [name]) := by
  -- what a link leads to is followed with one link less
  induction links generalizing here steps with
  | zero =>
    refine walk_last (fun _ _ _ _ => .error .tooManyLinks) ⟨0, fun _ => rfl⟩ ?_ steps here
    exact fun _ _ _ => .nowhere _
  | succ links ih =>
    refine walk_last (fun follow place target rest =>
      if target = "" then .error .noEntry
      else walkLinks root follow links (if target.toList.head? = some '/' then [] else place)
        (names target ++ rest)) ⟨links + 1, fun _ => rfl⟩ (fun here text rest => ?_) steps here
    split
    · exact .nowhere _
    · simp only [← List.append_assoc]
      exact ih _ _

/-- Names are followed from a place, whatever links lead to. -/
theorem walkLinks_eq (root : Node) (links : Nat) :
    ∃ jump : Bool → List String → String → List String → Except FileError Arrival,
      ∀ follow, walkLinks root follow links = walk root follow (jump follow) := by
  cases links with
  | zero => exact ⟨fun _ _ _ _ => .error .tooManyLinks, fun _ => rfl⟩
  | succ links => exact ⟨_, fun _ => rfl⟩

/-- **The last name** is a place in its directory, unless it is that of a link. -/
theorem place_of_last {links : Nat} {directory : List String} (hdot : name ≠ ".")
    (hup : name ≠ "..") (h : walkLinks root true links directory [name] = .ok a)
    (hlink : ∀ text, root.at? (directory ++ [name]) = some (.link text) →
      walkLinks root false links directory [name] ≠ .ok (.found (directory ++ [name]))) :
    a.place = directory ++ [name] := by
  obtain ⟨jump, hjump⟩ := walkLinks_eq root links
  rw [hjump] at h
  obtain ⟨entries, hat, hgoes⟩ := goes_of_walk h
  cases hgoes with
  | stay hname => exact absurd hname hdot
  | up _ hname => exact absurd hname hup
  | missing _ _ _ ha => rw [ha, place]
  | link _ _ hlast => cases hlast.2
  | jump hname hchild =>
    -- unless it is followed, the link itself is found
    refine absurd ?_ (hlink _ (Node.at?_child hat hchild))
    rw [hjump]
    exact walk_of_goes hat (.link hname hchild ⟨rfl, rfl⟩ rfl)
  | down _ _ _ h =>
    rw [walk] at h
    rw [← Except.ok.inj h, place]

/-- Whether a path can be followed at all does not depend on its last name. -/
theorem ofPath_eq {path : String} (h : ofPath root follow path = .ok a) (follow' : Bool) :
    ofPath root follow' path = walkLinks root follow' linkLimit [] (names path) := by
  unfold ofPath at h ⊢
  split at h
  · cases h
  · rename_i hname
    rw [if_neg hname]
    split at h
    · cases h
    · rename_i hlength
      rw [if_neg hlength]
      split at h
      · rename_i habsolute
        rw [if_pos habsolute]
      · cases h

/-! ### Names that go up in the end -/

/-- A directory is found. -/
def FindsDirectory (root : Node) (a : Arrival) : Prop :=
  ∃ place entries, a = .found place ∧ root.at? place = some (.directory entries)

/-- No name is looked up last. -/
def EndsAbove (names : List String) : Prop :=
  ∀ last, (names.filter (· ≠ ".")).getLast? = some last → last = ".."

theorem EndsAbove.tail {rest : List String} (h : EndsAbove (name :: rest)) : EndsAbove rest := by
  intro last hlast
  refine h last ?_
  by_cases hdot : name = "."
  · rwa [List.filter_cons_of_neg (by simpa using hdot)]
  · rw [List.filter_cons_of_pos (by simpa using hdot), List.getLast?_cons, hlast]
    rfl

/-- Behind a name that is looked up there are others. -/
theorem EndsAbove.looksOn {rest : List String} (h : EndsAbove (name :: rest))
    (hname : IsLookedUp name) : rest.filter (· ≠ ".") ≠ [] := by
  intro hnil
  refine hname.2.1 (h name ?_)
  rw [List.filter_cons_of_pos (by simpa using hname.1), hnil]
  rfl

theorem EndsAbove.append {rest : List String} (h : EndsAbove rest)
    (hne : rest.filter (· ≠ ".") ≠ []) (before : List String) : EndsAbove (before ++ rest) := by
  intro last hlast
  rw [List.filter_append, List.getLast?_append_of_ne_nil _ hne] at hlast
  exact h last hlast

theorem walk_above {steps : List String}
    (hjump : ∀ here text rest, EndsAbove rest → rest.filter (· ≠ ".") ≠ [] →
      jump here text rest = .ok a → FindsDirectory root a)
    (h : walk root follow jump here steps = .ok a) (hsteps : EndsAbove steps)
    (hhere : steps = [] → ∃ entries, root.at? here = some (.directory entries)) :
    FindsDirectory root a := by
  induction steps generalizing here with
  | nil =>
    obtain ⟨entries, hat⟩ := hhere rfl
    exact ⟨here, entries, (Except.ok.inj h).symm, hat⟩
  | cons name rest ih =>
    obtain ⟨entries, hat, hgoes⟩ := goes_of_walk h
    have hrest := hsteps.tail
    cases hgoes with
    | stay _ h => exact ih h hrest fun _ => ⟨entries, hat⟩
    | up _ _ h =>
      -- what is around a directory is a directory, and the root is one
      refine ih h hrest fun _ => ?_
      obtain rfl | ⟨around, last, rfl⟩ := List.eq_nil_or_concat' here
      · exact ⟨entries, hat⟩
      · obtain ⟨outer, houter, -⟩ := Node.exists_directory_of_at? hat
        exact ⟨outer, by rw [List.dropLast_concat, houter]⟩
    | missing hname _ hnil => exact absurd (by rw [hnil]; rfl) (hsteps.looksOn hname)
    | link hname _ hlast => exact absurd (by rw [hlast.1]; rfl) (hsteps.looksOn hname)
    | jump hname _ _ h => exact hjump _ _ _ hrest (hsteps.looksOn hname) h
    | down hname _ _ h =>
      exact ih h hrest fun hnil => absurd (by rw [hnil]; rfl) (hsteps.looksOn hname)

theorem walkLinks_above {links : Nat} {steps : List String}
    (h : walkLinks root follow links here steps = .ok a) (hsteps : EndsAbove steps)
    (hhere : steps = [] → ∃ entries, root.at? here = some (.directory entries)) :
    FindsDirectory root a := by
  induction links generalizing here steps with
  | zero =>
    rw [walkLinks] at h
    refine walk_above (fun here text rest _ _ hjump => ?_) h hsteps hhere
    cases hjump
  | succ links ih =>
    rw [walkLinks] at h
    refine walk_above (fun here text rest hrest hne hjump => ?_) h hsteps hhere
    split at hjump
    · cases hjump
    · refine ih hjump (hrest.append hne _) fun hnil => ?_
      rw [(List.append_eq_nil_iff.1 hnil).2] at hne
      exact absurd rfl hne

/-- **A path without a last name** leads to a directory. -/
theorem findsDirectory_of_lastName? {path : String} (hpath : Location.lastName? path = none)
    (h : ofPath root follow path = .ok a) : FindsDirectory root a := by
  obtain ⟨entries, hroot⟩ := root_of_ofPath h
  have hwalk := h
  rw [ofPath_eq h] at hwalk
  refine walkLinks_above hwalk (fun last hlast => ?_) fun _ => ⟨entries, congrArg some hroot⟩
  rw [Location.filter_names, List.getLast?_map, Option.map_eq_some_iff] at hlast
  obtain ⟨piece, hpiece, rfl⟩ := hlast
  rw [Location.up_of_lastName? hpath hpiece]

end Arrival

namespace FileTree

variable {t : FileTree} {directory name other path : String} {place : List String}

/-- **A file is read** from a path with a last name. -/
theorem lastName?_of_read {content : ByteArray} (h : t.read path = .ok content) :
    ∃ name, Location.lastName? path = some name := by
  rw [← Option.ne_none_iff_exists']
  intro hnone
  unfold read target node at h
  cases harrival : Arrival.ofPath t.root true path with
  | error e =>
    rw [harrival] at h
    cases h
  | ok a =>
    obtain ⟨place, entries, rfl, hat⟩ := Arrival.findsDirectory_of_lastName? hnone harrival
    rw [harrival] at h
    dsimp only at h
    rw [hat] at h
    cases h

/-- A name below a directory leads to its place there, unless it is the path of a link. -/
theorem place_below {links : Nat} {around : List String}
    (haround : ∀ follow name, Arrival.walkLinks t.root follow Arrival.linkLimit []
        ((Location.innerNames directory.toList).map String.ofList ++ [name]) =
      Arrival.walkLinks t.root follow links around [name])
    (hname : Path.IsPlain name.toList) {a : Arrival}
    (h : Arrival.ofPath t.root true (Location.below directory name) = .ok a)
    (hlink : ∀ text, t.entry (Location.below directory name) ≠ .ok (.link text)) :
    a.place = around ++ [name] := by
  have hfollowed (follow : Bool) :
      Arrival.ofPath t.root follow (Location.below directory name) =
        Arrival.walkLinks t.root follow links around [name] := by
    rw [Arrival.ofPath_eq h, Location.names_below directory hname, haround]
  refine Arrival.place_of_last (fun hdot => hname.2.1 (congrArg String.toList hdot))
    (fun hup => hname.2.2.1 (congrArg String.toList hup)) ((hfollowed true).symm.trans h)
    fun text hat hwalk => hlink text ?_
  rw [← hfollowed] at hwalk
  rw [entry, node, hwalk]
  dsimp only
  rw [hat]

/-- **Two names below a directory** lead to two places, unless one of them is the path of a
link. -/
theorem place_below_ne (hname : Path.IsPlain name.toList) (hother : Path.IsPlain other.toList)
    (hne : name ≠ other) {a a' : Arrival}
    (h : Arrival.ofPath t.root true (Location.below directory name) = .ok a)
    (h' : Arrival.ofPath t.root true (Location.below directory other) = .ok a')
    (hlink : ∀ text, t.entry (Location.below directory name) ≠ .ok (.link text))
    (hlink' : ∀ text, t.entry (Location.below directory other) ≠ .ok (.link text)) :
    a.place ≠ a'.place := by
  obtain hnowhere | ⟨links, around, haround⟩ := Arrival.walkLinks_last t.root Arrival.linkLimit []
    ((Location.innerNames directory.toList).map String.ofList)
  · refine absurd (h.symm.trans ?_).symm (hnowhere true name a)
    rw [Arrival.ofPath_eq h, Location.names_below directory hname]
  · rw [place_below haround hname h hlink, place_below haround hother h' hlink']
    exact fun heq => hne (List.singleton_inj.1 (List.append_cancel_left heq))

/-- **A file keeps its place to itself**: as long as directories and links stay, and files stay
files, another name in its directory leads elsewhere, unless one of the two is the path of a link
in the end. -/
theorem Evolves.placeOf?_ne {now last : FileTree} (hto : Evolves t now) (hfrom : Evolves now last)
    (hname : Path.IsPlain name.toList) (hother : Path.IsPlain other.toList) (hne : name ≠ other)
    {content : ByteArray} {mode : Nat}
    (h : Arrival.ofPath t.root true (Location.below directory name) = .ok (.found place))
    (hat : t.root.at? place = some (.file content mode))
    (hlink : ∀ text, last.entry (Location.below directory name) ≠ .ok (.link text))
    (hlink' : ∀ text, last.entry (Location.below directory other) ≠ .ok (.link text)) :
    now.placeOf? true (Location.below directory other) ≠ some place := by
  unfold placeOf?
  cases harrival : Arrival.ofPath now.root true (Location.below directory other) with
  | error e => exact nofun
  | ok a =>
    exact fun hsame => place_below_ne hname hother hne (hto.ofPath_file h hat) harrival
      (fun text hentry => hlink text (hfrom.entry_link hentry))
      (fun text hentry => hlink' text (hfrom.entry_link hentry)) (Option.some.inj hsame).symm

end FileTree

end ModuleAssets
