import ModuleAssets.Proofs.Files.Following
import ModuleAssets.Proofs.Asset.Held
/-!
# Staying — what changes of a file tree leave as it was

A change puts something at one place, and what stands at other places stays there
(`look_put`, `look_dropAt`). Directories are never taken away. A path that leads to a
place goes on to lead there as long as links stay too (`arrives`), since all that it
passes on its way are directories and links.
-/

namespace ModuleAssets

/-! ## Places of a node -/

namespace Node

variable {root node n : Node} {entries : List (String × Node)} {place around : List String}
  {name : String}

/-- A node without the entries that a directory has. -/
def face : Node → Node
  | directory _ => directory []
  | n => n

/-- What stands at a place, seen without entries. -/
def look (root : Node) (place : List String) : Option Node :=
  (root.at? place).map face

theorem face_eq_self (h : ∀ entries, n ≠ .directory entries) : n.face = n := by
  cases n with
  | file content mode => rfl
  | link text => rfl
  | directory entries => exact absurd rfl (h entries)

theorem look_eq_directory :
    root.look place = some (.directory []) ↔
      ∃ entries, root.at? place = some (.directory entries) := by
  rw [look, Option.map_eq_some_iff]
  constructor
  · rintro ⟨n, hn, hface⟩
    cases n with
    | file content mode => cases hface
    | link text => cases hface
    | directory entries => exact ⟨entries, hn⟩
  · rintro ⟨entries, hn⟩
    exact ⟨_, hn, rfl⟩

/-- A node without entries is seen as it is. -/
theorem look_eq_leaf (h : ∀ entries, n ≠ .directory entries) :
    root.look place = some n ↔ root.at? place = some n := by
  rw [look, Option.map_eq_some_iff]
  constructor
  · rintro ⟨m, hm, hface⟩
    cases m with
    | file content mode => exact hm.trans (congrArg some hface)
    | link text => exact hm.trans (congrArg some hface)
    | directory entries => exact absurd hface.symm (h [])
  · intro hn
    exact ⟨n, hn, face_eq_self h⟩

theorem look_eq_link {text : String} :
    root.look place = some (.link text) ↔ root.at? place = some (.link text) :=
  look_eq_leaf fun _ => nofun

theorem look_eq_file {content : ByteArray} {mode : Nat} :
    root.look place = some (.file content mode) ↔ root.at? place = some (.file content mode) :=
  look_eq_leaf fun _ => nofun

theorem not_isLink_file (content : ByteArray) (mode : Nat) : ¬(file content mode).IsLink := by
  rintro ⟨text, h⟩
  cases h

theorem not_isLink_directory (entries : List (String × Node)) : ¬(directory entries).IsLink := by
  rintro ⟨text, h⟩
  cases h

theorem look_eq_none : root.look place = none ↔ root.at? place = none := by
  rw [look, Option.map_eq_none_iff]

theorem child?_putEntry (name : String) (node : Node) (entries : List (String × Node))
    (other : String) :
    child? (putEntry name node entries) other =
      if name = other then some node else child? entries other := by
  have hcons (k : String) (n : Node) (rest : List (String × Node)) :
      child? ((k, n) :: rest) other = if k = other then some n else child? rest other :=
    Json.member?_cons k n rest other
  induction entries with
  | nil => exact hcons name node []
  | cons entry rest ih =>
    obtain ⟨k, n⟩ := entry
    rw [putEntry]
    split
    · rename_i hk
      subst hk
      rw [hcons, hcons]
      split
      · rfl
      · rfl
    · rename_i hk
      split
      · exact hcons name node _
      · rw [hcons, hcons, ih]
        by_cases hother : name = other
        · rw [if_pos hother, if_pos hother, if_neg (hother ▸ hk)]
        · rw [if_neg hother, if_neg hother]

theorem child?_dropEntry (name : String) (entries : List (String × Node)) (other : String) :
    child? (dropEntry name entries) other = if name = other then none else child? entries other :=
  Registry.find?_filter_ne entries name other

theorem at?_below (h : root.at? around = some n) (rest : List String) :
    root.at? (around ++ rest) = n.at? rest := by
  induction around generalizing root with
  | nil =>
    rw [at?, Option.some.injEq] at h
    rw [List.nil_append, h]
  | cons first more ih =>
    cases root with
    | file content mode => cases h
    | link text => cases h
    | directory entries =>
      rw [at?, Option.bind_eq_some_iff] at h
      obtain ⟨child, hchild, h⟩ := h
      rw [List.cons_append, at?, hchild, Option.bind_some, ih h]

/-- What stands somewhere stands in a directory. -/
theorem exists_directory_of_at? (h : root.at? (around ++ [name]) = some n) :
    ∃ entries, root.at? around = some (.directory entries) ∧ child? entries name = some n := by
  cases hat : root.at? around with
  | none =>
    exfalso
    induction around generalizing root with
    | nil => cases hat
    | cons first more ih =>
      cases root with
      | file content mode => cases h
      | link text => cases h
      | directory entries =>
        rw [List.cons_append, at?, Option.bind_eq_some_iff] at h
        obtain ⟨child, hchild, h⟩ := h
        rw [at?, hchild, Option.bind_some] at hat
        exact ih h hat
  | some m =>
    rw [at?_below hat] at h
    cases m with
    | file content mode => cases h
    | link text => cases h
    | directory entries =>
      rw [at?, Option.bind_eq_some_iff] at h
      obtain ⟨child, hchild, h⟩ := h
      exact ⟨entries, rfl, hchild.trans h⟩

/-- The directory that is changed. -/
theorem at?_modifyEntries (change : List (String × Node) → List (String × Node))
    (h : root.at? around = some (.directory entries)) :
    (modifyEntries change around root).at? around = some (.directory (change entries)) := by
  induction around generalizing root with
  | nil =>
    obtain rfl := Option.some.inj h
    rfl
  | cons first more ih =>
    cases root with
    | file content mode => cases h
    | link text => cases h
    | directory all =>
      rw [at?, Option.bind_eq_some_iff] at h
      obtain ⟨child, hchild, h⟩ := h
      rw [modifyEntries, hchild]
      dsimp only
      rw [at?, child?_putEntry, if_pos rfl, Option.bind_some, ih h]

/-- Elsewhere than in the directory that is changed, everything looks the same. -/
theorem look_modifyEntries (change : List (String × Node) → List (String × Node))
    (h : root.at? around = some (.directory entries))
    (hplace : ∀ name rest, place ≠ around ++ name :: rest) :
    (modifyEntries change around root).look place = root.look place := by
  induction around generalizing root place with
  | nil =>
    obtain rfl := Option.some.inj h
    cases place with
    | nil => rfl
    | cons name rest => exact absurd rfl (hplace name rest)
  | cons first more ih =>
    cases root with
    | file content mode => cases h
    | link text => cases h
    | directory all =>
      rw [at?, Option.bind_eq_some_iff] at h
      obtain ⟨child, hchild, h⟩ := h
      rw [modifyEntries, hchild]
      dsimp only
      cases place with
      | nil => rfl
      | cons name rest =>
        rw [look, look, at?, at?, child?_putEntry]
        by_cases hname : first = name
        · subst hname
          have hrest : (modifyEntries change more child).look rest = child.look rest :=
            ih h fun name more' heq => hplace name more' (by rw [heq, List.cons_append])
          rw [if_pos rfl, hchild, Option.bind_some, Option.bind_some]
          exact hrest
        · rw [if_neg hname]

/-- Nothing is below a node without entries. -/
theorem at?_eq_none_of_bare {next : String} {rest : List String} (h : n.face = n) :
    n.at? (next :: rest) = none := by
  cases n with
  | file content mode => rfl
  | link text => rfl
  | directory entries =>
    obtain rfl := (Node.directory.inj h).symm
    rfl

/-- **One entry is changed**: elsewhere everything looks the same, provided that what was
there and what comes there have no entries. -/
theorem look_changeEntry {change : List (String × Node) → List (String × Node)}
    {new? : Option Node} (haround : root.at? around = some (.directory entries))
    (hchange : ∀ other, child? (change entries) other =
      if name = other then new? else child? entries other)
    (hnew : ∀ n, new? = some n → n.face = n)
    (hold : ∀ n, child? entries name = some n → n.face = n) (place : List String) :
    (modifyEntries change around root).look place =
      if place = around ++ [name] then new? else root.look place := by
  have hinside := at?_modifyEntries change haround
  by_cases hbelow : ∃ other rest, place = around ++ other :: rest
  · obtain ⟨other, rest, rfl⟩ := hbelow
    rw [look, look, at?_below hinside, at?_below haround, at?, at?, hchange]
    by_cases hother : name = other
    · subst hother
      rw [if_pos rfl]
      cases rest with
      | nil =>
        rw [if_pos rfl]
        cases new? with
        | none => rfl
        | some n => exact congrArg some (hnew n rfl)
      | cons next rest =>
        have hnone (child : Option Node) (hchild : ∀ n, child = some n → n.face = n) :
            child.bind (at? (next :: rest)) = none := by
          cases child with
          | none => rfl
          | some n => exact at?_eq_none_of_bare (hchild n rfl)
        have hlonger : around ++ name :: next :: rest ≠ around ++ [name] := by
          intro heq
          cases List.append_cancel_left heq
        rw [if_neg hlonger, hnone _ hnew, hnone _ hold]
    · have helse : around ++ other :: rest ≠ around ++ [name] := by
        intro heq
        exact hother (List.cons.inj (List.append_cancel_left heq)).1.symm
      rw [if_neg hother, if_neg helse]
  · have hplace : ∀ other rest, place ≠ around ++ other :: rest := fun other rest heq =>
      hbelow ⟨other, rest, heq⟩
    rw [if_neg (hplace name []), look_modifyEntries change haround hplace]

end Node

namespace FileTree

variable {t t' : FileTree} {n old : Node} {entries : List (String × Node)}
  {place around : List String} {name : String}

/-- **A node is put in a directory.** -/
theorem look_put (haround : t.root.at? around = some (.directory entries))
    (hold : ∀ old, Node.child? entries name = some old → old.face = old) (hnew : n.face = n)
    (place : List String) :
    (t.put around name n).root.look place =
      if place = around ++ [name] then some n else t.root.look place :=
  Node.look_changeEntry haround (Node.child?_putEntry name n entries)
    (fun _ heq => Option.some.inj heq ▸ hnew) hold place

/-- **A node is put in place of another.** -/
theorem look_putAt (hat : t.root.at? (around ++ [name]) = some old) (hold : old.face = old)
    (hnew : n.face = n) (place : List String) :
    (t.putAt (around ++ [name]) n).root.look place =
      if place = around ++ [name] then some n else t.root.look place := by
  obtain ⟨entries, haround, hchild⟩ := Node.exists_directory_of_at? hat
  rw [putAt, List.getLast?_concat, List.dropLast_concat]
  exact look_put haround (fun _ heq => Option.some.inj (hchild.symm.trans heq) ▸ hold) hnew place

/-- **A node is taken away.** -/
theorem look_dropAt (hat : t.root.at? (around ++ [name]) = some old) (hold : old.face = old)
    (place : List String) :
    (t.dropAt (around ++ [name])).root.look place =
      if place = around ++ [name] then none else t.root.look place := by
  obtain ⟨entries, haround, hchild⟩ := Node.exists_directory_of_at? hat
  rw [dropAt, List.getLast?_concat, List.dropLast_concat]
  exact Node.look_changeEntry haround (Node.child?_dropEntry name entries) (fun _ => nofun)
    (fun _ heq => Option.some.inj (hchild.symm.trans heq) ▸ hold) place

end FileTree

/-! ## Following a path -/

namespace Arrival

/-- The place where a path arrives, whether something is there or not. -/
def place : Arrival → List String
  | found place => place
  | missing directory name => directory ++ [name]

variable {root root' : Node} {follow : Bool} {here steps rest : List String} {name : String}
  {entries : List (String × Node)} {a : Arrival}
  {jump jump' : List String → String → List String → Except FileError Arrival}

/-- A name that is looked up in a directory. -/
def IsLookedUp (name : String) : Prop :=
  name ≠ "." ∧ name ≠ ".." ∧ ¬ nameLimit < Text.byteLength name.toList

/-- **One name of a path** is followed in one of these ways. -/
inductive Goes (root : Node) (follow : Bool)
    (jump : List String → String → List String → Except FileError Arrival) (here : List String)
    (entries : List (String × Node)) (name : String) (rest : List String) (a : Arrival) : Prop
  | stay (hname : name = ".") (h : walk root follow jump here rest = .ok a)
  | up (hdot : name ≠ ".") (hname : name = "..")
    (h : walk root follow jump here.dropLast rest = .ok a)
  | missing (hname : IsLookedUp name) (hchild : Node.child? entries name = none)
    (hrest : rest = []) (h : a = .missing here name)
  | link (hname : IsLookedUp name) {text : String}
    (hchild : Node.child? entries name = some (.link text)) (hlast : rest = [] ∧ follow = false)
    (h : a = .found (here ++ [name]))
  | jump (hname : IsLookedUp name) {text : String}
    (hchild : Node.child? entries name = some (.link text))
    (hlast : ¬(rest = [] ∧ follow = false)) (h : jump here text rest = .ok a)
  | down (hname : IsLookedUp name) {n : Node} (hchild : Node.child? entries name = some n)
    (hlink : ¬n.IsLink) (h : walk root follow jump (here ++ [name]) rest = .ok a)

theorem goes_of_walk (h : walk root follow jump here (name :: rest) = .ok a) :
    ∃ entries, root.at? here = some (.directory entries) ∧
      Goes root follow jump here entries name rest a := by
  rw [walk] at h
  cases hat : root.at? here with
  | none =>
    rw [hat] at h
    cases h
  | some n =>
    rw [hat] at h
    cases n with
    | file content mode => cases h
    | link text => cases h
    | directory entries =>
      refine ⟨entries, rfl, ?_⟩
      dsimp only at h
      by_cases hdot : name = "."
      · rw [if_pos hdot] at h
        exact .stay hdot h
      rw [if_neg hdot] at h
      by_cases hup : name = ".."
      · rw [if_pos hup] at h
        exact .up hdot hup h
      rw [if_neg hup] at h
      by_cases hlong : nameLimit < Text.byteLength name.toList
      · rw [if_pos hlong] at h
        cases h
      rw [if_neg hlong] at h
      have hname : IsLookedUp name := ⟨hdot, hup, hlong⟩
      cases hchild : Node.child? entries name with
      | none =>
        rw [hchild] at h
        dsimp only at h
        split at h
        · exact .missing hname hchild ‹_› (Except.ok.inj h).symm
        · cases h
      | some n =>
        rw [hchild] at h
        cases n with
        | file content mode => exact .down hname hchild (Node.not_isLink_file content mode) h
        | directory inner => exact .down hname hchild (Node.not_isLink_directory inner) h
        | link text =>
          dsimp only at h
          split at h
          · exact .link hname hchild ‹_› (Except.ok.inj h).symm
          · exact .jump hname hchild ‹_› h

/-- The other direction. -/
theorem walk_of_goes (hat : root.at? here = some (.directory entries))
    (h : Goes root follow jump here entries name rest a) :
    walk root follow jump here (name :: rest) = .ok a := by
  rw [walk, hat]
  dsimp only
  cases h with
  | stay hname h => rwa [if_pos hname]
  | up hdot hname h => rwa [if_neg hdot, if_pos hname]
  | missing hname hchild hrest h =>
    rw [if_neg hname.1, if_neg hname.2.1, if_neg hname.2.2, hchild]
    exact (if_pos hrest).trans (congrArg Except.ok h.symm)
  | link hname hchild hlast h =>
    rw [if_neg hname.1, if_neg hname.2.1, if_neg hname.2.2, hchild]
    exact (if_pos hlast).trans (congrArg Except.ok h.symm)
  | jump hname hchild hlast h =>
    rw [if_neg hname.1, if_neg hname.2.1, if_neg hname.2.2, hchild]
    exact (if_neg hlast).trans h
  | @down hname n hchild hlink h =>
    rw [if_neg hname.1, if_neg hname.2.1, if_neg hname.2.2, hchild]
    cases n with
    | file content mode => exact h
    | link text => exact absurd ⟨text, rfl⟩ hlink
    | directory inner => exact h

/-! ### The root -/

theorem exists_piece {cs : List Char} {c : Char} (h : cs.getLast? = some c) (hc : c ≠ '/') :
    ∃ piece ∈ Text.splitAtChar '/' cs, piece ≠ [] := by
  induction cs with
  | nil => cases h
  | cons first rest ih =>
    rw [Text.splitAtChar]
    split
    · rename_i hfirst
      cases rest with
      | nil => exact absurd ((Option.some.inj h).symm.trans (beq_iff_eq.1 hfirst)) hc
      | cons next rest =>
        obtain ⟨piece, hpiece, hne⟩ := ih (List.getLast?_cons_cons.symm.trans h)
        exact ⟨piece, List.mem_cons_of_mem _ hpiece, hne⟩
    · split
      · exact ⟨[first], List.mem_cons_self, List.cons_ne_nil _ _⟩
      · exact ⟨_, List.mem_cons_self, List.cons_ne_nil _ _⟩

/-- An absolute path has a name, be it only a `.`. -/
theorem names_ne_nil {path : String} (h : path.toList.head? = some '/') : names path ≠ [] := by
  obtain ⟨c, hlast⟩ : ∃ c, path.toList.getLast? = some c := by
    cases hpath : path.toList with
    | nil =>
      rw [hpath] at h
      cases h
    | cons first rest => exact ⟨_, List.getLast?_cons⟩
  unfold names
  dsimp only
  rw [hlast, Ne, List.map_eq_nil_iff]
  split
  · exact fun hnil => List.cons_ne_nil _ _ (List.append_eq_nil_iff.1 hnil).2
  · rename_i hc
    obtain ⟨piece, hpiece, hne⟩ := exists_piece hlast fun heq => hc (congrArg some heq)
    exact List.ne_nil_of_mem (List.mem_filter.2 ⟨hpiece, decide_eq_true hne⟩)

/-- Where paths lead anywhere, the root is a directory. -/
theorem root_of_ofPath {path : String} (h : ofPath root follow path = .ok a) :
    ∃ entries, root = .directory entries := by
  have hwalk {jump : List String → String → List String → Except FileError Arrival}
      {names : List String} (hne : names ≠ []) (h : walk root follow jump [] names = .ok a) :
      ∃ entries, root = .directory entries := by
    obtain ⟨name, rest, rfl⟩ := List.exists_cons_of_ne_nil hne
    obtain ⟨entries, hat, -⟩ := goes_of_walk h
    exact ⟨entries, Option.some.inj hat⟩
  unfold ofPath at h
  split at h
  · cases h
  · split at h
    · cases h
    · split at h
      · rename_i habsolute
        exact hwalk (names_ne_nil habsolute) h
      · cases h

/-! ### Gaps -/

/-- A name that a directory does not have. -/
def IsGap (root : Node) (around : List String) (name : String) : Prop :=
  ∃ entries, root.at? around = some (.directory entries) ∧ Node.child? entries name = none

theorem isGap_of_look {around : List String} (haround : root.look around = some (.directory []))
    (hname : root.look (around ++ [name]) = none) : IsGap root around name := by
  obtain ⟨entries, hat⟩ := Node.look_eq_directory.1 haround
  rw [Node.look_eq_none, Node.at?_below hat, Node.at?, Option.bind_eq_none_iff] at hname
  refine ⟨entries, hat, Option.eq_none_iff_forall_ne_some.2 fun n hchild => ?_⟩
  cases hname n hchild

theorem walk_missing {around : List String} {gap : String}
    (hjump : ∀ here text rest, jump here text rest = .ok (.missing around gap) →
      IsGap root around gap)
    (h : walk root follow jump here steps = .ok (.missing around gap)) : IsGap root around gap := by
  induction steps generalizing here with
  | nil => cases h
  | cons name rest ih =>
    obtain ⟨entries, hat, hgoes⟩ := goes_of_walk h
    cases hgoes with
    | stay _ h => exact ih h
    | up _ _ h => exact ih h
    | missing _ hchild _ h =>
      obtain ⟨rfl, rfl⟩ := Arrival.missing.inj h
      exact ⟨entries, hat, hchild⟩
    | link _ _ _ h => cases h
    | jump _ _ _ h => exact hjump _ _ _ h
    | down _ _ _ h => exact ih h

theorem walkLinks_missing {links : Nat} {around : List String} {gap : String}
    (h : walkLinks root follow links here steps = .ok (.missing around gap)) :
    IsGap root around gap := by
  induction links generalizing here steps with
  | zero =>
    rw [walkLinks] at h
    refine walk_missing (fun _ _ _ hjump => ?_) h
    cases hjump
  | succ links ih =>
    rw [walkLinks] at h
    refine walk_missing (fun here text rest hjump => ?_) h
    split at hjump
    · cases hjump
    · exact ih hjump

/-- A path to something that is missing leads to a directory without it. -/
theorem isGap_of_ofPath {path gap : String} {around : List String}
    (h : ofPath root follow path = .ok (.missing around gap)) : IsGap root around gap := by
  unfold ofPath at h
  split at h
  · cases h
  · split at h
    · cases h
    · split at h
      · exact walkLinks_missing h
      · cases h

/-! ### Nodes -/

/-- Something stands at the place. -/
def Stands (root : Node) (place : List String) : Prop :=
  ∃ n, root.at? place = some n

theorem Stands.dropLast {place : List String} (h : Stands root place) :
    Stands root place.dropLast := by
  obtain rfl | ⟨around, name, rfl⟩ := List.eq_nil_or_concat' place
  · exact h
  · obtain ⟨n, hn⟩ := h
    obtain ⟨entries, hentries, -⟩ := Node.exists_directory_of_at? hn
    rw [List.dropLast_concat]
    exact ⟨_, hentries⟩

theorem walk_found {place : List String} (hhere : Stands root here)
    (hjump : ∀ here text rest, Stands root here → jump here text rest = .ok (.found place) →
      Stands root place)
    (h : walk root follow jump here steps = .ok (.found place)) : Stands root place := by
  induction steps generalizing here with
  | nil =>
    obtain rfl := Arrival.found.inj (Except.ok.inj h)
    exact hhere
  | cons name rest ih =>
    obtain ⟨entries, hat, hgoes⟩ := goes_of_walk h
    cases hgoes with
    | stay _ h => exact ih hhere h
    | up _ _ h => exact ih hhere.dropLast h
    | missing _ _ _ h => cases h
    | link _ hchild _ h =>
      obtain rfl := Arrival.found.inj h
      exact ⟨_, Node.at?_child hat hchild⟩
    | jump _ _ _ h => exact hjump _ _ _ hhere h
    | down _ hchild _ h => exact ih ⟨_, Node.at?_child hat hchild⟩ h

theorem walkLinks_found {links : Nat} {place : List String} (hhere : Stands root here)
    (h : walkLinks root follow links here steps = .ok (.found place)) : Stands root place := by
  induction links generalizing here steps with
  | zero =>
    rw [walkLinks] at h
    refine walk_found hhere (fun _ _ _ _ hjump => ?_) h
    cases hjump
  | succ links ih =>
    rw [walkLinks] at h
    refine walk_found hhere (fun here text rest hhere hjump => ?_) h
    split at hjump
    · cases hjump
    · refine ih ?_ hjump
      split
      · exact ⟨root, rfl⟩
      · exact hhere

/-- Where a path leads, something stands. -/
theorem stands_of_ofPath {path : String} {place : List String}
    (h : ofPath root follow path = .ok (.found place)) : Stands root place := by
  unfold ofPath at h
  split at h
  · cases h
  · split at h
    · cases h
    · split at h
      · exact walkLinks_found ⟨root, rfl⟩ h
      · cases h

/-! ### Paths that go on to lead where they led -/

/-- All directories and links stay. -/
structure Keeps (root root' : Node) : Prop where
  directories : ∀ place, root.look place = some (.directory []) →
    root'.look place = some (.directory [])
  links : ∀ place text, root.look place = some (.link text) →
    root'.look place = some (.link text)

/-- A path may end at the place. -/
def EndsAt (root : Node) (follow : Bool) (place : List String) : Prop :=
  ∃ n, root.look place = some n ∧ (follow = true → ¬n.IsLink)

/-- The last name of a path. -/
theorem goes_last (hname : IsLookedUp name) (hat : root.at? here = some (.directory entries))
    (hend : EndsAt root follow (here ++ [name])) :
    Goes root follow jump here entries name [] (.found (here ++ [name])) := by
  obtain ⟨n, hlook, hlink⟩ := hend
  rw [Node.look, Option.map_eq_some_iff] at hlook
  obtain ⟨m, hm, rfl⟩ := hlook
  obtain ⟨entries', hat', hchild⟩ := Node.exists_directory_of_at? hm
  obtain rfl : entries' = entries := Node.directory.inj (Option.some.inj (hat'.symm.trans hat))
  by_cases hm : m.IsLink
  · obtain ⟨text, rfl⟩ := hm
    have hfollow : follow = false := by
      rw [Bool.eq_false_iff]
      exact fun hfollow => hlink hfollow ⟨text, rfl⟩
    exact .link hname hchild ⟨rfl, hfollow⟩ rfl
  · exact .down hname hchild hm rfl

/-- What stands beside names that stay. -/
theorem child?_of_look {n : Node} (hat : root.at? here = some (.directory entries))
    (hlook : root.look (here ++ [name]) = some n) :
    ∃ m, Node.child? entries name = some m ∧ m.face = n := by
  rw [Node.look, Node.at?_below hat, Option.map_eq_some_iff] at hlook
  obtain ⟨m, hm, hface⟩ := hlook
  rw [Node.at?, Option.bind_eq_some_iff] at hm
  obtain ⟨m', hchild, hm⟩ := hm
  obtain rfl := Option.some.inj hm
  exact ⟨m', hchild, hface⟩

theorem walk_arrives (hkeeps : Keeps root root')
    (hjump : ∀ here text rest, jump here text rest = .ok a →
      jump' here text rest = .ok (.found a.place))
    (h : walk root follow jump here steps = .ok a) (hend : EndsAt root' follow a.place) :
    walk root' follow jump' here steps = .ok (.found a.place) := by
  induction steps generalizing here with
  | nil =>
    obtain rfl := Except.ok.inj h
    rfl
  | cons name rest ih =>
    obtain ⟨entries, hat, hgoes⟩ := goes_of_walk h
    obtain ⟨entries', hat'⟩ := Node.look_eq_directory.1
      (hkeeps.directories here (Node.look_eq_directory.2 ⟨entries, hat⟩))
    refine walk_of_goes hat' ?_
    cases hgoes with
    | stay hname h => exact .stay hname (ih h)
    | up hdot hname h => exact .up hdot hname (ih h)
    | missing hname _ hrest ha =>
      subst hrest ha
      exact goes_last hname hat' hend
    | link hname _ hlast ha =>
      obtain ⟨rfl, -⟩ := hlast
      subst ha
      exact goes_last hname hat' hend
    | @jump hname text hchild hlast h =>
      have hlook : root.look (here ++ [name]) = some (.link text) :=
        Node.look_eq_link.2 (Node.at?_child hat hchild)
      obtain ⟨m, hchild', hface⟩ := child?_of_look hat' (hkeeps.links _ _ hlook)
      obtain rfl : m = .link text := by
        cases m with
        | file content mode => exact hface
        | link text' => exact hface
        | directory inner => cases hface
      exact .jump hname hchild' hlast (hjump _ _ _ h)
    | @down hname n hchild hlink h =>
      cases n with
      | link text => exact absurd ⟨text, rfl⟩ hlink
      | directory inner =>
        have hlook := Node.look_eq_directory.2 ⟨inner, Node.at?_child hat hchild⟩
        obtain ⟨m, hchild', hface⟩ := child?_of_look hat' (hkeeps.directories _ hlook)
        refine .down hname hchild' ?_ (ih h)
        rintro ⟨text, rfl⟩
        cases hface
      | file content mode =>
        -- behind a file nothing can follow
        cases rest with
        | nil =>
          obtain rfl := Except.ok.inj h
          exact goes_last hname hat' hend
        | cons next rest =>
          rw [walk, Node.at?_child hat hchild] at h
          cases h

theorem walkLinks_arrives (hkeeps : Keeps root root') {links : Nat}
    (h : walkLinks root follow links here steps = .ok a) (hend : EndsAt root' follow a.place) :
    walkLinks root' follow links here steps = .ok (.found a.place) := by
  induction links generalizing here steps with
  | zero =>
    rw [walkLinks] at h ⊢
    refine walk_arrives hkeeps (fun _ _ _ hjump => ?_) h hend
    cases hjump
  | succ links ih =>
    rw [walkLinks] at h ⊢
    refine walk_arrives hkeeps (fun here text rest hjump => ?_) h hend
    split at hjump
    · cases hjump
    · rename_i htext
      rw [if_neg htext]
      exact ih hjump

/-- **A path goes on to lead where it led**, if directories and links stay and something
stands where it ends. -/
theorem ofPath_arrives (hkeeps : Keeps root root') {path : String}
    (h : ofPath root follow path = .ok a) (hend : EndsAt root' follow a.place) :
    ofPath root' follow path = .ok (.found a.place) := by
  unfold ofPath at h ⊢
  split at h
  · cases h
  · rename_i hname
    rw [if_neg hname]
    split at h
    · cases h
    · rename_i hlength
      rw [if_neg hlength]
      split at h
      · rename_i habsolute
        rw [if_pos habsolute]
        exact walkLinks_arrives hkeeps h hend
      · cases h

end Arrival

end ModuleAssets
