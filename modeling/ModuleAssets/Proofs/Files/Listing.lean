import ModuleAssets.Asset.Transfer
import ModuleAssets.Proofs.Files.Following
/-!
# Listings — what stands below a directory

A listing gives each file below a path with its name relative to that path.
If no name of a file holds a backslash, the relative name tells which file it
is: the one that stands `below` the path by that name.
-/

namespace ModuleAssets

/-! ## Names of files -/

namespace Node

mutual

/-- All names below have characters, and no backslash. -/
def isPlain : Node → Bool
  | directory entries => isPlainIn entries
  | _ => true

/-- `isPlain` for the entries of a directory. -/
def isPlainIn : List (String × Node) → Bool
  | [] => true
  | (name, node) :: rest =>
    (name != "" && !name.toList.contains '\\') && (isPlain node && isPlainIn rest)

end

/-- A name of a file. -/
def IsPlainName (name : String) : Prop :=
  name ≠ "" ∧ '\\' ∉ name.toList

mutual

/-- The names of all that is below. -/
def names : Node → List String
  | directory entries => namesIn entries
  | _ => []

/-- `names` for the entries of a directory. -/
def namesIn : List (String × Node) → List String
  | [] => []
  | (name, node) :: rest => name :: (names node ++ namesIn rest)

end

mutual

theorem isPlain_iff : ∀ n : Node, n.isPlain = true ↔ ∀ name ∈ n.names, IsPlainName name
  | file .. => iff_of_true rfl fun _ => nofun
  | link _ => iff_of_true rfl fun _ => nofun
  | directory entries => isPlainIn_iff entries

theorem isPlainIn_iff : ∀ entries : List (String × Node),
    isPlainIn entries = true ↔ ∀ name ∈ namesIn entries, IsPlainName name
  | [] => iff_of_true rfl fun _ => nofun
  | (name, node) :: rest => by
    have hname : (name != "" && !name.toList.contains '\\') = true ↔ IsPlainName name := by
      simp [IsPlainName]
    rw [isPlainIn, namesIn, List.forall_mem_cons, List.forall_mem_append, ← isPlain_iff node,
      ← isPlainIn_iff rest, Bool.and_eq_true, hname, Bool.and_eq_true]

end

theorem names_subset_of_mem {entries : List (String × Node)} {entry : String × Node}
    (h : entry ∈ entries) : entry.2.names ⊆ namesIn entries := by
  induction entries with
  | nil => exact absurd h List.not_mem_nil
  | cons first rest ih =>
    refine List.Subset.trans ?_ (List.subset_cons_self _ _)
    obtain rfl | h := List.mem_cons.1 h
    · exact List.subset_append_left _ _
    · exact List.Subset.trans (ih h) (List.subset_append_right _ _)

/-- The names below a place are names below. -/
theorem names_at? {node n : Node} {place : List String} (h : node.at? place = some n) :
    n.names ⊆ node.names := by
  induction place generalizing node with
  | nil =>
    rw [at?, Option.some.injEq] at h
    exact h ▸ List.Subset.refl _
  | cons name place ih =>
    cases node with
    | file content mode => cases h
    | link target => cases h
    | directory entries =>
      rw [at?, Option.bind_eq_some_iff] at h
      obtain ⟨child, hchild, h⟩ := h
      rw [child?, Option.map_eq_some_iff] at hchild
      obtain ⟨entry, hentry, rfl⟩ := hchild
      exact List.Subset.trans (ih h) (names_subset_of_mem (List.mem_of_find?_eq_some hentry))

mutual

/-- Places consist of names that are kept. -/
theorem names_of_mem_leaves (keeps : String → Bool) : ∀ n : Node,
    ∀ place ∈ n.leaves keeps, ∀ name ∈ place, name ∈ n.names ∧ keeps name = true
  | file .., place, hplace => by
    obtain rfl : place = [] := List.mem_singleton.1 hplace
    exact fun _ => nofun
  | link _, place, hplace => by
    obtain rfl : place = [] := List.mem_singleton.1 hplace
    exact fun _ => nofun
  | directory entries, place, hplace => (names_of_mem_leavesIn keeps entries place hplace).2

theorem names_of_mem_leavesIn (keeps : String → Bool) : ∀ entries : List (String × Node),
    ∀ place ∈ leavesIn keeps entries,
      place ≠ [] ∧ ∀ name ∈ place, name ∈ namesIn entries ∧ keeps name = true
  | [], place, hplace => absurd hplace List.not_mem_nil
  | (name, node) :: rest, place, hplace => by
    rw [leavesIn, List.mem_append] at hplace
    obtain hplace | hplace := hplace
    · split at hplace
      · rename_i hkeeps
        obtain ⟨below, hbelow, rfl⟩ := List.mem_map.1 hplace
        refine ⟨List.cons_ne_nil _ _, List.forall_mem_cons.2
          ⟨⟨List.mem_cons_self, hkeeps⟩, fun n hn => ?_⟩⟩
        obtain ⟨hmem, hkept⟩ := names_of_mem_leaves keeps node below hbelow n hn
        exact ⟨List.mem_cons_of_mem _ (List.mem_append_left _ hmem), hkept⟩
      · exact absurd hplace List.not_mem_nil
    · obtain ⟨hne, hnames⟩ := names_of_mem_leavesIn keeps rest place hplace
      exact ⟨hne, fun n hn => ⟨List.mem_cons_of_mem _ (List.mem_append_right _ (hnames n hn).1),
        (hnames n hn).2⟩⟩

end

end Node

/-! ## Listings -/

/-- A path and what stands below it, if anything does. -/
def below (root rest : String) : String :=
  if rest = "" then root else if Text.endsWith root "/" then root ++ rest else root ++ "/" ++ rest

theorem mem_joinWithChar {mark c : Char} {pieces : List (List Char)}
    (h : c ∈ Text.joinWithChar mark pieces) : c = mark ∨ ∃ piece ∈ pieces, c ∈ piece := by
  induction pieces with
  | nil => exact absurd h List.not_mem_nil
  | cons piece rest ih =>
    cases rest with
    | nil => exact .inr ⟨piece, List.mem_cons_self, h⟩
    | cons next rest =>
      rw [Text.joinWithChar, List.mem_append, List.mem_cons] at h
      obtain h | h | h := h
      · exact .inr ⟨piece, List.mem_cons_self, h⟩
      · exact .inl h
      · exact (ih h).imp_right fun ⟨p, hp, hc⟩ => ⟨p, List.mem_cons_of_mem _ hp, hc⟩

theorem joinWithChar_ne_nil {mark : Char} {piece : List Char} (h : piece ≠ [])
    (rest : List (List Char)) : Text.joinWithChar mark (piece :: rest) ≠ [] := by
  cases rest with
  | nil => exact h
  | cons next rest =>
    rw [Text.joinWithChar]
    exact List.append_ne_nil_of_left_ne_nil h _

/-- Without backslashes the relative name of a place is its names. -/
theorem relativeName_eq {place : List String} (h : ∀ name ∈ place, '\\' ∉ name.toList) :
    relativeName place = String.ofList (Text.joinWithChar '/' (place.map String.toList)) := by
  rw [relativeName]
  refine congrArg String.ofList
    ((List.map_congr_left fun c hc => if_neg fun heq => ?_).trans (List.map_id _))
  subst heq
  obtain hslash | ⟨piece, hpiece, hmem⟩ := mem_joinWithChar hc
  · exact absurd hslash (by decide)
  · obtain ⟨n, hn, rfl⟩ := List.mem_map.1 hpiece
    exact h n hn hmem

/-- Below a path stands what the name relative to it says. -/
theorem pathBelow_eq (root : String) {place : List String} (hplace : place ≠ [])
    (hplain : ∀ name ∈ place, Node.IsPlainName name) :
    pathBelow root place = below root (relativeName place) := by
  obtain ⟨name, rest, rfl⟩ := List.exists_cons_of_ne_nil hplace
  have hne : String.ofList (Text.joinWithChar '/' ((name :: rest).map String.toList)) ≠ "" := by
    intro hempty
    have hname : name.toList ≠ [] := fun h =>
      (hplain name List.mem_cons_self).1 (String.toList_eq_nil_iff.1 h)
    exact joinWithChar_ne_nil hname (rest.map String.toList) (by simpa using hempty)
  rw [pathBelow, relativeName_eq fun n hn => (hplain n hn).2, below, if_neg hne]

/-- **What is listed for a path**: the path itself unless that of a directory, and all places below
what the path leads to. -/
theorem exists_listBelow {files : FileTree} {root : String} {found : List (String × String)}
    (h : listBelow files root = .ok found) :
    ∃ entry node, files.entry root = .ok entry ∧ files.target root = .ok node ∧
      found = (if entry.isDirectory then [] else [(root, "")]) ++
        ((node.leaves isListed).filter (· ≠ [])).map fun place =>
          (pathBelow root place, relativeName place) := by
  have hleaf {node : Node} (hnode : ∀ entries, node = .directory entries → False) :
      node.isDirectory = false ∧ (node.leaves isListed).filter (· ≠ []) = [] := by
    cases node with
    | directory entries => exact absurd rfl (hnode entries)
    | file content mode => exact ⟨rfl, rfl⟩
    | link target => exact ⟨rfl, rfl⟩
  have hbelow (entries : List (String × Node)) :
      ((Node.directory entries).leaves isListed).filter (· ≠ []) =
        (Node.directory entries).leaves isListed :=
    List.filter_eq_self.2 fun place hplace =>
      decide_eq_true (Node.names_of_mem_leavesIn isListed entries place hplace).1
  unfold listBelow at h
  dsimp only at h
  split at h
  · cases h
  · rename_i text hentry
    split at h
    · cases h
    · rename_i entries htarget
      cases h
      refine ⟨_, _, hentry, htarget, ?_⟩
      rw [hbelow]
      rfl
    · rename_i node hother htarget
      cases h
      refine ⟨_, _, hentry, htarget, ?_⟩
      rw [(hleaf hother).2]
      rfl
  · rename_i entries hentry
    cases h
    refine ⟨_, _, hentry, FileTree.target_of_entry hentry nofun, ?_⟩
    rw [hbelow]
    rfl
  · rename_i node hlink hother hentry
    cases h
    have hnode : ¬node.IsLink := fun ⟨text, htext⟩ => hlink text htext
    refine ⟨_, _, hentry, FileTree.target_of_entry hentry hnode, ?_⟩
    rw [(hleaf hother).1, (hleaf hother).2]
    rfl

theorem names_subset_of_node {files : FileTree} {follow : Bool} {path : String} {node : Node}
    (h : files.node follow path = .ok node) : node.names ⊆ files.root.names := by
  obtain ⟨place, -, hat⟩ := FileTree.node_eq_ok_iff.1 h
  exact Node.names_at? hat

/-- **What a listing holds**: places below the path, with kept names of the tree, and, unless
the path is that of a directory itself, the path alone. -/
theorem cases_of_mem_listBelow {files : FileTree} {root : String} {found : List (String × String)}
    (h : listBelow files root = .ok found) {f : String × String} (hf : f ∈ found) :
    (f = (root, "") ∧ ∀ entries, files.entry root ≠ .ok (.directory entries)) ∨
      ∃ place, place ≠ [] ∧ (∀ name ∈ place, name ∈ files.root.names ∧ isListed name = true) ∧
        f = (pathBelow root place, relativeName place) := by
  obtain ⟨entry, node, hentry, htarget, rfl⟩ := exists_listBelow h
  obtain hself | hbelow := List.mem_append.1 hf
  · split at hself
    · exact absurd hself List.not_mem_nil
    · rename_i hdirectory
      refine .inl ⟨List.mem_singleton.1 hself, fun entries heq => hdirectory ?_⟩
      obtain rfl := Except.ok.inj (hentry.symm.trans heq)
      rfl
  · obtain ⟨place, hplace, rfl⟩ := List.mem_map.1 hbelow
    obtain ⟨hleaf, hne⟩ := List.mem_filter.1 hplace
    refine .inr ⟨place, of_decide_eq_true hne, fun name hname => ?_, rfl⟩
    obtain ⟨hmem, hkept⟩ := Node.names_of_mem_leaves isListed node place hleaf name hname
    exact ⟨names_subset_of_node htarget hmem, hkept⟩

/-- **What is listed stands below the path by its relative name.** -/
theorem eq_below_of_mem_listBelow {files : FileTree} (hfiles : files.root.isPlain = true)
    {root : String} {found : List (String × String)} (h : listBelow files root = .ok found)
    {f : String × String} (hf : f ∈ found) : f.1 = below root f.2 := by
  obtain ⟨rfl, -⟩ | ⟨place, hne, hnames, rfl⟩ := cases_of_mem_listBelow h hf
  · exact (if_pos rfl).symm
  · exact pathBelow_eq root hne fun name hname =>
      (Node.isPlain_iff _).1 hfiles name (hnames name hname).1

theorem eq_below_of_mem_assetsBelow {files : FileTree} (hfiles : files.root.isPlain = true)
    {wanted : String → Bool} {root : String} {found : List (String × String)}
    (h : assetsBelow files wanted root = .ok found) {f : String × String} (hf : f ∈ found) :
    f.1 = below root f.2 := by
  unfold assetsBelow at h
  split at h
  · rename_i hlisted
    cases h
    exact eq_below_of_mem_listBelow hfiles hlisted (List.mem_filter.1 hf).1
  · cases h

end ModuleAssets
