import ModuleAssets.Proofs.Files.Listing
import ModuleAssets.Proofs.Json.Members
/-!
# The order of a tree — each leaf once, by the names that lead to it

A directory lists its entries in the order of their names, each name once. In a tree of such
directories the listing of the leaves is determined by what stands where: a place is listed
exactly if something other than a directory stands there and all names on the way are kept
(`mem_leaves_iff`), and of two places the one stands first that has the smaller name where
they part (`pairwise_leaves`). All changes of a tree put a node in a directory or take one away,
and both keep the order (`FileTree.isOrdered_put`, `FileTree.isOrdered_dropAt`).
-/

namespace ModuleAssets

/-! ## The order of names -/

theorem charsLe_cons {a b : Char} {as bs : List Char} :
    charsLe (a :: as) (b :: bs) = true ↔ a < b ∨ a = b ∧ charsLe as bs = true := by
  simp [charsLe]

theorem charsLe_trans : ∀ {as bs cs : List Char},
    charsLe as bs = true → charsLe bs cs = true → charsLe as cs = true
  | [], _, _, _, _ => rfl
  | _ :: _, [], _, h, _ => nomatch h
  | _ :: _, _ :: _, [], _, h => nomatch h
  | _ :: _, _ :: _, _ :: _, h, h' => by
    obtain hlt | ⟨rfl, htail⟩ := charsLe_cons.1 h
    · obtain hlt' | ⟨rfl, -⟩ := charsLe_cons.1 h'
      · exact charsLe_cons.2 (.inl (Char.lt_trans hlt hlt'))
      · exact charsLe_cons.2 (.inl hlt)
    · obtain hlt' | ⟨rfl, htail'⟩ := charsLe_cons.1 h'
      · exact charsLe_cons.2 (.inl hlt')
      · exact charsLe_cons.2 (.inr ⟨rfl, charsLe_trans htail htail'⟩)

theorem charsLe_antisymm : ∀ {as bs : List Char},
    charsLe as bs = true → charsLe bs as = true → as = bs
  | [], [], _, _ => rfl
  | [], _ :: _, _, h => nomatch h
  | _ :: _, [], h, _ => nomatch h
  | _ :: _, _ :: _, h, h' => by
    obtain hlt | ⟨rfl, htail⟩ := charsLe_cons.1 h
    · obtain hlt' | ⟨rfl, -⟩ := charsLe_cons.1 h'
      · exact absurd hlt' (Char.lt_asymm hlt)
      · exact absurd hlt (Char.lt_irrefl _)
    · obtain hlt' | ⟨-, htail'⟩ := charsLe_cons.1 h'
      · exact absurd hlt' (Char.lt_irrefl _)
      · rw [charsLe_antisymm htail htail']

theorem charsLe_total : ∀ as bs : List Char, charsLe as bs = true ∨ charsLe bs as = true
  | [], _ => .inl rfl
  | _ :: _, [] => .inr rfl
  | a :: as, b :: bs => by
    rw [charsLe_cons, charsLe_cons]
    by_cases hab : a = b
    · subst hab
      exact (charsLe_total as bs).imp (fun h => .inr ⟨rfl, h⟩) fun h => .inr ⟨rfl, h⟩
    · by_cases hlt : a < b
      · exact .inl (.inl hlt)
      · exact .inr (.inl (Char.not_le.1 fun hle => hab (Char.le_antisymm hle (Char.not_lt.1 hlt))))

/-- Of two texts, the first comes before the other. -/
def Precedes (a b : String) : Prop :=
  a ≠ b ∧ textLe a b = true

instance (a b : String) : Decidable (Precedes a b) :=
  inferInstanceAs (Decidable (_ ∧ _))

theorem Precedes.trans {a b c : String} (h : Precedes a b) (h' : Precedes b c) : Precedes a c := by
  obtain ⟨hne, hle⟩ := h
  refine ⟨?_, charsLe_trans hle h'.2⟩
  rintro rfl
  exact hne (String.toList_inj.1 (charsLe_antisymm hle h'.2))

theorem precedes_total {a b : String} (hne : a ≠ b) (h : ¬textLe a b = true) : Precedes b a :=
  ⟨hne.symm, (charsLe_total a.toList b.toList).resolve_left h⟩

/-! ## Trees in order -/

/-- Two places part at a name, and the first one has the smaller name there. -/
def ComesBefore : List String → List String → Prop
  | a :: as, b :: bs => Precedes a b ∨ a = b ∧ ComesBefore as bs
  | _, _ => False

theorem ComesBefore.irrefl : ∀ place, ¬ComesBefore place place
  | [], h => h
  | _ :: rest, h => h.elim (fun hname => hname.1 rfl) fun hrest => irrefl rest hrest.2

namespace Node

mutual

/-- In all directories below, the entries are in the order of their names, each name once. -/
def isOrdered : Node → Bool
  | directory entries => isOrderedIn entries
  | _ => true

/-- `isOrdered` for the entries of a directory. -/
def isOrderedIn : List (String × Node) → Bool
  | [] => true
  | (name, node) :: rest =>
    rest.all (fun entry => decide (Precedes name entry.1)) && (isOrdered node && isOrderedIn rest)

end

variable {entries rest : List (String × Node)} {name key : String} {node n : Node}

theorem isOrderedIn_cons :
    isOrderedIn ((name, node) :: rest) = true ↔
      (∀ entry ∈ rest, Precedes name entry.1) ∧ node.isOrdered = true ∧
        isOrderedIn rest = true := by
  simp [isOrderedIn]

theorem child?_cons :
    child? ((key, node) :: rest) name = if key = name then some node else child? rest name :=
  Json.member?_cons key node rest name

theorem mem_of_child? (h : child? entries name = some n) : (name, n) ∈ entries := by
  obtain ⟨⟨key, n⟩, hfind, rfl⟩ := Option.map_eq_some_iff.1 h
  have hname := List.find?_some hfind
  obtain rfl : key = name := beq_iff_eq.1 hname
  exact List.mem_of_find?_eq_some hfind

theorem isOrdered_of_mem (h : isOrderedIn entries = true) (hmem : (name, n) ∈ entries) :
    n.isOrdered = true := by
  induction entries with
  | nil => exact absurd hmem List.not_mem_nil
  | cons entry rest ih =>
    obtain ⟨key, node⟩ := entry
    obtain ⟨-, hnode, hrest⟩ := isOrderedIn_cons.1 h
    obtain heq | hmem := List.mem_cons.1 hmem
    · cases heq
      exact hnode
    · exact ih hrest hmem

/-- What stands at a place of an ordered tree is ordered. -/
theorem isOrdered_at? {place : List String} (h : node.isOrdered = true)
    (hat : node.at? place = some n) : n.isOrdered = true := by
  induction place generalizing node with
  | nil =>
    obtain rfl := Option.some.inj hat
    exact h
  | cons name place ih =>
    cases node with
    | file content mode => cases hat
    | link target => cases hat
    | directory entries =>
      rw [at?, Option.bind_eq_some_iff] at hat
      obtain ⟨child, hchild, hat⟩ := hat
      exact ih (isOrdered_of_mem h (mem_of_child? hchild)) hat

/-! ## Changes -/

theorem mem_putEntry {entry : String × Node} (h : entry ∈ putEntry name node entries) :
    entry = (name, node) ∨ entry ∈ entries := by
  induction entries with
  | nil => exact .inl (List.mem_singleton.1 h)
  | cons first rest ih =>
    obtain ⟨key, n⟩ := first
    rw [putEntry] at h
    split at h
    · exact (List.mem_cons.1 h).imp_right (List.mem_cons_of_mem _)
    · split at h
      · exact List.mem_cons.1 h
      · obtain rfl | h := List.mem_cons.1 h
        · exact .inr List.mem_cons_self
        · exact (ih h).imp_right (List.mem_cons_of_mem _)

theorem isOrderedIn_putEntry (h : isOrderedIn entries = true) (hnode : node.isOrdered = true) :
    isOrderedIn (putEntry name node entries) = true := by
  induction entries with
  | nil => exact isOrderedIn_cons.2 ⟨fun _ => nofun, hnode, rfl⟩
  | cons first rest ih =>
    obtain ⟨key, n⟩ := first
    obtain ⟨hfirst, hn, hrest⟩ := isOrderedIn_cons.1 h
    rw [putEntry]
    split
    · -- the node takes the place of the entry
      rename_i hkey
      subst hkey
      exact isOrderedIn_cons.2 ⟨hfirst, hnode, hrest⟩
    · rename_i hkey
      split
      · -- it comes before the entry, so before all others
        rename_i hle
        have hbefore : Precedes name key := ⟨Ne.symm hkey, hle⟩
        have hothers : ∀ entry ∈ rest, Precedes name entry.1 := fun entry hentry =>
          hbefore.trans (hfirst entry hentry)
        exact isOrderedIn_cons.2 ⟨List.forall_mem_cons.2 ⟨hbefore, hothers⟩, hnode, h⟩
      · -- it comes somewhere behind the entry
        rename_i hle
        refine isOrderedIn_cons.2 ⟨fun entry hentry => ?_, hn, ih hrest⟩
        obtain rfl | hentry := mem_putEntry hentry
        · exact precedes_total (Ne.symm hkey) hle
        · exact hfirst entry hentry

theorem isOrderedIn_dropEntry (h : isOrderedIn entries = true) (name : String) :
    isOrderedIn (dropEntry name entries) = true := by
  induction entries with
  | nil => rfl
  | cons first rest ih =>
    obtain ⟨key, n⟩ := first
    obtain ⟨hfirst, hn, hrest⟩ := isOrderedIn_cons.1 h
    rw [dropEntry, List.filter_cons]
    split
    · exact isOrderedIn_cons.2
        ⟨fun entry hentry => hfirst entry (List.mem_filter.1 hentry).1, hn, ih hrest⟩
    · exact ih hrest

/-- What keeps the order in one directory keeps that of the tree. -/
theorem isOrdered_modifyEntries {change : List (String × Node) → List (String × Node)}
    (hchange : ∀ entries, isOrderedIn entries = true → isOrderedIn (change entries) = true)
    {place : List String} (h : node.isOrdered = true) :
    (modifyEntries change place node).isOrdered = true := by
  induction place generalizing node with
  | nil =>
    cases node with
    | file content mode => rfl
    | link target => rfl
    | directory entries => exact hchange entries h
  | cons name place ih =>
    cases node with
    | file content mode => rfl
    | link target => rfl
    | directory entries =>
      rw [modifyEntries]
      split
      · rename_i child hchild
        exact isOrderedIn_putEntry h (ih (isOrdered_of_mem h (mem_of_child? hchild)))
      · exact h

/-! ## Which places are listed -/

/-- Something stands at the place, and it is no directory. -/
def IsLeaf (node : Node) (place : List String) : Prop :=
  ∃ n, node.at? place = some n ∧ n.isDirectory = false

theorem isLeaf_directory {place : List String} :
    (directory entries).IsLeaf (name :: place) ↔
      ∃ child, child? entries name = some child ∧ child.IsLeaf place := by
  unfold IsLeaf
  simp only [at?, Option.bind_eq_some_iff]
  constructor
  · rintro ⟨n, ⟨child, hchild, hat⟩, hn⟩
    exact ⟨child, hchild, n, hat, hn⟩
  · rintro ⟨child, hchild, n, hat, hn⟩
    exact ⟨n, ⟨child, hchild, hat⟩, hn⟩

theorem isLeaf_nil : node.IsLeaf [] ↔ node.isDirectory = false := by
  unfold IsLeaf
  simp [at?]

/-- What is no directory is its only leaf. -/
theorem mem_leaves_of_not_directory (hn : n.isDirectory = false) (keeps : String → Bool)
    (place : List String) :
    place ∈ n.leaves keeps ↔ n.IsLeaf place ∧ ∀ name ∈ place, keeps name = true := by
  have hleaves : n.leaves keeps = [[]] := by
    cases n with
    | directory entries => cases hn
    | file content mode => rfl
    | link target => rfl
  rw [hleaves, List.mem_singleton]
  cases place with
  | nil => exact iff_of_true rfl ⟨isLeaf_nil.2 hn, List.forall_mem_nil _⟩
  | cons name place =>
    refine iff_of_false (List.cons_ne_nil _ _) fun h => ?_
    obtain ⟨⟨m, hat, -⟩, -⟩ := h
    cases n with
    | directory entries => cases hn
    | file content mode => cases hat
    | link target => cases hat

/-- A place below the first entry, or below one of the others. -/
theorem mem_leavesIn_cons {keeps : String → Bool} {place : List String} :
    place ∈ leavesIn keeps ((name, node) :: rest) ↔
      (keeps name = true ∧ ∃ below ∈ node.leaves keeps, place = name :: below) ∨
        place ∈ leavesIn keeps rest := by
  rw [leavesIn, List.mem_append]
  refine or_congr_left ?_
  split
  · rename_i hkeeps
    rw [List.mem_map, and_iff_right hkeeps]
    exact ⟨fun ⟨below, hbelow, heq⟩ => ⟨below, hbelow, heq.symm⟩,
      fun ⟨below, hbelow, heq⟩ => ⟨below, hbelow, heq.symm⟩⟩
  · rename_i hkeeps
    exact iff_of_false List.not_mem_nil fun h => hkeeps h.1

/-- A place that is listed begins with the name of an entry. -/
theorem exists_entry_of_mem_leavesIn {keeps : String → Bool} {place : List String}
    (h : place ∈ leavesIn keeps entries) :
    ∃ entry ∈ entries, ∃ below, place = entry.1 :: below := by
  induction entries with
  | nil => exact absurd h List.not_mem_nil
  | cons entry rest ih =>
    obtain ⟨key, node⟩ := entry
    obtain ⟨-, below, -, rfl⟩ | h := mem_leavesIn_cons.1 h
    · exact ⟨_, List.mem_cons_self, below, rfl⟩
    · obtain ⟨entry, hentry, below, hplace⟩ := ih h
      exact ⟨entry, List.mem_cons_of_mem _ hentry, below, hplace⟩

section

variable (keeps : String → Bool)

mutual

/-- **Which places are listed**: those of all that is no directory, under names that are kept. -/
theorem mem_leaves_iff : ∀ n : Node, n.isOrdered = true → ∀ place,
    place ∈ n.leaves keeps ↔ n.IsLeaf place ∧ ∀ name ∈ place, keeps name = true
  | file .., _, place => mem_leaves_of_not_directory rfl keeps place
  | link _, _, place => mem_leaves_of_not_directory rfl keeps place
  | directory entries, h, place => mem_leavesIn_iff entries h place

theorem mem_leavesIn_iff : ∀ entries : List (String × Node), isOrderedIn entries = true →
    ∀ place, place ∈ leavesIn keeps entries ↔
      (directory entries).IsLeaf place ∧ ∀ name ∈ place, keeps name = true
  | [], _, place => by
    refine iff_of_false List.not_mem_nil fun h => ?_
    cases place with
    | nil => exact Bool.noConfusion (isLeaf_nil.1 h.1)
    | cons name place =>
      obtain ⟨child, hchild, -⟩ := isLeaf_directory.1 h.1
      cases hchild
  | (key, node) :: rest, h, place => by
    obtain ⟨hfirst, hnode, hrest⟩ := isOrderedIn_cons.1 h
    rw [mem_leavesIn_cons, mem_leavesIn_iff rest hrest]
    cases place with
    | nil =>
      refine iff_of_false (fun h => ?_) fun h => Bool.noConfusion (isLeaf_nil.1 h.1)
      obtain ⟨-, below, -, heq⟩ | h := h
      · cases heq
      · exact Bool.noConfusion (isLeaf_nil.1 h.1)
    | cons name place =>
      rw [isLeaf_directory, isLeaf_directory, List.forall_mem_cons, child?_cons]
      by_cases hkey : key = name
      · -- no other entry has the name of the first one
        subst hkey
        have hother : child? rest key = none := by
          refine Option.eq_none_iff_forall_ne_some.2 fun n hchild => ?_
          exact (hfirst _ (mem_of_child? hchild)).1 rfl
        rw [if_pos rfl, hother]
        constructor
        · rintro (⟨hkeeps, below, hbelow, heq⟩ | ⟨⟨child, hchild, -⟩, -⟩)
          · cases heq
            obtain ⟨hleaf, hkept⟩ := (mem_leaves_iff node hnode place).1 hbelow
            exact ⟨⟨node, rfl, hleaf⟩, hkeeps, hkept⟩
          · cases hchild
        · rintro ⟨⟨child, hchild, hleaf⟩, hkeeps, hkept⟩
          obtain rfl := Option.some.inj hchild
          exact .inl ⟨hkeeps, place, (mem_leaves_iff node hnode place).2 ⟨hleaf, hkept⟩, rfl⟩
      · rw [if_neg hkey]
        refine or_iff_right ?_
        rintro ⟨-, below, -, heq⟩
        exact hkey (List.cons.inj heq).1.symm

end

mutual

/-- **In which order**: of two places the one with the smaller name comes first. -/
theorem pairwise_leaves : ∀ n : Node, n.isOrdered = true → (n.leaves keeps).Pairwise ComesBefore
  | file .., _ => List.pairwise_singleton _ _
  | link _, _ => List.pairwise_singleton _ _
  | directory entries, h => pairwise_leavesIn entries h

theorem pairwise_leavesIn : ∀ entries : List (String × Node), isOrderedIn entries = true →
    (leavesIn keeps entries).Pairwise ComesBefore
  | [], _ => List.Pairwise.nil
  | (key, node) :: rest, h => by
    obtain ⟨hfirst, hnode, hrest⟩ := isOrderedIn_cons.1 h
    rw [leavesIn, List.pairwise_append]
    -- places of one entry part below it, places of two entries at their names
    refine ⟨?_, pairwise_leavesIn rest hrest, fun place hplace other hother => ?_⟩
    · split
      · exact (pairwise_leaves node hnode).map _ fun _ _ hbefore => .inr ⟨rfl, hbefore⟩
      · exact List.Pairwise.nil
    · split at hplace
      · obtain ⟨below, -, rfl⟩ := List.mem_map.1 hplace
        obtain ⟨entry, hentry, after, rfl⟩ := exists_entry_of_mem_leavesIn hother
        exact .inl (hfirst entry hentry)
      · exact absurd hplace List.not_mem_nil

end

end

end Node

/-! ## Changes of a tree -/

namespace FileTree

variable {files : FileTree} {node : Node}

/-- **To put a node in a directory keeps the order.** -/
theorem isOrdered_put (h : files.root.isOrdered = true) (hnode : node.isOrdered = true)
    (directory : List String) (name : String) :
    (files.put directory name node).root.isOrdered = true :=
  Node.isOrdered_modifyEntries (fun _ hentries => Node.isOrderedIn_putEntry hentries hnode) h

/-- **To take away a node keeps the order.** -/
theorem isOrdered_dropAt (h : files.root.isOrdered = true) (place : List String) :
    (files.dropAt place).root.isOrdered = true := by
  unfold dropAt
  split
  · rename_i name hname
    exact Node.isOrdered_modifyEntries
      (fun _ hentries => Node.isOrderedIn_dropEntry hentries name) h
  · exact h

/-- What a path leads to in a tree in order is in order. -/
theorem isOrdered_node (h : files.root.isOrdered = true) {follow : Bool} {path : String}
    (hnode : files.node follow path = .ok node) : node.isOrdered = true := by
  obtain ⟨place, -, hat⟩ := node_eq_ok_iff.1 hnode
  exact Node.isOrdered_at? h hat

end FileTree

end ModuleAssets
