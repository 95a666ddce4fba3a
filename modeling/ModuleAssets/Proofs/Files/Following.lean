import ModuleAssets.Files.Tree
import Mathlib.Tactic.Common
/-!
# Following — the last name of a path

Whether the last name of a path is followed makes a difference only where that
name is a link. A path that leads to anything else leads there either way
(`target_of_entry`).
-/

namespace ModuleAssets

namespace Node

/-- The node is a link. -/
def IsLink (n : Node) : Prop :=
  ∃ text, n = .link text

theorem at?_append {node n : Node} {place : List String} (h : node.at? place = some n)
    (name : String) : node.at? (place ++ [name]) = n.at? [name] := by
  induction place generalizing node with
  | nil =>
    rw [at?, Option.some.injEq] at h
    rw [List.nil_append, h]
  | cons first rest ih =>
    cases node with
    | file content mode => cases h
    | link text => cases h
    | directory entries =>
      rw [at?, Option.bind_eq_some_iff] at h
      obtain ⟨child, hchild, h⟩ := h
      rw [List.cons_append, at?, hchild, Option.bind_some, ih h]

/-- What a directory has under a name stands at the place with that name. -/
theorem at?_child {node n : Node} {place : List String} {entries : List (String × Node)}
    {name : String} (h : node.at? place = some (.directory entries))
    (hchild : child? entries name = some n) : node.at? (place ++ [name]) = some n := by
  rw [at?_append h, at?, hchild, Option.bind_some, at?]

end Node

namespace Arrival

variable {root : Node} {place arrival names : List String}

/-- Where a path leads that ends at no link. -/
def LeadsPast (root : Node) (steps : Except FileError Arrival) (arrival : List String) : Prop :=
  steps = .ok (.found arrival) ∧ ∀ n, root.at? arrival = some n → ¬n.IsLink

/-- **Names that end at no link end there if the last one is followed, too.** -/
theorem walk_follow {jump jump' : List String → String → List String → Except FileError Arrival}
    (hjump : ∀ place text rest, LeadsPast root (jump place text rest) arrival →
      jump' place text rest = .ok (.found arrival))
    (h : LeadsPast root (walk root false jump place names) arrival) :
    walk root true jump' place names = .ok (.found arrival) := by
  induction names generalizing place with
  | nil => exact h.1
  | cons name rest ih =>
    obtain ⟨hwalk, hend⟩ := h
    rw [walk] at hwalk ⊢
    cases hat : root.at? place with
    | none =>
      rw [hat] at hwalk
      cases hwalk
    | some n =>
      rw [hat] at hwalk
      cases n with
      | file content mode => cases hwalk
      | link text => cases hwalk
      | directory entries =>
        dsimp only at hwalk ⊢
        by_cases hdot : name = "."
        · rw [if_pos hdot] at hwalk ⊢
          exact ih ⟨hwalk, hend⟩
        rw [if_neg hdot] at hwalk ⊢
        by_cases hup : name = ".."
        · rw [if_pos hup] at hwalk ⊢
          exact ih ⟨hwalk, hend⟩
        rw [if_neg hup] at hwalk ⊢
        by_cases hlong : nameLimit < Text.byteLength name.toList
        · rw [if_pos hlong] at hwalk
          cases hwalk
        rw [if_neg hlong] at hwalk ⊢
        cases hchild : Node.child? entries name with
        | none =>
          rw [hchild] at hwalk
          dsimp only at hwalk
          split at hwalk
          · cases hwalk
          · cases hwalk
        | some n =>
          rw [hchild] at hwalk
          cases n with
          | file content mode => exact ih ⟨hwalk, hend⟩
          | directory inner => exact ih ⟨hwalk, hend⟩
          | link text =>
            dsimp only at hwalk ⊢
            rw [if_neg (fun hlast => Bool.noConfusion hlast.2)]
            by_cases hlast : rest = [] ∧ false = false
            · -- the walk would end at the link itself
              rw [if_pos hlast] at hwalk
              obtain rfl := Arrival.found.inj (Except.ok.inj hwalk)
              exact absurd ⟨text, rfl⟩ (hend _ (Node.at?_child hat hchild))
            · rw [if_neg hlast] at hwalk
              exact hjump _ _ _ ⟨hwalk, hend⟩

theorem walkLinks_follow {links : Nat}
    (h : LeadsPast root (walkLinks root false links place names) arrival) :
    walkLinks root true links place names = .ok (.found arrival) := by
  induction links generalizing place names with
  | zero =>
    rw [walkLinks] at h ⊢
    refine walk_follow (fun _ _ _ hjump => ?_) h
    cases hjump.1
  | succ links ih =>
    rw [walkLinks] at h ⊢
    refine walk_follow (fun place text rest hjump => ?_) h
    obtain ⟨hjump, hend⟩ := hjump
    split at hjump
    · cases hjump
    · rename_i htext
      rw [if_neg htext]
      exact ih ⟨hjump, hend⟩

theorem ofPath_follow {path : String} (h : LeadsPast root (ofPath root false path) arrival) :
    ofPath root true path = .ok (.found arrival) := by
  obtain ⟨hpath, hend⟩ := h
  unfold ofPath at hpath ⊢
  split at hpath
  · cases hpath
  · rename_i hname
    rw [if_neg hname]
    split at hpath
    · cases hpath
    · rename_i hlength
      rw [if_neg hlength]
      split at hpath
      · rename_i habsolute
        rw [if_pos habsolute]
        exact walkLinks_follow ⟨hpath, hend⟩
      · cases hpath

end Arrival

/-- **A path leads to what stands at its place.** -/
theorem FileTree.node_eq_ok_iff {files : FileTree} {follow : Bool} {path : String} {n : Node} :
    files.node follow path = .ok n ↔ ∃ place,
      Arrival.ofPath files.root follow path = .ok (.found place) ∧ files.root.at? place = some n := by
  unfold node
  cases Arrival.ofPath files.root follow path with
  | error e => exact iff_of_false nofun nofun
  | ok arrival =>
    cases arrival with
    | missing directory name => exact iff_of_false nofun nofun
    | found place =>
      dsimp only
      cases hat : files.root.at? place with
      | none =>
        refine iff_of_false nofun ?_
        rintro ⟨other, hother, hn⟩
        cases hother
        cases hat.symm.trans hn
      | some m =>
        constructor
        · rintro h
          cases h
          exact ⟨place, rfl, hat⟩
        · rintro ⟨other, hother, hn⟩
          cases hother
          rw [Option.some.inj (hat.symm.trans hn)]

/-- **What a path leads to is what stands there, unless that is a link.** -/
theorem FileTree.target_of_entry {files : FileTree} {path : String} {n : Node}
    (h : files.entry path = .ok n) (hlink : ¬n.IsLink) : files.target path = .ok n := by
  obtain ⟨place, hplace, hat⟩ := node_eq_ok_iff.1 h
  have hfollowed : Arrival.ofPath files.root true path = .ok (.found place) :=
    Arrival.ofPath_follow ⟨hplace, fun n hn => Option.some.inj (hat.symm.trans hn) ▸ hlink⟩
  exact node_eq_ok_iff.2 ⟨place, hfollowed, hat⟩

/-- The root is no link. -/
theorem FileTree.entry_root {files : FileTree} {n : Node} (h : files.entry "/" = .ok n) :
    ¬n.IsLink := by
  obtain ⟨root⟩ := files
  cases root with
  | file content mode =>
    have hrefused : entry ⟨.file content mode⟩ "/" = .error .notDirectory := rfl
    cases hrefused.symm.trans h
  | link text =>
    have hrefused : entry ⟨.link text⟩ "/" = .error .notDirectory := rfl
    cases hrefused.symm.trans h
  | directory entries =>
    have hroot : entry ⟨.directory entries⟩ "/" = .ok (.directory entries) := rfl
    obtain rfl := Except.ok.inj (hroot.symm.trans h)
    exact nofun

theorem FileTree.isFile_iff {files : FileTree} {path : String} :
    files.isFile path = true ↔ ∃ content mode, files.target path = .ok (.file content mode) := by
  unfold isFile
  cases files.target path with
  | error e => simp
  | ok n => cases n <;> simp [Node.isFile]

end ModuleAssets
