import ModuleAssets.Proofs.Asset.Held
import ModuleAssets.Proofs.Asset.Links
import ModuleAssets.Proofs.Asset.Placed
import ModuleAssets.Proofs.Command.Outputs
import ModuleAssets.Proofs.Files.Listing
import ModuleAssets.Proofs.Path.LastName
import ModuleAssets.Proofs.Path.Walked
/-!
# Targets — links that are met, and links that can be made

What is recorded for a link depends on its directory and its text alone (`linkTarget_eq`). So
from the directory it leads to what the link leads to, however the directory and the text are
written (`transfer_link`). It is empty exactly for a link to its own directory, and a link with
an empty target cannot be made: nothing is delivered for it, and a run that has recorded one
gives no report (`RunPlan.target_ne_empty`). Every other target can be the target of a link.
-/

namespace ModuleAssets

open ModuleAssets.Path (IsPlain goOn rooted upAndDown walk written)

variable {files : FileTree} {source text : String} {place : List (List Char)} {name : List Char}
  {slash : Bool}

/-! ## Targets by directory -/

theorem wayFrom?_self (names : List String) : wayFrom? names names = some [] := by
  induction names with
  | nil => rfl
  | cons name rest ih => rw [wayFrom?, if_pos rfl, ih]

theorem segments_written (hplace : ∀ n ∈ place, IsPlain n) (slash : Bool) :
    segments (written place slash) = place.map String.ofList := by
  by_cases hslash : slash = true ∧ place ≠ []
  · obtain ⟨rfl, hne⟩ := hslash
    have hpieces : Text.splitAtChar '/' (rooted place ++ ['/']) =
        Text.splitAtChar '/' (rooted place) ++ [[]] := Path.pieces_append (rooted place) []
    have hrooted := segments_rooted hplace
    rw [segments, String.toList_ofList] at hrooted
    rw [Path.written_true hne, segments, String.toList_ofList, hpieces, List.filter_append,
      List.map_append, hrooted]
    exact List.append_nil _
  · have hsame : written place slash = written place false := by
      rw [Path.written_false, written, if_neg hslash, List.append_nil]
    rw [hsame, Path.written_false, segments_rooted hplace]

namespace Path

theorem walk_written (hplace : ∀ n ∈ place, IsPlain n) (slash : Bool) :
    walk [] (written place slash) = place := by
  rw [← normalSegments_eq_walk (isAbsoluteChars_written place slash), normalSegments_written hplace]

/-- An absolute path that is normalized is written for its place. -/
theorem exists_written {path : String} (h : isAbsolute path = true) (hnormal : normalize path = path) :
    ∃ place slash, (∀ n ∈ place, IsPlain n) ∧ path = written place slash :=
  ⟨walk [] path, endsWithSlash path.toList, plain_walk (List.forall_mem_nil _) path,
    hnormal.symm.trans (normalize_eq_written h)⟩

/-- A slash behind a directory does not matter for what paths lead to from there. -/
theorem resolve_written (hplace : ∀ n ∈ place, IsPlain n) (slash : Bool) (path : String) :
    resolve [written place slash, path] = some (String.ofList (rooted (goOn place path.toList))) := by
  have hwalk := resolve_eq_walk (isAbsoluteChars_written place slash) path
  have hwalk' := resolve_eq_walk (isAbsoluteChars_written place false) path
  rw [walk_written hplace] at hwalk hwalk'
  rw [hwalk, ← hwalk', written_false, resolve_rooted hplace]

end Path

/-- **The target of a link depends on its directory and its text alone**: the link may have any
name there. -/
theorem linkTarget_eq (hplace : ∀ n ∈ place, IsPlain n)
    (hdirectory : Path.dirname source = written place slash) (hname : IsPlain name)
    (text : String) :
    linkTarget source text = linkTarget (String.ofList (rooted (place ++ [name]))) text := by
  have hresolve := Path.resolve_written hplace false text
  rw [linkTarget, linkTarget, hdirectory, Path.dirname_rooted _ hname, ← Path.written_false,
    Path.resolve_written hplace, hresolve, segments_written hplace, segments_written hplace]
  rfl

/-! ## Links to their own directories -/

section

variable (hplace : ∀ n ∈ place, IsPlain n) (hdirectory : Path.dirname source = written place slash)
include hplace hdirectory

/-- The target goes up from the directory to what it shares with the place that the link leads
to, and from there down. -/
theorem exists_linkTarget_written (text : String) :
    ∃ shared up down, place = shared ++ up ∧ goOn place text.toList = shared ++ down ∧
      linkTarget source text = String.ofList (Text.joinWithChar '/' (upAndDown up down)) := by
  have hname : IsPlain ['a'] := by decide
  obtain ⟨shared, up, down, hup, hdown, htarget⟩ :=
    exists_linkTarget (List.forall_mem_nil _) hplace (Path.plain_goOn hplace text.toList) hname rfl
  exact ⟨shared, up, down, hup, hdown, (linkTarget_eq hplace hdirectory hname text).trans htarget⟩

/-- **From its directory the target leads to what the link leads to.** -/
theorem resolve_linkTarget_written (text : String) :
    Path.resolve [Path.dirname source, linkTarget source text] =
      Path.resolve [Path.dirname source, text] := by
  have hname : IsPlain ['a'] := by decide
  have hleads := resolve_linkTarget hplace hname text
  dsimp only at hleads
  rw [Path.dirname_rooted _ hname, ← linkTarget_eq hplace hdirectory hname text,
    ← Path.written_false, Path.resolve_written hplace, Path.resolve_written hplace] at hleads
  rw [hdirectory, Path.resolve_written hplace, Path.resolve_written hplace, hleads]

/-- **The target is empty exactly for a link to its own directory.** -/
theorem linkTarget_eq_empty_iff (text : String) :
    linkTarget source text = "" ↔ goOn place text.toList = place := by
  constructor
  · intro hempty
    obtain ⟨shared, up, down, hup, hdown, htarget⟩ :=
      exists_linkTarget_written hplace hdirectory text
    have hplain : ∀ n ∈ down, IsPlain n := fun n hn =>
      Path.plain_goOn hplace text.toList n (hdown ▸ List.mem_append_right _ hn)
    have hnil : upAndDown up down = [] := by
      by_contra hne
      refine Path.joined_ne_nil hne (Path.isPiece_upAndDown hplain) ?_
      rw [htarget] at hempty
      simpa using hempty
    obtain ⟨hups, hdowns⟩ := List.append_eq_nil_iff.1 hnil
    have hnone : up = [] := List.length_eq_zero_iff.1 ((List.replicate_eq_nil_iff _).1 hups)
    rw [hdown, hup, hnone, hdowns]
  · intro hsame
    rw [linkTarget, hdirectory, Path.resolve_written hplace, hsame, Option.getD_some,
      segments_written hplace, segments_rooted hplace, wayFrom?_self]
    rfl

theorem resolve_eq_directory_iff (text : String) :
    Path.resolve [Path.dirname source, text] = Path.resolve [Path.dirname source] ↔
      goOn place text.toList = place := by
  have habsolute : Path.isAbsolute (Path.dirname source) = true :=
    hdirectory ▸ Path.isAbsoluteChars_written place slash
  rw [Path.resolve_singleton habsolute, hdirectory, Path.resolve_written hplace,
    Path.normalSegments_written hplace, Option.some_inj, String.ofList_inj]
  refine ⟨fun hrooted => ?_, congrArg rooted⟩
  rw [← Path.normalSegments_rooted (Path.plain_goOn hplace text.toList), hrooted,
    Path.normalSegments_rooted hplace]

end

/-! ## Characters -/

namespace Path

variable {c : Char}

theorem mem_of_mem_pieces {path piece : List Char} (hpiece : piece ∈ pieces path) (hc : c ∈ piece) :
    c ∈ path := by
  have hjoined (names : List (List Char)) (hmem : piece ∈ names) :
      c ∈ Text.joinWithChar '/' names := by
    induction names with
    | nil => cases hmem
    | cons first rest ih =>
      cases rest with
      | nil => exact List.mem_singleton.1 hmem ▸ hc
      | cons next rest =>
        rw [Text.joinWithChar, List.mem_append, List.mem_cons]
        obtain rfl | hmem := List.mem_cons.1 hmem
        · exact .inl hc
        · exact .inr (.inr (ih hmem))
  exact joined_pieces path ▸ hjoined (pieces path) hpiece

theorem mem_foldl_keepSegment {absolute : Bool} {kept steps : List (List Char)} {name : List Char}
    (h : name ∈ steps.foldl (keepSegment absolute) kept) : name ∈ kept ∨ name ∈ steps := by
  induction steps generalizing kept with
  | nil => exact .inl h
  | cons piece rest ih =>
    obtain hmem | hmem := ih h
    · have hkeep : name ∈ kept ∨ name = piece := by
        unfold keepSegment at hmem
        split at hmem
        · exact .inl hmem
        split at hmem
        · split at hmem
          · split at hmem
            · exact (List.mem_cons.1 hmem).symm
            · exact .inl (List.mem_cons_of_mem _ hmem)
          · split at hmem
            · cases hmem
            · exact .inr (List.mem_singleton.1 hmem)
        · exact (List.mem_cons.1 hmem).symm
      exact hkeep.imp_right fun heq => List.mem_cons.2 (.inl heq)
    · exact .inr (List.mem_cons_of_mem _ hmem)

/-- The names that a path leads to are names of the directory or pieces of the path. -/
theorem mem_goOn {names : List (List Char)} {path name : List Char} (h : name ∈ goOn names path) :
    name ∈ names ∨ name ∈ pieces path := by
  unfold goOn at h
  split at h
  · rw [normalSegments, List.mem_reverse] at h
    exact .inr ((mem_foldl_keepSegment h).resolve_left List.not_mem_nil)
  · rw [List.mem_reverse] at h
    exact (mem_foldl_keepSegment h).imp_left List.mem_reverse.1

theorem mem_dirname {path : String} (h : c ∈ (dirname path).toList) :
    c ∈ path.toList ∨ c = '.' ∨ c = '/' := by
  rw [← String.ofList_toList (s := path)] at h
  obtain ⟨slashes, hpath⟩ | ⟨directory, name, slashes, hparts⟩ := exists_endsInName path.toList
  · rw [hpath] at h
    cases slashes with
    | zero => exact .inr (.inl (List.mem_singleton.1 h))
    | succ slashes =>
      rw [dirname_replicate] at h
      exact .inr (.inr (List.mem_singleton.1 h))
  · rw [hparts.dirname_eq] at h
    cases directory with
    | none => exact .inr (.inl (List.mem_singleton.1 h))
    | some directory =>
      change c ∈ (if directory = [] then "/" else String.ofList directory).toList at h
      split at h
      · exact .inr (.inr (List.mem_singleton.1 h))
      · rw [String.toList_ofList] at h
        rw [hparts.path_eq, frontOf]
        simp [h]

end Path

/-- The characters of a target are those of the directory and of the text, and those of steps. -/
theorem mem_linkTarget (hplace : ∀ n ∈ place, IsPlain n)
    (hdirectory : Path.dirname source = written place slash) {c : Char}
    (h : c ∈ (linkTarget source text).toList) :
    c ∈ source.toList ∨ c ∈ text.toList ∨ c = '.' ∨ c = '/' := by
  obtain ⟨shared, up, down, hup, hdown, htarget⟩ :=
    exists_linkTarget_written hplace hdirectory text
  rw [htarget, String.toList_ofList] at h
  obtain rfl | ⟨piece, hpiece, hc⟩ := mem_joinWithChar h
  · simp
  obtain hups | hdowns := List.mem_append.1 hpiece
  · rw [List.eq_of_mem_replicate hups] at hc
    simp_all
  obtain hname | hname := Path.mem_goOn (hdown ▸ List.mem_append_right shared hdowns)
  · have hnames : goOn [] (Path.dirname source).toList = place := by
      rw [hdirectory, goOn, if_pos (Path.isAbsoluteChars_written place slash),
        Path.normalSegments_written hplace]
    have hpieces := (Path.mem_goOn (hnames ▸ hname)).resolve_left List.not_mem_nil
    obtain hsource | hsteps := Path.mem_dirname (Path.mem_of_mem_pieces hpieces hc)
    · exact .inl hsource
    · exact .inr (.inr hsteps)
  · exact .inr (.inl (Path.mem_of_mem_pieces hname hc))

/-! ## Links that are made -/

namespace FileTree

/-- The character that no name has. -/
def nul : Char :=
  Char.ofNat 0

theorem link_empty (t : FileTree) (path : String) : t.link path "" = .error .noEntry :=
  rfl

/-- Any other text is a target. -/
theorem link_of_ne_empty {target : String} (hne : target ≠ "") (h : nul ∉ target.toList)
    (t : FileTree) (path : String) : t.link path target = t.create path (.link target) := by
  have hcontains : ¬ target.toList.contains (Char.ofNat 0) = true := by
    rwa [List.contains_iff_mem]
  rw [link, if_neg hcontains, if_neg hne]

/-- **Nothing is delivered for a link with an empty target.** -/
theorem deliverLink_empty (path : String) (t : FileTree) :
    (t.deliverLink path "").failure ≠ none := by
  intro hdone
  have hlink := (andThen_done hdone).2
  rw [link_empty] at hlink
  cases hlink

end FileTree

/-- **A run with a report has recorded no empty target.** -/
theorem RunPlan.target_ne_empty {p : RunPlan} {order : List Nat} {report : Report}
    (h : (p.runIn files order).result = .ok report) {name target : String}
    (hlink : (name, target) ∈ (p.worked files order).bench.output.registry.symlinks) :
    target ≠ "" := by
  rintro rfl
  obtain ⟨-, -, hdelivers, -⟩ := runIn_ok h
  obtain ⟨early, late, -, hdone⟩ :=
    hdelivers (.link (p.assetPath name) "") (List.mem_append_right _ (List.mem_map_of_mem hlink))
  exact FileTree.deliverLink_empty (p.assetPath name) (Parcel.deliverAll early files) hdone

/-- **What is recorded for a link.** A transfer of a link records a target that leads from the
link's directory to what the link leads to. The target is empty exactly if that is the directory
itself. Then no link can be made with it, and else a link can, as far as its text goes. -/
theorem transfer_link (host : Host) (key : String) (o : Output)
    (hentry : files.entry source = .ok (.link text)) (habsolute : Path.isAbsolute source = true)
    (hnormal : Path.normalize (Path.dirname source) = Path.dirname source) :
    (transfer files host source key o).failure = none ∧
    ∃ target path, (transfer files host source key o).output.registry.symlink? key = some target ∧
      Path.resolve [Path.dirname source, text] = some path ∧
      Path.resolve [Path.dirname source, target] = some path ∧
      (target = "" ↔ some path = Path.resolve [Path.dirname source]) ∧
      (target = "" → ∀ place t, (FileTree.deliverLink place target t).failure ≠ none) ∧
      (target ≠ "" → FileTree.nul ∉ source.toList → FileTree.nul ∉ text.toList →
        ∀ place t, FileTree.link t place target = t.create place (.link target)) := by
  obtain ⟨place, slash, hplace, hwritten⟩ :=
    Path.exists_written (Path.isAbsolute_dirname habsolute) hnormal
  have htransfer : transfer files host source key o =
      ⟨{ o with registry := o.registry.recordSymlink key (linkTarget source text) }, none⟩ := by
    rw [transfer, hentry]
  rw [htransfer]
  have hresolve := Path.resolve_written hplace slash text
  rw [← hwritten] at hresolve
  refine ⟨rfl, linkTarget source text, _,
    (Registry.symlink?_recordSymlink o.registry key _ key).trans (if_pos rfl), hresolve,
    (resolve_linkTarget_written hplace hwritten text).trans hresolve, ?_, ?_, ?_⟩
  · rw [linkTarget_eq_empty_iff hplace hwritten, ← resolve_eq_directory_iff hplace hwritten,
      hresolve]
  · intro hempty path t
    rw [hempty]
    exact FileTree.deliverLink_empty path t
  · intro hne hsource htext path t
    refine FileTree.link_of_ne_empty hne (fun hmem => ?_) t path
    obtain h | h | h | h := mem_linkTarget hplace hwritten hmem
    · exact hsource h
    · exact htext h
    · cases h
    · cases h

/-- A directory with a link of a text, and another directory beside it. -/
def linkedFiles (text : String) : FileTree where
  root := .directory
    [("b", .directory [("c", .file ByteArray.empty 0o644)]),
      ("d", .directory [("self", .link text)])]

theorem transfer_link_beside :
    ∃ target path, target ≠ "" ∧
      Path.resolve ["/d", ".././b//c"] = some path ∧ Path.resolve ["/d", target] = some path ∧
      ∀ place t, FileTree.link t place target = t.create place (.link target) := by
  have hentry : (linkedFiles ".././b//c").entry "/d/self" = .ok (.link ".././b//c") := rfl
  obtain ⟨-, target, path, -, htext, htarget, hempty, -, hmade⟩ :=
    transfer_link .open_ "d/self" default hentry (by decide) (by decide)
  have hdirectory : Path.dirname "/d/self" = "/d" := by decide
  rw [hdirectory] at htext htarget hempty
  have hne : target ≠ "" := fun heq =>
    absurd (htext.trans (hempty.1 heq)) (by decide)
  exact ⟨target, path, hne, htext, htarget, hmade hne (by decide) (by decide)⟩

/-- A link to its own directory is recorded with an empty target, and no such link can be made. -/
theorem empty_target_recorded :
    (linkedFiles ".").entry "/d/self" = .ok (.link ".") ∧
      (transfer (linkedFiles ".") .open_ "/d/self" "d/self" default).output.registry.symlink?
        "d/self" = some "" ∧
      ∀ place t, FileTree.link t place "" = .error .noEntry :=
  ⟨rfl, by decide, fun _ _ => rfl⟩

end ModuleAssets
