import ModuleAssets.Command.Delivery
import ModuleAssets.Proofs.Files.Staying
/-!
# Deliveries — what they put down, and what they leave alone

A delivery puts a file or a link where its path leads, once the directory around it is
there. Whatever stood at any other place stands there after it, and no directory goes
(`Stays`). Where it succeeds, its path leads to what it delivered.
-/

namespace ModuleAssets.FileTree

variable {t t' t'' : FileTree} {n old : Node} {place around : List String} {name path : String}
  {places more : List (List String)} {follow : Bool}

/-- The place where a path arrives, whether something is there or not. -/
def placeOf? (t : FileTree) (follow : Bool) (path : String) : Option (List String) :=
  match Arrival.ofPath t.root follow path with
  | .ok a => some a.place
  | .error _ => none

theorem placeOf?_eq {a : Arrival} (h : Arrival.ofPath t.root follow path = .ok a) :
    t.placeOf? follow path = some a.place := by
  rw [placeOf?, h]

/-- What was somewhere is still there, other than at some places, where only directories
have to be. -/
structure Stays (places : List (List String)) (t t' : FileTree) : Prop where
  others : ∀ {place n}, place ∉ places → t.root.look place = some n →
    t'.root.look place = some n
  directories : ∀ {place}, t.root.look place = some (.directory []) →
    t'.root.look place = some (.directory [])

namespace Stays

theorem refl (t : FileTree) : Stays [] t t :=
  ⟨fun _ h => h, fun h => h⟩

theorem trans (h : Stays places t t') (h' : Stays more t' t'') : Stays (places ++ more) t t'' := by
  refine ⟨fun hplace hlook => ?_, fun hlook => h'.directories (h.directories hlook)⟩
  rw [List.mem_append, not_or] at hplace
  exact h'.others hplace.2 (h.others hplace.1 hlook)

theorem mono (h : Stays places t t') (hmore : places ⊆ more) : Stays more t t' :=
  ⟨fun hplace => h.others fun hmem => hplace (hmore hmem), h.directories⟩

/-- If links stay too, all paths go on to lead where they led. -/
theorem keeps (h : Stays places t t')
    (hlinks : ∀ place ∈ places, ∀ text, t.root.look place = some (.link text) →
      t'.root.look place = some (.link text)) : Arrival.Keeps t.root t'.root := by
  refine ⟨fun place => h.directories, fun place text hlook => ?_⟩
  by_cases hplace : place ∈ places
  · exact hlinks place hplace text hlook
  · exact h.others hplace hlook

end Stays

/-! ## Single changes -/

/-- Something new harms nothing. -/
theorem stays_put (hgap : Arrival.IsGap t.root around name) (hn : n.face = n) :
    Stays [] t (t.put around name n) := by
  obtain ⟨entries, haround, hchild⟩ := hgap
  have hlook := look_put haround
    (fun old hold => absurd (hchild.symm.trans hold) (Option.some_ne_none old).symm) hn
  have hnone : t.root.look (around ++ [name]) = none := by
    rw [Node.look_eq_none, Node.at?_below haround, Node.at?, hchild, Option.bind_none]
  have hstays {place : List String} {n' : Node} (h : t.root.look place = some n') :
      (t.put around name n).root.look place = some n' := by
    rw [hlook, if_neg]
    · exact h
    · rintro rfl
      cases hnone.symm.trans h
  exact ⟨fun _ => hstays, hstays⟩

/-- Nothing is changed but at one place, where no directory was. -/
theorem stays_of_look {new? : Option Node} (hat : t.root.at? place = some old)
    (hold : ∀ entries, old ≠ .directory entries)
    (hlook : ∀ other, t'.root.look other = if other = place then new? else t.root.look other) :
    Stays [place] t t' := by
  refine ⟨fun hother h => ?_, fun {other} h => ?_⟩
  · rw [hlook, if_neg fun heq => hother (List.mem_singleton.2 heq)]
    exact h
  · rw [hlook, if_neg]
    · exact h
    · rintro rfl
      obtain ⟨entries, hentries⟩ := Node.look_eq_directory.1 h
      exact hold entries (Option.some.inj (hat.symm.trans hentries))

theorem stays_putAt (hat : t.root.at? place = some old) (hold : ∀ entries, old ≠ .directory entries)
    (hn : n.face = n) : Stays [place] t (t.putAt place n) := by
  obtain rfl | ⟨around, name, rfl⟩ := List.eq_nil_or_concat' place
  · exact (Stays.refl t).mono (List.nil_subset _)
  · exact stays_of_look hat hold (look_putAt hat (Node.face_eq_self hold) hn)

theorem stays_dropAt (hat : t.root.at? place = some old)
    (hold : ∀ entries, old ≠ .directory entries) : Stays [place] t (t.dropAt place) := by
  obtain rfl | ⟨around, name, rfl⟩ := List.eq_nil_or_concat' place
  · exact (Stays.refl t).mono (List.nil_subset _)
  · exact stays_of_look hat hold (look_dropAt hat (Node.face_eq_self hold))

theorem stays_create (h : t.create path n = .ok t') (hn : n.face = n) : Stays [] t t' := by
  unfold create at h
  split at h
  · cases h
  · cases h
  · rename_i around name harrival
    obtain rfl := Except.ok.inj h
    exact stays_put (Arrival.isGap_of_ofPath harrival) hn

theorem stays_createDirectories {names : List String}
    (h : t.createDirectories names = .ok t') : Stays [] t t' := by
  induction names generalizing t t' with
  | nil =>
    obtain rfl := Except.ok.inj h
    exact .refl t
  | cons name parents ih =>
    unfold createDirectories at h
    dsimp only at h
    split at h
    · -- the directory around it is made before
      split at h
      · rename_i between hparents
        have hbefore := ih hparents
        split at h
        · split at h
          · obtain rfl := Except.ok.inj h
            exact hbefore
          · cases h
        · rename_i hcreate
          obtain rfl := Except.ok.inj h
          exact hbefore.trans (stays_create hcreate rfl)
      · cases h
    · split at h
      · split at h
        · obtain rfl := Except.ok.inj h
          exact .refl t
        · cases h
      · rename_i hcreate
        obtain rfl := Except.ok.inj h
        exact stays_create hcreate rfl

theorem stays_createDirectory (h : t.createDirectory path = .ok t') : Stays [] t t' := by
  unfold createDirectory at h
  split at h
  · cases h
  · exact stays_createDirectories h

theorem stays_link {target : String} (h : t.link path target = .ok t') : Stays [] t t' := by
  unfold link at h
  split at h
  · cases h
  · split at h
    · cases h
    · exact stays_create h rfl

theorem stays_remove (h : t.remove path = .ok t') :
    Stays (t.placeOf? false path).toList t t' := by
  unfold remove at h
  split at h
  · cases h
  · cases h
  · rename_i place harrival
    obtain ⟨n, hat⟩ := Arrival.stands_of_ofPath harrival
    rw [placeOf?_eq harrival]
    rw [hat] at h
    cases n with
    | file content mode =>
      obtain rfl := Except.ok.inj h
      exact stays_dropAt hat fun _ => nofun
    | link text =>
      obtain rfl := Except.ok.inj h
      exact stays_dropAt hat fun _ => nofun
    | directory entries => cases h

theorem stays_write {content : ByteArray} (h : t.write path content = .ok t') :
    Stays (t.placeOf? true path).toList t t' := by
  unfold write at h
  split at h
  · cases h
  · rename_i around name harrival
    obtain rfl := Except.ok.inj h
    exact (stays_put (Arrival.isGap_of_ofPath harrival) rfl).mono (List.nil_subset _)
  · rename_i place harrival
    rw [placeOf?_eq harrival]
    split at h
    · rename_i hat
      obtain rfl := Except.ok.inj h
      exact stays_putAt hat (fun _ => nofun) rfl
    · cases h

theorem stays_setMode {mode : Nat} (h : t.setMode path mode = .ok t') :
    Stays (t.placeOf? true path).toList t t' := by
  unfold setMode at h
  split at h
  · cases h
  · cases h
  · rename_i place harrival
    rw [placeOf?_eq harrival]
    split at h
    · rename_i hat
      obtain rfl := Except.ok.inj h
      exact stays_putAt hat (fun _ => nofun) rfl
    · obtain rfl := Except.ok.inj h
      exact (Stays.refl t).mono (List.nil_subset _)

/-- A file that is touched is new, or it is not changed. -/
theorem stays_touch (h : t.touch path = .ok t') : Stays [] t t' := by
  unfold touch at h
  split at h
  · obtain rfl := Except.ok.inj h
    exact .refl t
  · rename_i e hread
    unfold write at h
    split at h
    · cases h
    · rename_i around name harrival
      obtain rfl := Except.ok.inj h
      exact stays_put (Arrival.isGap_of_ofPath harrival) rfl
    · rename_i place harrival
      split at h
      · rename_i content mode hat
        have hfile : t.read path = .ok content := by
          rw [read, target, node, harrival]
          dsimp only
          rw [hat]
        cases hread.symm.trans hfile
      · cases h

/-- What was missing is missing after something else was taken away. -/
theorem isGap_dropAt (hat : t.root.at? place = some old)
    (hold : ∀ entries, old ≠ .directory entries) (hgap : Arrival.IsGap t.root around name) :
    Arrival.IsGap (t.dropAt place).root around name := by
  have hstays := stays_dropAt hat hold
  obtain ⟨entries, haround, hchild⟩ := hgap
  refine Arrival.isGap_of_look
    (hstays.directories (Node.look_eq_directory.2 ⟨entries, haround⟩)) ?_
  have hnone : t.root.look (around ++ [name]) = none := by
    rw [Node.look_eq_none, Node.at?_below haround, Node.at?, hchild, Option.bind_none]
  obtain rfl | ⟨outer, last, rfl⟩ := List.eq_nil_or_concat' place
  · exact hnone
  · rw [look_dropAt hat (Node.face_eq_self hold), hnone, ite_self]

/-- What is taken away leaves a gap. -/
theorem isGap_dropAt_self (hat : t.root.at? (around ++ [name]) = some old)
    (hold : ∀ entries, old ≠ .directory entries) :
    Arrival.IsGap (t.dropAt (around ++ [name])).root around name := by
  obtain ⟨entries, haround, -⟩ := Node.exists_directory_of_at? hat
  refine Arrival.isGap_of_look
    ((stays_dropAt hat hold).directories (Node.look_eq_directory.2 ⟨entries, haround⟩)) ?_
  rw [look_dropAt hat (Node.face_eq_self hold), if_pos rfl]

/-- A file that gets another path leaves one place and comes to another. -/
theorem stays_rename {newPath : String} (h : t.rename path newPath = .ok t')
    (hfile : ∀ entries, t.entry path ≠ .ok (.directory entries)) :
    Stays ((t.placeOf? false path).toList ++ (t.placeOf? false newPath).toList) t t' := by
  unfold rename at h
  split at h
  · rename_i place arrival harrival hnew
    obtain ⟨n, hat⟩ := Arrival.stands_of_ofPath harrival
    have hentry : t.entry path = .ok n := by
      rw [entry, node, harrival]
      dsimp only
      rw [hat]
    have hn : ∀ entries, n ≠ .directory entries :=
      fun entries heq => hfile entries (heq ▸ hentry)
    have hbare := Node.face_eq_self hn
    have hdrop := stays_dropAt hat hn
    rw [placeOf?_eq harrival, placeOf?_eq hnew]
    rw [hat] at h
    cases arrival with
    | missing around name =>
      obtain rfl := Except.ok.inj h
      have hgap := isGap_dropAt hat hn (Arrival.isGap_of_ofPath hnew)
      exact hdrop.trans ((stays_put hgap hbare).mono (List.nil_subset _))
    | found newPlace =>
      obtain ⟨m, hm⟩ := Arrival.stands_of_ofPath hnew
      dsimp only at h
      rw [hm] at h
      split at h
      · cases h
      · rename_i hplain
        obtain rfl := Except.ok.inj h
        refine hdrop.trans ?_
        have hm' : ∀ entries, m ≠ .directory entries := by
          rintro entries rfl
          exact hplain rfl
        by_cases hsame : newPlace = place
        · subst hsame
          obtain rfl | ⟨around, name, rfl⟩ := List.eq_nil_or_concat' newPlace
          · exact (Stays.refl _).mono (List.nil_subset _)
          · rw [putAt, List.getLast?_concat, List.dropLast_concat]
            exact (stays_put (isGap_dropAt_self hat hn) hbare).mono (List.nil_subset _)
        · have hlook := hdrop.others (fun hmem => hsame (List.mem_singleton.1 hmem))
            ((Node.look_eq_leaf hm').2 hm)
          exact stays_putAt ((Node.look_eq_leaf hm').1 hlook) hm' hbare
  · cases h
  · cases h
  · cases h

/-! ## Where changes arrive -/

/-- **What is put where a path leads is found there**, if directories and links stay. -/
theorem arrives (hkeeps : Arrival.Keeps t.root t'.root) {a : Arrival}
    (h : Arrival.ofPath t.root follow path = .ok a) (hlook : t'.root.look a.place = some n)
    (hlink : follow = true → ¬n.IsLink) :
    Arrival.ofPath t'.root follow path = .ok (.found a.place) :=
  Arrival.ofPath_arrives hkeeps h ⟨n, hlook, hlink⟩

/-- A file in place of another. -/
theorem putAt_arrives {content content' : ByteArray} {mode mode' : Nat}
    (h : Arrival.ofPath t.root true path = .ok (.found place))
    (hat : t.root.at? place = some (.file content mode)) :
    Arrival.ofPath (t.putAt place (.file content' mode')).root true path = .ok (.found place) ∧
      (t.putAt place (.file content' mode')).root.at? place = some (.file content' mode') := by
  have hstays := stays_putAt (n := .file content' mode') hat (fun _ => nofun) rfl
  have hkeeps := hstays.keeps fun other hother text hlook => by
    rw [List.mem_singleton.1 hother, Node.look_eq_link, hat] at hlook
    cases hlook
  have hlook : (t.putAt place (.file content' mode')).root.look place =
      some (.file content' mode') := by
    obtain rfl | ⟨around, name, rfl⟩ := List.eq_nil_or_concat' place
    · obtain ⟨entries, hroot⟩ := Arrival.root_of_ofPath h
      rw [hroot] at hat
      cases hat
    · rw [look_putAt hat rfl rfl, if_pos rfl]
  exact ⟨arrives hkeeps h hlook fun _ => nofun, Node.look_eq_file.1 hlook⟩

/-- Something new is where its path leads. -/
theorem put_arrives (h : Arrival.ofPath t.root follow path = .ok (.missing around name))
    (hn : n.face = n) (hlink : follow = true → ¬n.IsLink) :
    Arrival.ofPath (t.put around name n).root follow path = .ok (.found (around ++ [name])) ∧
      (t.put around name n).root.look (around ++ [name]) = some n := by
  have hgap := Arrival.isGap_of_ofPath h
  have hkeeps := (stays_put hgap hn).keeps fun _ hmem => absurd hmem List.not_mem_nil
  obtain ⟨entries, haround, hchild⟩ := hgap
  have hlook : (t.put around name n).root.look (around ++ [name]) = some n := by
    rw [look_put haround (fun old hold => nomatch hchild.symm.trans hold) hn, if_pos rfl]
  exact ⟨arrives hkeeps h hlook hlink, hlook⟩

/-- **A file that is written is where its path leads.** -/
theorem write_arrives {content : ByteArray} (h : t.write path content = .ok t') :
    ∃ place mode, t.placeOf? true path = some place ∧
      Arrival.ofPath t'.root true path = .ok (.found place) ∧
      t'.root.at? place = some (.file content mode) := by
  unfold write at h
  split at h
  · cases h
  · rename_i around name harrival
    obtain rfl := Except.ok.inj h
    obtain ⟨hpath, hlook⟩ := put_arrives harrival
      (n := .file content Node.newFileMode) rfl fun _ => nofun
    exact ⟨_, _, placeOf?_eq harrival, hpath, Node.look_eq_file.1 hlook⟩
  · rename_i place harrival
    split at h
    · rename_i hat
      obtain rfl := Except.ok.inj h
      obtain ⟨hpath, hfile⟩ := putAt_arrives harrival hat
      exact ⟨place, _, placeOf?_eq harrival, hpath, hfile⟩
    · cases h

/-- **A link that is made is where its path leads.** -/
theorem link_arrives {target : String} (h : t.link path target = .ok t') :
    ∃ place, Arrival.ofPath t'.root false path = .ok (.found place) ∧
      t'.root.at? place = some (.link target) := by
  unfold link create at h
  split at h
  · cases h
  · split at h
    · cases h
    · split at h
      · cases h
      · cases h
      · rename_i around name harrival
        obtain rfl := Except.ok.inj h
        obtain ⟨hpath, hlook⟩ := put_arrives harrival (n := .link target) rfl nofun
        exact ⟨_, hpath, Node.look_eq_link.1 hlook⟩

/-- Setting the mode of a file. -/
theorem setMode_arrives {content : ByteArray} {mode newMode : Nat}
    (h : Arrival.ofPath t.root true path = .ok (.found place))
    (hat : t.root.at? place = some (.file content mode))
    (hset : t.setMode path newMode = .ok t') :
    Arrival.ofPath t'.root true path = .ok (.found place) ∧
      t'.root.at? place = some (.file content (newMode % 0o10000)) := by
  unfold setMode at hset
  rw [h] at hset
  dsimp only at hset
  rw [hat] at hset
  obtain rfl := Except.ok.inj hset
  exact putAt_arrives h hat

/-! ## Deliveries -/

theorem stays_ofChange {changed : Except FileError FileTree}
    (h : ∀ t', changed = .ok t' → Stays places t t') :
    Stays places t (Delivered.ofChange t path changed).files := by
  cases changed with
  | error e => exact (Stays.refl t).mono (List.nil_subset _)
  | ok t' => exact h t' rfl

theorem stays_makeParent (path : String) (t : FileTree) : Stays [] t (t.makeParent path).files := by
  unfold makeParent
  split
  · exact stays_ofChange fun _ => stays_createDirectory
  · exact .refl t

theorem stays_andThen {done : Delivered} {next : FileTree → Delivered}
    (h : Stays places t done.files)
    (hnext : done.failure = none → Stays more done.files (next done.files).files) :
    Stays (places ++ more) t (done.andThen next).files := by
  unfold Delivered.andThen
  split
  · rename_i hdone
    exact h.trans (hnext hdone)
  · exact h.mono (List.subset_append_left _ _)

theorem stays_deliverFile (path : String) (content : ByteArray) (t : FileTree) :
    Stays ((t.makeParent path).files.placeOf? true path).toList t
      (t.deliverFile path content).files :=
  stays_andThen (stays_makeParent path t) fun _ => stays_ofChange fun _ => stays_write

theorem andThen_done {done : Delivered} {next : FileTree → Delivered}
    (h : (done.andThen next).failure = none) :
    done.failure = none ∧ (next done.files).failure = none := by
  unfold Delivered.andThen at h
  split at h
  · rename_i hdone
    exact ⟨hdone, h⟩
  · rename_i e hdone
    cases hdone.symm.trans h

theorem files_andThen {done : Delivered} {next : FileTree → Delivered}
    (h : done.failure = none) : (done.andThen next).files = (next done.files).files := by
  rw [Delivered.andThen, h]

theorem ofChange_ok {changed : Except FileError FileTree}
    (h : (Delivered.ofChange t path changed).failure = none) :
    changed = .ok (Delivered.ofChange t path changed).files := by
  cases changed with
  | error e => cases h
  | ok t'' => rfl

/-- **A file that is delivered is where its path leads.** -/
theorem deliverFile_arrives {content : ByteArray}
    (h : (t.deliverFile path content).failure = none) :
    ∃ place mode, (t.makeParent path).files.placeOf? true path = some place ∧
      Arrival.ofPath (t.deliverFile path content).files.root true path = .ok (.found place) ∧
      (t.deliverFile path content).files.root.at? place = some (.file content mode) := by
  obtain ⟨hparent, hwrite⟩ := andThen_done h
  rw [deliverFile, files_andThen hparent]
  exact write_arrives (ofChange_ok hwrite)

theorem stays_deliverAsset (path : String) (content : ByteArray) (mode : Option Nat)
    (t : FileTree) :
    Stays ((t.makeParent path).files.placeOf? true path).toList t
      (t.deliverAsset path content mode).files := by
  have hfile := stays_deliverFile path content t
  cases hdone : (t.deliverFile path content).failure with
  | some e =>
    rw [deliverAsset, Delivered.andThen, hdone]
    exact hfile
  | none =>
    obtain ⟨place, _, hplace, harrival, -⟩ := deliverFile_arrives hdone
    rw [deliverAsset, files_andThen hdone]
    cases mode with
    | none => exact hfile
    | some mode =>
      -- the mode is set where the file was written
      have hmode (t : FileTree) : Stays (t.placeOf? true path).toList t
          (Delivered.ofChange t path (t.setMode path mode)).files :=
        stays_ofChange fun _ => stays_setMode
      have hmode := hmode (t.deliverFile path content).files
      rw [placeOf?_eq harrival] at hmode
      rw [hplace] at hfile ⊢
      exact (hfile.trans hmode).mono (by simp [Arrival.place])

/-- **An asset that is delivered is where its path leads**, with the mode that is known. -/
theorem deliverAsset_arrives {content : ByteArray} {mode : Option Nat}
    (h : (t.deliverAsset path content mode).failure = none) :
    ∃ place bits,
      Arrival.ofPath (t.deliverAsset path content mode).files.root true path =
        .ok (.found place) ∧
      (t.deliverAsset path content mode).files.root.at? place = some (.file content bits) ∧
      ∀ m, mode = some m → bits = m % 0o10000 := by
  obtain ⟨hfile, hmode⟩ := andThen_done h
  obtain ⟨place, bits, -, harrival, hat⟩ := deliverFile_arrives hfile
  rw [deliverAsset, files_andThen hfile]
  cases mode with
  | none => exact ⟨place, bits, harrival, hat, fun _ => nofun⟩
  | some mode =>
    obtain ⟨harrival', hat'⟩ := setMode_arrives harrival hat (ofChange_ok hmode)
    refine ⟨place, _, harrival', hat', fun m hm => ?_⟩
    rw [Option.some.inj hm]

theorem stays_deliverLink (path target : String) (t : FileTree) :
    Stays ((t.makeParent path).files.placeOf? false path).toList t
      (t.deliverLink path target).files := by
  have hclear (t : FileTree) : Stays (t.placeOf? false path).toList t (t.clear path).files := by
    unfold clear
    split
    · exact stays_ofChange fun _ => stays_remove
    · exact (Stays.refl t).mono (List.nil_subset _)
  have hplace := stays_andThen (stays_makeParent path t) fun _ =>
    hclear (t.makeParent path).files
  exact (stays_andThen hplace fun _ => stays_ofChange fun _ => stays_link).mono
    (List.append_nil _ ▸ List.Subset.refl _)

/-- **A link that is delivered is where its path leads.** -/
theorem deliverLink_arrives {target : String} (h : (t.deliverLink path target).failure = none) :
    ∃ place, Arrival.ofPath (t.deliverLink path target).files.root false path =
        .ok (.found place) ∧
      (t.deliverLink path target).files.root.at? place = some (.link target) := by
  obtain ⟨hbefore, hlink⟩ := andThen_done h
  rw [deliverLink, files_andThen hbefore]
  exact link_arrives (ofChange_ok hlink)

/-! ## Files that stay files -/

/-- Directories and links stay, and files stay files. -/
structure Evolves (t t' : FileTree) : Prop where
  keeps : Arrival.Keeps t.root t'.root
  files : ∀ {place content mode}, t.root.at? place = some (.file content mode) →
    ∃ content' mode', t'.root.at? place = some (.file content' mode')

namespace Evolves

/-- What changes no place does no harm. -/
theorem of_stays (h : Stays [] t t') : Evolves t t' :=
  ⟨h.keeps fun _ hmem => absurd hmem List.not_mem_nil, fun hat =>
    ⟨_, _, Node.look_eq_file.1 (h.others List.not_mem_nil (Node.look_eq_file.2 hat))⟩⟩

theorem trans (h : Evolves t t') (h' : Evolves t' t'') : Evolves t t'' where
  keeps := ⟨fun place hlook => h'.keeps.directories place (h.keeps.directories place hlook),
    fun place text hlook => h'.keeps.links place text (h.keeps.links place text hlook)⟩
  files hat := by
    obtain ⟨content, mode, hat'⟩ := h.files hat
    exact h'.files hat'

/-- **A file goes on to be found** at its place. -/
theorem ofPath_file (h : Evolves t t') {content : ByteArray} {mode : Nat}
    (harrival : Arrival.ofPath t.root follow path = .ok (.found place))
    (hat : t.root.at? place = some (.file content mode)) :
    Arrival.ofPath t'.root follow path = .ok (.found place) := by
  obtain ⟨content', mode', hat'⟩ := h.files hat
  exact arrives h.keeps harrival (Node.look_eq_file.2 hat') fun _ =>
    Node.not_isLink_file content' mode'

/-- **A file that is read** can be looked up later. -/
theorem exists_target (h : Evolves t t') {content : ByteArray} {mode : Nat}
    (hfile : t.target path = .ok (.file content mode)) :
    ∃ content' mode', t'.target path = .ok (.file content' mode') := by
  obtain ⟨place, harrival, hat⟩ := node_eq_ok_iff.1 hfile
  obtain ⟨content', mode', hat'⟩ := h.files hat
  exact ⟨content', mode', node_eq_ok_iff.2 ⟨place, h.ofPath_file harrival hat, hat'⟩⟩

/-- A path of a link goes on to be one. -/
theorem entry_link (h : Evolves t t') {text : String} (hlink : t.entry path = .ok (.link text)) :
    t'.entry path = .ok (.link text) := by
  obtain ⟨place, harrival, hat⟩ := node_eq_ok_iff.1 hlink
  have hlook := h.keeps.links place text (Node.look_eq_link.2 hat)
  have harrival' := arrives h.keeps harrival hlook fun hfollow => nomatch hfollow
  exact node_eq_ok_iff.2 ⟨place, harrival', Node.look_eq_link.1 hlook⟩

end Evolves

theorem evolves_write {content : ByteArray} (h : t.write path content = .ok t') :
    Evolves t t' := by
  unfold write at h
  split at h
  · cases h
  · rename_i around name harrival
    obtain rfl := Except.ok.inj h
    exact .of_stays (stays_put (Arrival.isGap_of_ofPath harrival) rfl)
  · rename_i place harrival
    split at h
    · rename_i old mode hat
      obtain rfl := Except.ok.inj h
      have hstays := stays_putAt (n := .file content mode) hat (fun _ => nofun) rfl
      have hat' : (t.putAt place (.file content mode)).root.at? place =
          some (.file content mode) := (putAt_arrives harrival hat).2
      refine ⟨hstays.keeps fun other hother text hlook => ?_, fun {other _ _} hother => ?_⟩
      · rw [List.mem_singleton.1 hother, Node.look_eq_link, hat] at hlook
        cases hlook
      · by_cases hplace : other = place
        · exact ⟨content, mode, hplace ▸ hat'⟩
        · exact ⟨_, _, Node.look_eq_file.1 (hstays.others
            (fun hmem => hplace (List.mem_singleton.1 hmem)) (Node.look_eq_file.2 hother))⟩
    · cases h

/-- What a file that is delivered changes when the directory around it is there. -/
theorem evolves_makeParent_deliverFile (path : String) (content : ByteArray) (t : FileTree) :
    Evolves (t.makeParent path).files (t.deliverFile path content).files := by
  unfold deliverFile Delivered.andThen
  split
  · dsimp only
    cases hwrite : (t.makeParent path).files.write path content with
    | error e => exact .of_stays (.refl _)
    | ok t' => exact evolves_write hwrite
  · exact .of_stays (.refl _)

/-- **A file that is delivered** leaves all files where they were. -/
theorem evolves_deliverFile (path : String) (content : ByteArray) (t : FileTree) :
    Evolves t (t.deliverFile path content).files :=
  (Evolves.of_stays (stays_makeParent path t)).trans
    (evolves_makeParent_deliverFile path content t)

end ModuleAssets.FileTree
