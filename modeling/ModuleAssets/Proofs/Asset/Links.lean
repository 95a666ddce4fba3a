import ModuleAssets.Asset.Transfer
import ModuleAssets.Proofs.Path.Rooted
/-!
# Links — the targets that are recorded for them

A link is recorded with its target as seen from the link's own directory. From there the
recorded target leads to what the link leads to (`resolve_linkTarget`). From the key of
the link it leads to the key of the same file, if both lie below one directory and have
kept their places below its key (`linkedKey_linkTarget`).
-/

namespace ModuleAssets

open ModuleAssets.Path (IsPiece IsPlain rooted goOn upAndDown)

/-- The key that the target of a link denotes, from the directory of the link's key. -/
def linkedKey (key target : String) : String :=
  Path.join [Path.dirname key, target]

/-! ## The way between two directories -/

/-- **The way goes up from what the two do not share, and then down.** -/
theorem wayFrom?_eq {start : List String} (h : ".." ∉ start) (target : List String) :
    ∃ shared up down, start = shared ++ up ∧ target = shared ++ down ∧
      wayFrom? start target = some (up.map (fun _ => "..") ++ down) := by
  induction start generalizing target with
  | nil => exact ⟨[], [], target, rfl, rfl, rfl⟩
  | cons base rest ih =>
    obtain ⟨hbase, hrest⟩ := not_or.1 (List.mem_cons.not.1 h)
    cases target with
    | nil => exact ⟨[], base :: rest, [], rfl, rfl, by rw [wayFrom?]; simp⟩
    | cons name names =>
      rw [wayFrom?]
      by_cases hshared : base = name
      · obtain ⟨shared, up, down, rfl, rfl, hway⟩ := ih hrest names
        rw [if_pos hshared, hway]
        exact ⟨base :: shared, up, down, rfl, hshared ▸ rfl, rfl⟩
      · rw [if_neg hshared, if_neg (Ne.symm hbase)]
        exact ⟨[], base :: rest, name :: names, rfl, rfl, rfl⟩

/-- The way from a directory below another one is the same without that other one. -/
theorem wayFrom?_append (root start target : List String) :
    wayFrom? (root ++ start) (root ++ target) = wayFrom? start target := by
  induction root with
  | nil => rfl
  | cons name rest ih => rw [List.cons_append, List.cons_append, wayFrom?, if_pos rfl, ih]

theorem segments_rooted {names : List (List Char)} (h : ∀ n ∈ names, IsPlain n) :
    segments (String.ofList (rooted names)) = names.map String.ofList := by
  have hpieces : Text.splitAtChar '/' (rooted names) = Path.pieces (rooted names) := rfl
  have hplain : names.filter (fun s => s ≠ [] ∧ s ≠ ['.']) = names :=
    List.filter_eq_self.2 fun n hn => decide_eq_true ⟨(h n hn).1, (h n hn).2.1⟩
  rw [segments, String.toList_ofList, hpieces, Path.pieces_rooted h]
  split
  · rename_i hnil
    rw [hnil]
    rfl
  · rw [List.filter_cons_of_neg (by decide), hplain]

/-! ## Targets -/

section

variable {root names place : List (List Char)} {name : List Char} {text : String}

/-- **The target of a link** goes up from the link's directory to what it shares with the
place that the link leads to, and from there down. What both lie below does not matter. -/
theorem exists_linkTarget (hroot : ∀ n ∈ root, IsPlain n) (hnames : ∀ n ∈ names, IsPlain n)
    (hplace : ∀ n ∈ place, IsPlain n) (hname : IsPlain name)
    (htext : goOn (root ++ names) text.toList = root ++ place) :
    ∃ shared up down, names = shared ++ up ∧ place = shared ++ down ∧
      linkTarget (String.ofList (rooted (root ++ names ++ [name]))) text =
        String.ofList (Text.joinWithChar '/' (upAndDown up down)) := by
  have hdots : ".." ∉ names.map String.ofList := by
    intro hmem
    obtain ⟨n, hn, heq⟩ := List.mem_map.1 hmem
    exact (hnames n hn).2.2.1 (String.ofList_inj.1 heq)
  have hbelow : ∀ n ∈ root ++ names, IsPlain n := List.forall_mem_append.2 ⟨hroot, hnames⟩
  have hbelow' : ∀ n ∈ root ++ place, IsPlain n := List.forall_mem_append.2 ⟨hroot, hplace⟩
  obtain ⟨shared, up, down, hstart, htarget, hway⟩ := wayFrom?_eq hdots (place.map String.ofList)
  have hwayBelow : wayFrom? ((root ++ names).map String.ofList)
      ((root ++ place).map String.ofList) = some (up.map (fun _ => "..") ++ down) := by
    rw [List.map_append, List.map_append, wayFrom?_append, hway]
  obtain ⟨shared, up, rfl, rfl, rfl⟩ := List.map_eq_append_iff.1 hstart
  obtain ⟨shared', down, rfl, hshared, rfl⟩ := List.map_eq_append_iff.1 htarget
  obtain rfl := List.map_injective_iff.2 (fun _ _ => String.ofList_inj.1) hshared
  refine ⟨shared', up, down, rfl, rfl, ?_⟩
  rw [linkTarget, Path.dirname_rooted _ hname, Path.resolve_rooted hbelow, htext, Option.getD_some,
    segments_rooted hbelow, segments_rooted hbelow', hwayBelow]
  have hups : ((up.map String.ofList).map fun _ => "..").map String.toList =
      List.replicate up.length ['.', '.'] := by
    simp [Function.comp_def]
  have hdowns : (down.map String.ofList).map String.toList = down := by simp
  dsimp only
  rw [List.map_append, hups, hdowns, upAndDown]

/-- **From the directory of a link its recorded target leads to what the link leads
to.** -/
theorem resolve_linkTarget (hnames : ∀ n ∈ names, IsPlain n) (hname : IsPlain name)
    (text : String) :
    let path := String.ofList (rooted (names ++ [name]))
    Path.resolve [Path.dirname path, linkTarget path text] =
      Path.resolve [Path.dirname path, text] := by
  intro path
  have hplace : ∀ n ∈ goOn names text.toList, IsPlain n := Path.plain_goOn hnames _
  obtain ⟨shared, up, down, hup, hdown, htarget⟩ :=
    exists_linkTarget (List.forall_mem_nil _) hnames hplace hname rfl
  have hplain : ∀ n ∈ up, IsPlain n := fun n hn => hnames n (hup ▸ List.mem_append_right _ hn)
  have hplain' : ∀ n ∈ down, IsPlain n := fun n hn => hplace n (hdown ▸ List.mem_append_right _ hn)
  have hpath : Path.dirname path = String.ofList (rooted names) := Path.dirname_rooted names hname
  have hsteps : (upAndDown up down).foldl (Path.keepSegment true) names.reverse =
      (goOn names text.toList).reverse := by
    have hfold := Path.foldl_upAndDown shared hplain hplain' true []
    rwa [List.append_nil, List.append_nil, ← hup, ← hdown] at hfold
  rw [List.nil_append] at htarget
  rw [hpath, show linkTarget path text = _ from htarget, Path.resolve_rooted hnames,
    Path.resolve_rooted hnames, String.toList_ofList, Path.goOn_joined (Path.isPiece_upAndDown hplain'),
    hsteps, List.reverse_reverse]

/-! ## Keys -/

/-- Steps from the directory of a key stand behind the names of that directory. -/
theorem linkedKey_joined {key : List Char} (hkey : key ≠ []) (hname : IsPlain name)
    (hnames : ∀ n ∈ names, IsPlain n) {way : List (List Char)} (hsome : names ++ way ≠ [])
    (hway : ∀ step ∈ way, IsPiece step) :
    linkedKey (String.ofList (key ++ '/' :: Text.joinWithChar '/' (names ++ [name])))
        (String.ofList (Text.joinWithChar '/' way)) =
      String.ofList (Path.normalizeChars (key ++ '/' :: Text.joinWithChar '/' (names ++ way))) := by
  have hsingle : Text.joinWithChar '/' [name] = name := rfl
  have hjoin (front : List Char) (hfront : front ≠ []) (back : List Char) :
      Path.join [String.ofList front, String.ofList back] =
        String.ofList (Path.normalizeChars (if back = [] then front else front ++ '/' :: back)) := by
    by_cases hback : back = []
    · simp [Path.join, hfront, hback, Text.joinWithChar]
    · simp [Path.join, hfront, hback, Text.joinWithChar]
  rw [linkedKey]
  by_cases hnil : names = []
  · subst hnil
    rw [List.nil_append] at hsome ⊢
    rw [hsingle, Path.dirname_name key hname, if_neg hkey, hjoin key hkey,
      if_neg (Path.joined_ne_nil hsome hway), List.nil_append]
  · have hbelow : key ++ '/' :: Text.joinWithChar '/' names ≠ [] := by simp
    rw [Path.joined_append hnil (List.cons_ne_nil _ _), hsingle, ← List.cons_append,
      ← List.append_assoc, Path.dirname_name _ hname, if_neg hbelow, hjoin _ hbelow]
    refine congrArg (fun cs => String.ofList (Path.normalizeChars cs)) ?_
    by_cases hempty : way = []
    · rw [hempty, List.append_nil]
      rfl
    · rw [if_neg (Path.joined_ne_nil hempty hway), Path.joined_append hnil hempty, List.append_assoc]
      rfl

/-- **The target of a link leads to the key of what the link leads to**, where both lie
below one directory and have their places below its key. -/
theorem linkedKey_linkTarget {key : List Char} (hkey : key ≠ []) (hroot : ∀ n ∈ root, IsPlain n)
    (hnames : ∀ n ∈ names, IsPlain n) (hplace : ∀ n ∈ place, IsPlain n) (hne : place ≠ [])
    (hname : IsPlain name) (htext : goOn (root ++ names) text.toList = root ++ place) :
    linkedKey (String.ofList (key ++ '/' :: Text.joinWithChar '/' (names ++ [name])))
        (linkTarget (String.ofList (rooted (root ++ names ++ [name]))) text) =
      String.ofList (Path.normalizeChars (key ++ '/' :: Text.joinWithChar '/' place)) := by
  obtain ⟨shared, up, down, hup, hdown, htarget⟩ :=
    exists_linkTarget hroot hnames hplace hname htext
  have hup' : ∀ n ∈ up, IsPlain n := fun n hn => hnames n (hup ▸ List.mem_append_right _ hn)
  have hdown' : ∀ n ∈ down, IsPlain n := fun n hn => hplace n (hdown ▸ List.mem_append_right _ hn)
  have hsteps : ∀ step ∈ upAndDown up down, IsPiece step := Path.isPiece_upAndDown hdown'
  have hall : ∀ step ∈ names ++ upAndDown up down, IsPiece step :=
    List.forall_mem_append.2 ⟨fun n hn => (hnames n hn).isPiece, hsteps⟩
  have hpieces : ∀ step ∈ place, IsPiece step := fun n hn => (hplace n hn).isPiece
  have hsome : names ++ upAndDown up down ≠ [] := by
    intro hnil
    obtain ⟨hnames, hway⟩ := List.append_eq_nil_iff.1 hnil
    obtain ⟨rfl, -⟩ := List.append_eq_nil_iff.1 (hup.symm.trans hnames)
    exact hne (hdown.trans (List.append_eq_nil_iff.1 hway).2)
  rw [htarget, linkedKey_joined hkey hname hnames hsome hsteps]
  refine congrArg String.ofList (Path.normalizeChars_congr (by simp) (by simp) ?_ ?_ ?_)
  · rw [Path.isAbsoluteChars_append, Path.isAbsoluteChars_append key (Text.joinWithChar '/' place)]
  · rw [Path.normalSegments_below key hsome hall, Path.normalSegments_below key hne hpieces,
      List.foldl_append, Path.foldl_plain hnames, Path.foldl_plain hplace, hup, hdown,
      Path.foldl_upAndDown shared hup' hdown']
  · rw [Path.endsWithSlash_below key hsome hall, Path.endsWithSlash_below key hne hpieces]

end

end ModuleAssets
