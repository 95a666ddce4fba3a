import ModuleAssets.Proofs.Asset.Names
import ModuleAssets.Proofs.Path.Within
import ModuleAssets.Proofs.Relocation.Rewrites
/-!
# Places of addons — taken off as a text, and as segments

A native addon keeps its place in its package: its name is what its path has behind that of
the package. The package's path is taken off as a text. Where a slash follows, the
place is that of the segments (`preferred_of_slash`). But the text of the package's path may
also end in the middle of a name, as that of a package `a` does in a path through `ab`; then
what is left of the name goes into the name of the asset (`preferred_of_middle`), though the
addon lies in another directory (`Plan.addon_named_by_text`).
-/

namespace ModuleAssets

open ModuleAssets.Path (IsPlain pieces rooted)

variable {id base path : String} {names : List (List Char)}

/-! ## Packages -/

/-- **The path of a package ends in a name.** -/
theorem Package.exists_name_of_base? (h : Package.base? id = some base) :
    ∃ front name, base.toList = front ++ '/' :: name ∧ name ≠ [] ∧ '/' ∉ name := by
  obtain ⟨⟨before, after⟩, -, h⟩ := Option.bind_eq_some_iff.1 h
  dsimp only at h
  have hmarker : marker = "/node_modules".toList ++ ['/'] := rfl
  have hslash {piece : List Char} (hpiece : piece ∈ Text.splitAtChar '/' after) : '/' ∉ piece :=
    Path.not_mem_of_mem_pieces hpiece
  cases hsplit : Text.splitAtChar '/' after with
  | nil => exact absurd hsplit (Text.splitAtChar_ne_nil '/' after)
  | cons first rest =>
    rw [hsplit] at h hslash
    obtain ⟨name, hname, rfl⟩ := Option.map_eq_some_iff.1 h
    rw [String.toList_ofList, hmarker]
    split at hname
    · cases hname
    rename_i hfirst
    split at hname
    · -- a scope and a name
      cases rest with
      | nil => cases hname
      | cons second others =>
        dsimp only at hname
        split at hname
        · cases hname
        rename_i hsecond
        cases hname
        exact ⟨before ++ "/node_modules".toList ++ '/' :: first, second, by simp, hsecond,
          hslash (List.mem_cons_of_mem _ List.mem_cons_self)⟩
    · cases hname
      exact ⟨before ++ "/node_modules".toList, first, by simp, hfirst, hslash List.mem_cons_self⟩

/-! ## What stands behind a path -/

theorem Path.segments_append_slash {front back : List Char}
    (h : path.toList = front ++ '/' :: back) :
    segments path = segments (String.ofList front) ++ (pieces back).filter (· ≠ []) := by
  rw [segments, segments, h, pieces_append, List.filter_append, String.toList_ofList]

/-- What stands behind a name without a slash belongs to it. -/
theorem Path.pieces_behind {name : List Char} (h : '/' ∉ name) (cs : List Char) :
    ∃ first rest, pieces cs = first :: rest ∧ pieces (name ++ cs) = (name ++ first) :: rest := by
  induction name with
  | nil =>
    obtain ⟨first, rest, hcs⟩ := List.exists_cons_of_ne_nil (Text.splitAtChar_ne_nil '/' cs)
    exact ⟨first, rest, hcs, hcs⟩
  | cons c name ih =>
    obtain ⟨hc, hname⟩ := not_or.1 (List.mem_cons.not.1 h)
    obtain ⟨first, rest, hcs, hbehind⟩ := ih hname
    have hbehind : Text.splitAtChar '/' (name ++ cs) = (name ++ first) :: rest := hbehind
    refine ⟨first, rest, hcs, ?_⟩
    rw [List.cons_append, pieces, Text.splitAtChar, if_neg (by simpa using Ne.symm hc), hbehind]
    rfl

/-- What stands behind a slash in a path that is worked out are its names. -/
theorem Path.segments_behind_slash {back : List Char} (hnames : ∀ n ∈ names, IsPlain n)
    (hpath : path = String.ofList (rooted names)) (hbase : base ≠ "")
    (hback : path.toList = base.toList ++ '/' :: back) :
    Descends back ∧ segments path = segments base ++ pieces back := by
  have hne : names ≠ [] := by
    rintro rfl
    have hlength := congrArg List.length hback
    rw [hpath, String.toList_ofList] at hlength
    simp only [rooted, Text.joinWithChar, List.length_append, List.length_cons, List.length_nil]
      at hlength
    exact hbase (String.toList_eq_nil_iff.1 (List.length_eq_zero_iff.1 (by omega)))
  have hdescends : Descends back := by
    have hrooted : rooted names = base.toList ++ '/' :: back := by
      rw [← hback, hpath, String.toList_ofList]
    exact descends_of_rooted hne hnames hrooted
  refine ⟨hdescends, ?_⟩
  rw [segments_append_slash hback, String.ofList_toList,
    List.filter_eq_self.2 fun piece hpiece => decide_eq_true (hdescends piece hpiece).1]

/-- The pieces put together again are the path. -/
theorem Path.joined_pieces (cs : List Char) : Text.joinWithChar '/' (pieces cs) = cs := by
  induction cs with
  | nil => rfl
  | cons c cs ih =>
    rw [pieces, Text.splitAtChar]
    obtain ⟨first, rest, hcs⟩ := List.exists_cons_of_ne_nil (Text.splitAtChar_ne_nil '/' cs)
    have hjoined : Text.joinWithChar '/' (first :: rest) = cs := by
      rw [← hcs]
      exact ih
    by_cases hc : c = '/'
    · rw [if_pos (by simp [hc]), hcs, Text.joinWithChar, hjoined, hc]
      rfl
    · rw [if_neg (by simp [hc]), hcs]
      cases rest with
      | nil =>
        rw [Text.joinWithChar] at hjoined ⊢
        rw [hjoined]
      | cons next rest =>
        rw [Text.joinWithChar] at hjoined ⊢
        rw [List.cons_append, hjoined]

/-- **A path that goes on in the middle of a name lies elsewhere.** -/
theorem Path.segments_ne_of_middle {front name back : List Char} {c : Char}
    (hbase : base.toList = front ++ '/' :: name) (hname : '/' ∉ name) (hne : name ≠ [])
    (hpath : path.toList = base.toList ++ c :: back) (hc : c ≠ '/') (place : List (List Char)) :
    segments path ≠ segments base ++ place := by
  have hlonger : path.toList = front ++ '/' :: (name ++ c :: back) := by
    rw [hpath, hbase, List.append_assoc, List.cons_append]
  obtain ⟨first, rest, hcs, hbehind⟩ := pieces_behind hname (c :: back)
  have hfirst : first ≠ [] := by
    rintro rfl
    have hjoined := joined_pieces (c :: back)
    rw [hcs] at hjoined
    cases rest with
    | nil => cases hjoined
    | cons next rest => exact hc (List.cons.inj hjoined).1.symm
  rw [segments_append_slash hlonger, segments_append_slash hbase, hbehind,
    pieces_eq_singleton hname, List.append_assoc]
  intro heq
  rw [List.filter_cons_of_pos (by simp [hne]), List.filter_cons_of_pos (by simp [hne])] at heq
  have hsame := (List.cons.inj (List.append_cancel_left heq)).1
  have hlength := congrArg List.length hsame
  rw [List.length_append] at hlength
  exact hfirst (List.length_eq_zero_iff.1 (by omega))

/-! ## The preferred name -/

namespace Naming

variable {n : Naming}

theorem preferred_eq (hending : Text.endsWith path ".node" = true)
    (hn : n.packageBase = some base) :
    n.preferred path = (below? path base).getD (Path.basename path none) := by
  rw [preferred, if_pos hending, hn]
  rfl

/-- What does not begin with the path of the package has its last name. -/
theorem preferred_of_not_startsWith (hending : Text.endsWith path ".node" = true)
    (hn : n.packageBase = some base) (h : Text.startsWith path base = false) :
    n.preferred path = Path.basename path none := by
  have hnone : below? path base = none := by
    rw [below?]
    cases hdrop : Text.dropPrefix? path.toList base.toList with
    | none => rfl
    | some rest =>
      have hstarts : Text.startsWith path base = true :=
        List.isPrefixOf_iff_prefix.2 ⟨rest, (Text.dropPrefix?_eq_some.1 hdrop).symm⟩
      exact absurd (h.symm.trans hstarts) Bool.false_ne_true
  rw [preferred_eq hending hn, hnone]
  rfl

/-- Nor has the package itself anything behind its path. -/
theorem preferred_self (hending : Text.endsWith base ".node" = true)
    (hn : n.packageBase = some base) : n.preferred base = Path.basename base none := by
  have hdrop : Text.dropPrefix? base.toList base.toList = some [] :=
    Text.dropPrefix?_eq_some.2 (List.append_nil _).symm
  rw [preferred_eq hending hn, below?, hdrop]
  rfl

/-- **Behind a slash the place is that of the segments.** -/
theorem preferred_of_slash (hending : Text.endsWith path ".node" = true)
    (hn : n.packageBase = some base) {back : List Char}
    (hpath : path.toList = base.toList ++ '/' :: back) (hback : Path.Descends back) :
    n.preferred path = String.ofList back := by
  have hslash : ('/' :: back).dropWhile (· == '/') = back :=
    (List.dropWhile_cons_of_pos rfl).trans hback.dropWhile_slash
  rw [preferred_eq hending hn, below?, Text.dropPrefix?_eq_some.2 hpath, Option.bind_some, hslash,
    if_neg hback.ne_nil]
  rfl

/-- **In the middle of a name what is left of the name is taken for a part of the place.** -/
theorem preferred_of_middle (hending : Text.endsWith path ".node" = true)
    (hn : n.packageBase = some base) {c : Char} {back : List Char}
    (hpath : path.toList = base.toList ++ c :: back) (hc : c ≠ '/') :
    n.preferred path = String.ofList (c :: back) := by
  have hslash : (c :: back).dropWhile (· == '/') = c :: back :=
    List.dropWhile_cons_of_neg (by simpa using hc)
  rw [preferred_eq hending hn, below?, Text.dropPrefix?_eq_some.2 hpath, Option.bind_some, hslash,
    if_neg (List.cons_ne_nil _ _)]
  rfl

end Naming

/-- What goes on after a name has more than its last name there. -/
theorem Path.basename_ne_of_middle {front name back : List Char} {c : Char}
    (hnames : ∀ n ∈ names, IsPlain n) (hpath : path = String.ofList (rooted names))
    (hbase : base.toList = front ++ '/' :: name) (hname : '/' ∉ name) (hne : name ≠ [])
    (hmiddle : path.toList = base.toList ++ c :: back) :
    basename path none ≠ String.ofList (c :: back) := by
  subst hpath
  obtain rfl | ⟨before, last, rfl⟩ := List.eq_nil_or_concat' names
  · -- the root has no room for a name
    rw [String.toList_ofList, hbase] at hmiddle
    have hlength := congrArg List.length hmiddle
    simp only [rooted, Text.joinWithChar, List.length_append, List.length_cons, List.length_nil]
      at hlength
    omega
  rw [basename_rooted before (hnames last (List.mem_append_right _ List.mem_cons_self))]
  intro heq
  obtain rfl : last = c :: back := by
    have hlist := congrArg String.toList heq
    rwa [String.toList_ofList, String.toList_ofList] at hlist
  -- before the last name stands a slash, and before what is left of it no slash
  rw [String.toList_ofList, rooted_concat, List.append_cons] at hmiddle
  have hends := List.append_cancel_right hmiddle
  have hlast := congrArg List.getLast? hends
  obtain ⟨others, d, rfl⟩ := (List.eq_nil_or_concat' name).resolve_left hne
  rw [hbase, List.getLast?_concat, ← List.cons_append, ← List.append_assoc, List.getLast?_concat]
    at hlast
  exact hname (Option.some.inj hlast ▸ List.mem_append_right _ List.mem_cons_self)

/-! ## The name that is given -/

theorem Registry.register_of_isOpenTo {r : Registry} {preferred : String}
    (hfree : r.isOpenTo path preferred = true)
    (hgiven : ∀ name, r.nameOf? path = some name → name = preferred) :
    (r.register path preferred).2 = preferred := by
  cases hname : r.nameOf? path with
  | some name =>
    rw [register_of_eq_some hname]
    exact hgiven name hname
  | none =>
    rw [register_of_eq_none hname]
    exact if_pos hfree

/-- **The file's name is the one that is registered.** -/
theorem Plan.addFile_registers (p : Plan) (n : Naming) (path : String) :
    let registered := p.registry.register path (n.preferred path)
    (p.addFile n path).2 = n.reference registered.2 ∧
      (p.addFile n path).1.registry = registered.1 ∧
      .file path registered.2 ∈ (p.addFile n path).1.tasks := by
  have hnamed (q : Plan) (hq : q.registry = p.registry) :
      let registered := q.registry.register path (n.preferred path)
      let added := Plan.addTask { q with registry := registered.1 } (.file path registered.2)
      added.registry = (p.registry.register path (n.preferred path)).1 ∧
        .file path (p.registry.register path (n.preferred path)).2 ∈ added.tasks := by
    rw [hq]
    exact ⟨registry_addTask _ _, mem_addTask _ _⟩
  have hlibraries (base : String) : (p.addSharedLibraries base).registry = p.registry :=
    registry_addTask _ _
  unfold addFile
  dsimp only
  split
  · split
    · exact ⟨by rw [hlibraries], hnamed _ (hlibraries _)⟩
    · exact ⟨rfl, hnamed p rfl⟩
  · exact ⟨rfl, hnamed p rfl⟩

/-! ## Main statement -/

/-- **An addon is named by the text behind its package.** It gets the name it prefers if no
other asset has that. Below its package this is the place by segments, if the text of the
package's path begins its own, as it does when that path is worked out. An addon elsewhere has
its last name exactly if the path of the package is no beginning of its own path as a text, or
is that path. Otherwise its name is all that the text leaves. -/
theorem Plan.addon_named_by_text (hbase : Package.base? id = some base)
    (hpath : ∃ segments, Path.resolve segments = some path)
    (hending : Text.endsWith path ".node" = true) {n : Naming} (hn : n.packageBase = some base)
    {p : Plan} (hfree : p.registry.isOpenTo path (n.preferred path) = true)
    (hgiven : ∀ name, p.registry.nameOf? path = some name → name = n.preferred path) :
    ∃ name, (p.addFile n path).2 = n.reference name ∧
      (p.addFile n path).1.registry.nameOf? path = some name ∧
      .file path name ∈ (p.addFile n path).1.tasks ∧
      -- Text that does not begin with the package's path is not looked at any further.
      (Text.startsWith path base = false → name = Path.basename path none) ∧
      (∀ place, place ≠ [] → Path.segments path = Path.segments base ++ place →
        (Text.startsWith path base = true → name = String.ofList (Text.joinWithChar '/' place)) ∧
          (Path.resolve [base] = some base → Text.startsWith path base = true)) ∧
      ((∀ place, place ≠ [] → Path.segments path ≠ Path.segments base ++ place) →
        (name = Path.basename path none ↔ Text.startsWith path base = false ∨ path = base) ∧
          ∀ rest, path = base ++ rest → rest ≠ "" → name = rest) := by
  obtain ⟨_, hresolved⟩ := hpath
  obtain ⟨names, hnames, hrooted⟩ := Path.exists_rooted_of_resolve hresolved
  obtain ⟨front, last, hbaseName, hne, hslash⟩ := Package.exists_name_of_base? hbase
  have hbaseEmpty : base ≠ "" := by
    rintro rfl
    exact List.append_ne_nil_of_right_ne_nil front (List.cons_ne_nil _ _) hbaseName.symm
  obtain ⟨hreference, hregistry, htask⟩ := p.addFile_registers n path
  have hregistered := Registry.register_of_isOpenTo hfree hgiven
  have hnamed := Registry.nameOf?_register_self p.registry path (n.preferred path)
  rw [← hregistry, hregistered] at hnamed
  rw [hregistered] at hreference htask
  refine ⟨_, hreference, hnamed, htask, Naming.preferred_of_not_startsWith hending hn,
    fun place hplace hbelow => ⟨fun hstarts => ?_, fun hworked => ?_⟩, fun helsewhere => ?_⟩
  · obtain ⟨rest, hrest⟩ := List.isPrefixOf_iff_prefix.1 hstarts
    cases rest with
    | nil =>
      -- the package itself has nothing below it
      rw [List.append_nil, String.toList_inj] at hrest
      rw [hrest] at hbelow
      exact absurd (List.self_eq_append_right.1 hbelow) hplace
    | cons c back =>
      by_cases hc : c = '/'
      · subst hc
        obtain ⟨hback, hsegments⟩ :=
          Path.segments_behind_slash hnames hrooted hbaseEmpty hrest.symm
        rw [Naming.preferred_of_slash hending hn hrest.symm hback,
          ← List.append_cancel_left (hsegments.symm.trans hbelow), Path.joined_pieces]
      · exact absurd hbelow (Path.segments_ne_of_middle hbaseName hslash hne hrest.symm hc place)
  · obtain ⟨start, hstart, hbaseRooted⟩ := Path.exists_rooted_of_resolve hworked
    have htrimmed : Path.trimSlashes base.toList = rooted start := by
      rw [hbaseRooted, String.toList_ofList, Path.trimSlashes_rooted hstart]
    have hbegins : start <+: names := by
      rw [hrooted, hbaseRooted, Path.segments_rooted hnames, Path.segments_rooted hstart] at hbelow
      exact ⟨place, hbelow.symm⟩
    obtain ⟨rest, hrest, -⟩ := Path.isWithin_iff.1 (Path.isWithin_of_prefix htrimmed hbegins)
    rw [← hrooted, htrimmed] at hrest
    refine List.isPrefixOf_iff_prefix.2 ⟨rest, ?_⟩
    rw [hrest, hbaseRooted, String.toList_ofList]
  · -- behind a slash there would be a place below the package
    have hmiddle {c : Char} {back : List Char} (hrest : path.toList = base.toList ++ c :: back) :
        c ≠ '/' := by
      rintro rfl
      obtain ⟨-, hsegments⟩ := Path.segments_behind_slash hnames hrooted hbaseEmpty hrest
      exact helsewhere _ (Text.splitAtChar_ne_nil '/' back) hsegments
    refine ⟨⟨fun hname => ?_, ?_⟩, fun rest hrest hrestNe => ?_⟩
    · cases hstarts : Text.startsWith path base with
      | false => exact .inl rfl
      | true =>
        obtain ⟨rest, hrest⟩ := List.isPrefixOf_iff_prefix.1 hstarts
        cases rest with
        | nil =>
          rw [List.append_nil, String.toList_inj] at hrest
          exact .inr hrest.symm
        | cons c back =>
          have hc := hmiddle hrest.symm
          rw [Naming.preferred_of_middle hending hn hrest.symm hc] at hname
          exact absurd hname.symm
            (Path.basename_ne_of_middle hnames hrooted hbaseName hslash hne hrest.symm)
    · rintro (hstarts | rfl)
      · exact Naming.preferred_of_not_startsWith hending hn hstarts
      · exact Naming.preferred_self hending hn
    · have hlist := congrArg String.toList hrest
      rw [String.toList_append] at hlist
      obtain ⟨c, back, hback⟩ := List.exists_cons_of_ne_nil fun hnil =>
        hrestNe (String.toList_eq_nil_iff.1 hnil)
      rw [hback] at hlist
      rw [Naming.preferred_of_middle hending hn hlist (hmiddle hlist), ← hback,
        String.ofList_toList]

/-- An addon of a package with a scope keeps its place. -/
theorem Plan.addon_named_by_text_scoped :
    let n : Naming := ⟨default, some "/p/node_modules/@s/a"⟩
    Package.base? "/p/node_modules/@s/a/index.js" = some "/p/node_modules/@s/a" ∧
      Path.resolve ["/p/node_modules/@s/a/", "build/x.node"] =
        some "/p/node_modules/@s/a/build/x.node" ∧
      n.preferred "/p/node_modules/@s/a/build/x.node" = "build/x.node" ∧
      (Plan.addFile default n "/p/node_modules/@s/a/build/x.node").1.registry.nameOf?
        "/p/node_modules/@s/a/build/x.node" = some "build/x.node" := by
  intro n
  have hbase : Package.base? "/p/node_modules/@s/a/index.js" = some "/p/node_modules/@s/a" := by
    decide +kernel
  have hpath : Path.resolve ["/p/node_modules/@s/a/", "build/x.node"] =
      some "/p/node_modules/@s/a/build/x.node" := by decide +kernel
  refine ⟨hbase, hpath, by decide +kernel, ?_⟩
  obtain ⟨name, -, hname, -, -, hbelow, -⟩ := addon_named_by_text hbase ⟨_, hpath⟩
    (by decide +kernel) (n := n) rfl (p := default) (by decide +kernel) (fun name h => by cases h)
  have hplace := (hbelow ["build".toList, "x.node".toList] (List.cons_ne_nil _ _)
    (by decide +kernel)).1 (by decide +kernel)
  rw [hname, hplace]
  rfl

/-- **Another package whose name begins alike** leaves the rest of its name to the addon. -/
theorem Plan.addon_named_by_text_sibling :
    let n : Naming := ⟨default, some "/node_modules/a"⟩
    Package.base? "/node_modules/a/index.js" = some "/node_modules/a" ∧
      Path.resolve ["/node_modules/ab/x.node"] = some "/node_modules/ab/x.node" ∧
      Path.isWithin "/node_modules/ab/x.node" "/node_modules/a" = false ∧
      Path.basename "/node_modules/ab/x.node" none = "x.node" ∧
      (Plan.addFile default n "/node_modules/ab/x.node").1.registry.nameOf?
        "/node_modules/ab/x.node" = some "b/x.node" := by
  decide +kernel

end ModuleAssets
