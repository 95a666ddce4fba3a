import ModuleAssets.Proofs.Path.Normal
/-!
# Relative paths — the way from one path to another leads there

The way from one absolute path to another goes up once for each name that only the first has,
and then down the names that only the second has. So it leads from the names of the first to
those of the second (`foldl_upAndDown`), however the two paths are spelled. What segments lead
to is rooted, and to go on from there is to resolve one more segment (`resolve_concat`), which
puts the two facts together.
-/

namespace ModuleAssets.Path

variable {start target path : String} {segments : List String}

/-! ## What segments lead to -/

/-- Segments lead somewhere if one of them is absolute. -/
theorem exists_sinceAbsolute {segments : List (List Char)}
    (h : ∃ s ∈ segments, isAbsoluteChars s = true) :
    ∃ parts, sinceAbsolute segments = some parts := by
  induction segments with
  | nil =>
    obtain ⟨s, hs, -⟩ := h
    exact absurd hs List.not_mem_nil
  | cons segment before ih =>
    obtain ⟨s, hs, habsolute⟩ := h
    rw [sinceAbsolute]
    by_cases hempty : segment = []
    · have hne : s ≠ segment := by
        rintro rfl
        rw [hempty] at habsolute
        cases habsolute
      rw [if_pos hempty]
      exact ih ⟨s, (List.mem_cons.1 hs).resolve_left hne, habsolute⟩
    rw [if_neg hempty]
    by_cases hsegment : isAbsoluteChars segment = true
    · exact ⟨[segment], if_pos hsegment⟩
    · have hne : s ≠ segment := by
        rintro rfl
        exact hsegment habsolute
      obtain ⟨parts, hparts⟩ := ih ⟨s, (List.mem_cons.1 hs).resolve_left hne, habsolute⟩
      exact ⟨parts ++ [segment], by rw [if_neg hsegment, hparts]; rfl⟩

/-- **One more segment goes on from there.** -/
theorem resolve_concat (h : resolve segments = some path) (segment : String) :
    resolve (segments ++ [segment]) = resolve [path, segment] := by
  obtain ⟨parts, hparts, -⟩ := Option.map_eq_some_iff.1 h
  have habsolute := isAbsoluteChars_sinceAbsolute hparts
  have hplain := plain_normalSegments habsolute
  have hpath := resolve_eq_rooted hparts
  rw [h, Option.some.injEq] at hpath
  rw [hpath, resolve_rooted hplain]
  have hreverse : ((segments ++ [segment]).map String.toList).reverse =
      segment.toList :: (segments.map String.toList).reverse := by simp
  have hsince := congrArg sinceAbsolute hreverse
  rw [sinceAbsolute] at hsince
  by_cases hempty : segment.toList = []
  · -- an empty segment is passed over
    have hstays : goOn (normalSegments (Text.joinWithChar '/' parts)) segment.toList =
        normalSegments (Text.joinWithChar '/' parts) := by
      rw [goOn, hempty]
      exact List.reverse_reverse _
    rw [if_pos hempty, hparts] at hsince
    rw [resolve_eq_rooted hsince, hstays]
  rw [if_neg hempty] at hsince
  by_cases hanew : isAbsoluteChars segment.toList = true
  · -- an absolute segment starts anew
    rw [if_pos hanew] at hsince
    rw [resolve_eq_rooted hsince, goOn, if_pos hanew]
    rfl
  · have hne : parts ≠ [] := by
      rintro rfl
      cases habsolute
    have hjoined : Text.joinWithChar '/' (parts ++ [segment.toList]) =
        Text.joinWithChar '/' parts ++ '/' :: segment.toList :=
      joined_append hne (List.cons_ne_nil _ _)
    rw [if_neg hanew, hparts] at hsince
    have hsome : sinceAbsolute ((segments ++ [segment]).map String.toList).reverse =
        some (parts ++ [segment.toList]) := hsince
    rw [resolve_eq_rooted hsome, hjoined, normalSegments_append, normalSegments_slash habsolute,
      isAbsoluteChars_slash habsolute, goOn, if_neg hanew]

/-! ## The way from one path to another -/

/-- What two lists do not share stands behind what they share. -/
theorem exists_shared {α : Type} [DecidableEq α] (xs ys : List α) :
    ∃ shared, xs = shared ++ (dropShared xs ys).1 ∧ ys = shared ++ (dropShared xs ys).2 := by
  induction xs generalizing ys with
  | nil => exact ⟨[], by cases ys <;> rfl, by cases ys <;> rfl⟩
  | cons x xs ih =>
    cases ys with
    | nil => exact ⟨[], rfl, rfl⟩
    | cons y ys =>
      rw [dropShared]
      by_cases hsame : x = y
      · subst hsame
        obtain ⟨shared, hxs, hys⟩ := ih ys
        rw [if_pos rfl]
        exact ⟨x :: shared, congrArg (x :: ·) hxs, congrArg (x :: ·) hys⟩
      · rw [if_neg hsame]
        exact ⟨[], rfl, rfl⟩

/-- The way goes up the names that only the one path has and down those that only the other
has. -/
theorem relative_eq_some (hstart : isAbsolute start = true) (htarget : isAbsolute target = true) :
    ∃ shared up down, normalSegments start.toList = shared ++ up ∧
      normalSegments target.toList = shared ++ down ∧
      relative start target =
        some (String.ofList (Text.joinWithChar '/' (upAndDown up down))) := by
  obtain ⟨shared, hup, hdown⟩ :=
    exists_shared (normalSegments start.toList) (normalSegments target.toList)
  refine ⟨shared, _, _, hup, hdown, ?_⟩
  rw [relative, if_pos (by rw [hstart, htarget]; rfl)]
  dsimp only
  rw [segments_of_absolute hstart, segments_of_absolute htarget, List.map_const']
  rfl

/-- **The way leads there.** -/
theorem exists_relative (hstart : isAbsolute start = true) (htarget : isAbsolute target = true) :
    ∃ way, relative start target = some way ∧ resolve [start, way] = resolve [target] := by
  obtain ⟨shared, up, down, hnames, hnames', hrelative⟩ := relative_eq_some hstart htarget
  refine ⟨_, hrelative, ?_⟩
  have hplain := plain_normalSegments hstart
  have hplain' := plain_normalSegments htarget
  have hup : ∀ n ∈ up, IsPlain n := fun n hn =>
    hplain n (hnames ▸ List.mem_append_right _ hn)
  have hdown : ∀ n ∈ down, IsPlain n := fun n hn =>
    hplain' n (hnames' ▸ List.mem_append_right _ hn)
  have hleads := foldl_upAndDown shared hup hdown true []
  rw [List.append_nil, List.append_nil] at hleads
  have hthere : goOn (normalSegments start.toList)
      (Text.joinWithChar '/' (upAndDown up down)) = normalSegments target.toList := by
    rw [goOn_joined (isPiece_upAndDown hdown), hnames, hnames', hleads, List.reverse_reverse]
  have hconcat := resolve_concat (resolve_singleton hstart)
    (String.ofList (Text.joinWithChar '/' (upAndDown up down)))
  rw [List.singleton_append] at hconcat
  rw [hconcat, resolve_rooted hplain, String.toList_ofList, hthere, resolve_singleton htarget]

/-! ## Main statement -/

/-- A path that is worked out to the root or to the names below it. -/
structure Settled (path : String) : Prop where
  absolute : isAbsolute path = true
  /-- Behind the first slash no segment is empty or a step. -/
  names : path ≠ "/" → ∀ piece ∈ pieces (path.toList.drop 1), IsPlain piece
  slash : path ≠ "/" → endsWithSlash path.toList = false

theorem settled_rooted {names : List (List Char)} (h : ∀ n ∈ names, IsPlain n) :
    Settled (String.ofList (rooted names)) := by
  have hsome (hroot : String.ofList (rooted names) ≠ "/") : names ≠ [] := by
    rintro rfl
    exact hroot rfl
  refine ⟨?_, fun hroot => ?_, fun hroot => ?_⟩
  · rw [isAbsolute, String.toList_ofList]
    rfl
  · rw [String.toList_ofList]
    show ∀ piece ∈ pieces (Text.joinWithChar '/' names), IsPlain piece
    rw [pieces_joined (hsome hroot) fun n hn => (h n hn).2.2.2]
    exact h
  · rw [String.toList_ofList]
    exact endsWithSlash_below [] (hsome hroot) fun n hn => (h n hn).isPiece

/-- **Relative paths lead back,** from wherever one starts and however the two paths are
spelled. Segments with an absolute one among them lead to a path that is worked out, and
going on from them is going on from that path. -/
theorem relative_leads_back :
    (∀ start target, isAbsolute start = true → isAbsolute target = true →
      ∃ way, relative start target = some way ∧ resolve [start, way] = resolve [target]) ∧
    ∀ segments : List String, (∃ s ∈ segments, isAbsolute s = true) →
      ∃ path, resolve segments = some path ∧ Settled path ∧ resolve [path] = some path ∧
        ∀ segment, resolve (segments ++ [segment]) = resolve [path, segment] := by
  refine ⟨fun start target => exists_relative, fun segments hsome => ?_⟩
  obtain ⟨s, hs, habsolute⟩ := hsome
  have hmem : s.toList ∈ (segments.map String.toList).reverse :=
    List.mem_reverse.2 (List.mem_map_of_mem hs)
  obtain ⟨parts, hparts⟩ := exists_sinceAbsolute ⟨s.toList, hmem, habsolute⟩
  have hplain := plain_normalSegments (isAbsoluteChars_sinceAbsolute hparts)
  have hresolve := resolve_eq_rooted hparts
  exact ⟨_, hresolve, settled_rooted hplain, resolve_self hplain, resolve_concat hresolve⟩

/-- Two paths that are not worked out, and segments that lead up past the root. -/
theorem relative_leads_back_spelled :
    isAbsolute "//a/./b/../c/" = true ∧ isAbsolute "/a/../d//e" = true ∧
      relative "//a/./b/../c/" "/a/../d//e" = some "../../d/e" ∧
      resolve ["//a/./b/../c/", "../../d/e"] = resolve ["/a/../d//e"] ∧
      (∃ s ∈ ["x", "/a/../..", "", "b//"], isAbsolute s = true) ∧
      resolve (["x", "/a/../..", "", "b//"] ++ ["../c/"]) = resolve ["/b", "../c/"] := by
  have hstart : isAbsolute "//a/./b/../c/" = true := by decide
  have htarget : isAbsolute "/a/../d//e" = true := by decide
  have hway : relative "//a/./b/../c/" "/a/../d//e" = some "../../d/e" := by decide +kernel
  have hsome : ∃ s ∈ ["x", "/a/../..", "", "b//"], isAbsolute s = true :=
    ⟨"/a/../..", by simp, by decide⟩
  have hpath : resolve ["x", "/a/../..", "", "b//"] = some "/b" := by decide +kernel
  obtain ⟨way, hrelative, hleads⟩ := relative_leads_back.1 _ _ hstart htarget
  obtain ⟨path, hresolve, -, -, hon⟩ := relative_leads_back.2 _ hsome
  obtain rfl : way = "../../d/e" := Option.some.inj (hrelative.symm.trans hway)
  obtain rfl : path = "/b" := Option.some.inj (hresolve.symm.trans hpath)
  exact ⟨hstart, htarget, hway, hleads, hsome, hon "../c/"⟩

end ModuleAssets.Path
