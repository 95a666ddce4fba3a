import ModuleAssets.Proofs.Asset.Numbered
/-!
# Registry — names are stable, unique and as small as can be

However many assets are registered, in whatever order, the table of paths and
the table of names are inverse to each other, and the names without a path are
those the build had before. `Consistent` says so of a registry and the paths
that were registered; every registration keeps it.
-/

namespace ModuleAssets.Registry

/-- Registers one asset after another, each with a preferred name. -/
def registerAll (r : Registry) (calls : List (String × String)) : Registry :=
  calls.foldl (fun r c => (r.register c.1 c.2).1) r

theorem registerAll_cons (r : Registry) (c : String × String) (calls : List (String × String)) :
    r.registerAll (c :: calls) = (r.register c.1 c.2).1.registerAll calls := rfl

variable {r : Registry} {path other preferred name : String} {seeds paths : List String}

/-! ## One registration -/

theorem register_of_eq_some (h : r.nameOf? path = some name) (preferred : String) :
    r.register path preferred = (r, name) := by
  rw [register, h]

theorem register_of_eq_none (h : r.nameOf? path = none) (preferred : String) :
    r.register path preferred =
      (r.assign path (r.openName path preferred), r.openName path preferred) := by
  rw [register, h]

theorem nameOf?_assign (r : Registry) (path name other : String) :
    (r.assign path name).nameOf? other = if path = other then some name else r.nameOf? other :=
  Json.member?_setMember r.given path name other

theorem owner?_assign (r : Registry) (path name other : String) :
    (r.assign path name).owner? other =
      if name = other then some (some path) else r.owner? other :=
  Json.member?_setMember r.names name (some path) other

/-- An asset with a new name is listed last. -/
theorem assets_assign (h : r.owner? name = none) (path : String) :
    (r.assign path name).assets = r.assets ++ [(path, name)] := by
  rw [assets, assign, Json.setMember_of_member?_eq_none h, List.filterMap_append]
  rfl

/-- An asset has the name that its registration returns. -/
theorem nameOf?_register_self (r : Registry) (path preferred : String) :
    (r.register path preferred).1.nameOf? path = some (r.register path preferred).2 := by
  cases h : r.nameOf? path with
  | some name => rw [register_of_eq_some h, h]
  | none =>
    rw [register_of_eq_none h, nameOf?_assign, if_pos rfl]

/-- **A name that was given stays.** -/
theorem nameOf?_register (h : r.nameOf? path = some name) (other preferred : String) :
    (r.register other preferred).1.nameOf? path = some name := by
  cases hother : r.nameOf? other with
  | some _ => rwa [register_of_eq_some hother]
  | none =>
    have hne : other ≠ path := fun heq => by
      rw [heq, h] at hother
      cases hother
    rw [register_of_eq_none hother, nameOf?_assign, if_neg hne, h]

theorem nameOf?_registerAll (h : r.nameOf? path = some name) (calls : List (String × String)) :
    (r.registerAll calls).nameOf? path = some name := by
  induction calls generalizing r with
  | nil => exact h
  | cons c calls ih =>
    rw [registerAll_cons]
    exact ih (nameOf?_register h c.1 c.2)

/-! ## The two tables -/

/-- The tables of a registry agree with each other, with the names that the
build had before, and with the paths that were registered. -/
structure Consistent (seeds paths : List String) (r : Registry) : Prop where
  /-- No name is listed twice. -/
  nodup : (r.names.map (·.1)).Nodup
  /-- An asset has a name just if the name is that asset's. -/
  inverse : ∀ path name, r.nameOf? path = some name ↔ r.owner? name = some (some path)
  /-- The names that are no asset's are those the build had before. -/
  seeded : ∀ name, r.owner? name = some none ↔ name ∈ seeds
  /-- The assets are listed in the order of their first registration. -/
  ordered : r.assets.map (·.1) = paths.eraseDups

namespace Consistent

theorem mem_assets (h : Consistent seeds paths r) :
    (path, name) ∈ r.assets ↔ r.nameOf? path = some name := by
  have hmem : (path, name) ∈ r.assets ↔ (name, some path) ∈ r.names := by
    simp [assets, List.mem_filterMap]
  rw [hmem, h.inverse]
  exact (Json.member?_eq_some h.nodup).symm

/-- The paths with a name are those that were registered. -/
theorem mem_paths (h : Consistent seeds paths r) :
    path ∈ paths ↔ ∃ name, r.nameOf? path = some name := by
  rw [← List.mem_eraseDups, ← h.ordered, List.mem_map]
  constructor
  · rintro ⟨⟨_, name⟩, hmem, rfl⟩
    exact ⟨name, h.mem_assets.1 hmem⟩
  · rintro ⟨name, hname⟩
    exact ⟨_, h.mem_assets.2 hname, rfl⟩

theorem nameOf?_eq_none (h : Consistent seeds paths r) :
    r.nameOf? path = none ↔ path ∉ paths := by
  rw [h.mem_paths, Option.eq_none_iff_forall_ne_some, not_exists]

/-- Two assets with one name are one. -/
theorem path_eq (h : Consistent seeds paths r) (hpath : r.nameOf? path = some name)
    (hother : r.nameOf? other = some name) : path = other := by
  rw [h.inverse] at hpath hother
  rw [hpath] at hother
  exact Option.some.inj (Option.some.inj hother)

theorem not_mem_seeds (h : Consistent seeds paths r) (hpath : r.nameOf? path = some name) :
    name ∉ seeds := by
  rw [h.inverse] at hpath
  rw [← h.seeded, hpath, Option.some.injEq]
  exact Option.some_ne_none path

/-- What an asset without a name may have is nobody's. -/
theorem isOpenTo (h : Consistent seeds paths r) (hpath : r.nameOf? path = none) :
    r.isOpenTo path name = true ↔ r.owner? name = none := by
  rw [isOpenTo_iff]
  refine ⟨fun hopen => hopen.resolve_right fun hown => ?_, .inl⟩
  rw [(h.inverse path name).2 hown] at hpath
  cases hpath

end Consistent

/-! ## Every registration keeps the tables -/

theorem eraseDups_concat (ps : List String) (p : String) :
    (ps ++ [p]).eraseDups = if p ∈ ps then ps.eraseDups else ps.eraseDups ++ [p] := by
  rw [List.eraseDups_append]
  split
  · rename_i h
    simp [List.removeAll, h]
  · rename_i h
    simp [List.removeAll, h, List.eraseDups_cons]

theorem nodup_eraseDups (ps : List String) : ps.eraseDups.Nodup := by
  induction ps using List.reverseRecOn with
  | nil => exact List.nodup_nil
  | append_singleton ps p ih =>
    rw [eraseDups_concat]
    split
    · exact ih
    · rename_i h
      exact ih.append (List.nodup_singleton p) (by simpa using h)

/-- A new asset with a name that is nobody's. -/
theorem Consistent.assign (h : Consistent seeds paths r) (hpath : r.nameOf? path = none)
    (hfree : r.owner? name = none) : Consistent seeds (paths ++ [path]) (r.assign path name) where
  nodup := Json.nodup_setMember h.nodup name (some path)
  inverse other n := by
    rw [nameOf?_assign, owner?_assign]
    by_cases hother : path = other
    · subst hother
      rw [if_pos rfl, Option.some.injEq]
      by_cases hn : name = n
      · rw [if_pos hn]
        exact ⟨fun _ => rfl, fun _ => hn⟩
      · -- before, the new path had no name, and so it was nobody's owner
        rw [if_neg hn, ← h.inverse, hpath]
        exact ⟨fun heq => absurd heq hn, fun heq => by cases heq⟩
    · rw [if_neg hother, h.inverse]
      by_cases hn : name = n
      · -- the new name was free, so it was not the other path's either
        rw [if_pos hn, ← hn, hfree, Option.some.injEq, Option.some.injEq]
        refine ⟨fun heq => ?_, fun heq => absurd heq hother⟩
        cases heq
      · rw [if_neg hn]
  seeded n := by
    rw [owner?_assign]
    by_cases hn : name = n
    · rw [if_pos hn, ← h.seeded, ← hn, hfree]
      constructor <;> (intro heq; cases heq)
    · rw [if_neg hn, h.seeded]
  ordered := by
    rw [assets_assign hfree, List.map_append, h.ordered, eraseDups_concat,
      if_neg (h.nameOf?_eq_none.1 hpath), List.map_singleton]

/-- **One step.** A registration keeps the tables consistent. -/
theorem Consistent.register (h : Consistent seeds paths r) (path preferred : String) :
    Consistent seeds (paths ++ [path]) (r.register path preferred).1 := by
  cases hpath : r.nameOf? path with
  | some name =>
    rw [register_of_eq_some hpath]
    refine ⟨h.nodup, h.inverse, h.seeded, ?_⟩
    rw [h.ordered, eraseDups_concat, if_pos (h.mem_paths.2 ⟨name, hpath⟩)]
  | none =>
    rw [register_of_eq_none hpath]
    exact h.assign hpath ((h.isOpenTo hpath).1 (openName_spec r path preferred).1)

/-- **The whole run.** -/
theorem Consistent.registerAll (h : Consistent seeds paths r) (calls : List (String × String)) :
    Consistent seeds (paths ++ calls.map (·.1)) (r.registerAll calls) := by
  induction calls generalizing r paths with
  | nil => rwa [List.map_nil, List.append_nil]
  | cons c calls ih =>
    rw [registerAll_cons, List.map_cons, List.append_cons]
    exact ih (h.register c.1 c.2)

/-! ## The start -/

theorem owner?_ofExisting (seeds : List String) (name : String) :
    (ofExisting seeds).owner? name = if name ∈ seeds then some none else none := by
  have hfold : ∀ taken : List (String × Option String),
      Json.member? (seeds.foldl (fun taken name => Json.setMember taken name none) taken) name =
        if name ∈ seeds then some none else Json.member? taken name := by
    induction seeds with
    | nil => exact fun taken => rfl
    | cons seed seeds ih =>
      intro taken
      rw [List.foldl_cons, ih, Json.member?_setMember]
      by_cases hseed : seed = name
      · simp [hseed]
      · simp [hseed, Ne.symm hseed]
  exact hfold []

theorem nodup_ofExisting (seeds : List String) :
    ((ofExisting seeds).names.map (·.1)).Nodup := by
  have hfold : ∀ taken : List (String × Option String), (taken.map (·.1)).Nodup →
      ((seeds.foldl (fun taken name => Json.setMember taken name none) taken).map (·.1)).Nodup := by
    induction seeds with
    | nil => exact fun taken h => h
    | cons seed seeds ih => exact fun taken h => ih _ (Json.nodup_setMember h seed none)
  exact hfold [] List.nodup_nil

theorem consistent_ofExisting (seeds : List String) : Consistent seeds [] (ofExisting seeds) := by
  have hnone : ∀ path name, (ofExisting seeds).owner? name ≠ some (some path) := by
    intro path name
    rw [owner?_ofExisting]
    split <;> simp
  refine ⟨nodup_ofExisting seeds, fun path name => ?_, fun name => ?_, ?_⟩
  · refine ⟨fun h => ?_, fun h => absurd h (hnone path name)⟩
    cases h
  · rw [owner?_ofExisting]
    simp
  · have hassets : (ofExisting seeds).assets = [] := by
      refine List.eq_nil_iff_forall_not_mem.2 fun ⟨path, name⟩ hmem => hnone path name ?_
      refine (Json.member?_eq_some (nodup_ofExisting seeds)).2 ?_
      simpa [assets, List.mem_filterMap] using hmem
    rw [hassets]
    rfl

/-! ## Names over a build -/

/-- Nobody has the name: the build did not have it before, and no asset was
given it. -/
def IsFree (seeds : List String) (r : Registry) (name : String) : Prop :=
  name ∉ seeds ∧ ∀ path, r.nameOf? path ≠ some name

theorem Consistent.isFree_iff (h : Consistent seeds paths r) :
    IsFree seeds r name ↔ r.owner? name = none := by
  constructor
  · rintro ⟨hseed, hnamed⟩
    cases howner : r.owner? name with
    | none => rfl
    | some owner =>
      cases owner with
      | none => exact absurd ((h.seeded name).1 howner) hseed
      | some path => exact absurd ((h.inverse path name).2 howner) (hnamed path)
  · intro hnone
    refine ⟨fun hseed => ?_, fun path hpath => ?_⟩
    · rw [(h.seeded name).2 hseed] at hnone
      cases hnone
    · rw [(h.inverse path name).1 hpath] at hnone
      cases hnone

/-- The name is free, and is the preferred one, or that is not free and the
name has the least number before its extension with which it is. There are no
more numbers to try than names. -/
def IsLeast (seeds : List String) (r : Registry) (preferred name : String) : Prop :=
  IsFree seeds r name ∧
    (name = preferred ∨
      ¬ IsFree seeds r preferred ∧ ∃ stem number,
        preferred = stem ++ Path.extname preferred ∧
        1 ≤ number ∧ number ≤ r.names.length ∧
        name = stem ++ toString number ++ Path.extname preferred ∧
        ∀ k, 1 ≤ k → k < number →
          ¬ IsFree seeds r (stem ++ toString k ++ Path.extname preferred))

/-- **The first registration of an asset finds the least free name.** -/
theorem Consistent.isLeast_register (h : Consistent seeds paths r)
    (hpath : r.nameOf? path = none) (hpreferred : Path.endsWithSlash preferred.toList = false) :
    IsLeast seeds r preferred (r.register path preferred).2 := by
  have hopen : ∀ n, r.isOpenTo path n = true ↔ IsFree seeds r n := fun n =>
    (h.isOpenTo hpath).trans h.isFree_iff.symm
  obtain ⟨hfree, hname⟩ := openName_spec r path preferred
  rw [register_of_eq_none hpath]
  refine ⟨(hopen _).1 hfree, ?_⟩
  obtain ⟨-, hname⟩ | ⟨htaken, number, hpos, hle, hname, hleast⟩ := hname
  · exact .inl hname
  · obtain ⟨stem, hstem⟩ := Path.exists_eq_append_extname hpreferred
    refine .inr ⟨fun hfree => htaken ((hopen _).2 hfree), stem, number, hstem, hpos, hle, ?_, ?_⟩
    · rw [← numbered_eq hstem]
      exact hname
    · intro k hk hlt
      rw [← numbered_eq hstem, ← hopen]
      exact hleast k hk hlt

/-- **Names are stable, unique and as small as can be**, after any
registrations whatsoever. -/
theorem register_after_registerAll (seeds : List String) (calls : List (String × String))
    (path preferred : String) (hpreferred : Path.endsWithSlash preferred.toList = false) :
    let r := (ofExisting seeds).registerAll calls
    let after := (r.register path preferred).1
    let name := (r.register path preferred).2
    -- A path that is registered for the first time gets the least free name.
    (path ∉ calls.map (·.1) → IsLeast seeds r preferred name) ∧
      -- It keeps the name, whatever is registered and preferred later on.
      (∀ later other, (after.registerAll later).nameOf? path = some name ∧
        (after.registerAll later).register path other = (after.registerAll later, name)) ∧
      -- No other path is ever given it.
      (∀ later other preferred',
        ((after.registerAll later).register other preferred').2 = name → other = path) ∧
      -- It is not one of the names the build had before.
      name ∉ seeds ∧
      -- The assets are listed once, in the order of their first registration.
      r.assets.map (·.1) = (calls.map (·.1)).eraseDups ∧ (r.assets.map (·.1)).Nodup ∧
      ∀ p n, (p, n) ∈ r.assets ↔ r.nameOf? p = some n := by
  intro r after name
  have hr : Consistent seeds (calls.map (·.1)) r := (consistent_ofExisting seeds).registerAll calls
  have hafter : Consistent seeds (calls.map (·.1) ++ [path]) after := hr.register path preferred
  have hname : after.nameOf? path = some name := nameOf?_register_self r path preferred
  refine ⟨fun hnew => ?_, fun later other => ?_, fun later other preferred' heq => ?_,
    hafter.not_mem_seeds hname, hr.ordered, ?_, fun p n => hr.mem_assets⟩
  · exact hr.isLeast_register (hr.nameOf?_eq_none.2 hnew) hpreferred
  · have hlater := nameOf?_registerAll hname later
    exact ⟨hlater, register_of_eq_some hlater other⟩
  · -- in the end both paths have the name, and no name has two paths
    have hlater := nameOf?_register (nameOf?_registerAll hname later) other preferred'
    have hother := nameOf?_register_self (after.registerAll later) other preferred'
    rw [heq] at hother
    exact ((hafter.registerAll later).register other preferred').path_eq hother hlater
  · rw [hr.ordered]
    exact nodup_eraseDups _

theorem register_after_registerAll_taken :
    let r := (ofExisting ["a.txt", "a1.txt"]).registerAll [("/x", "a.txt"), ("/y", "a3.txt")]
    Path.endsWithSlash "a.txt".toList = false ∧ (r.register "/z" "a.txt").2 = "a4.txt" ∧
      IsLeast ["a.txt", "a1.txt"] r "a.txt" "a4.txt" := by
  intro r
  have hname : (r.register "/z" "a.txt").2 = "a4.txt" := by decide
  have hall := register_after_registerAll ["a.txt", "a1.txt"] [("/x", "a.txt"), ("/y", "a3.txt")]
    "/z" "a.txt" (by decide)
  exact ⟨by decide, hname, hname ▸ hall.1 (by decide)⟩

end ModuleAssets.Registry
