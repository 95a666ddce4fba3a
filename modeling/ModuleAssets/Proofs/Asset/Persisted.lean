import ModuleAssets.Proofs.Asset.Held
import ModuleAssets.Proofs.Json.Members
import ModuleAssets.Proofs.Json.Reading
import Mathlib.Logic.Function.Basic
/-!
# What is handed on — the tables of a registry from build to build

A registry writes its two tables as one text, and takes them over from such a text. Its
tables are tidy: no name occurs twice in one or in both, and modes fit 32 bits (`Tidy`).
Tidy tables are read back as they were written (`withState?_state`). Every request leaves
tables tidy (`Builds.Sound.step`), so what any run of requests to registries with one cache
leaves behind survives in full (`Builds.tables_survive`).
-/

namespace ModuleAssets

/-- What is recorded of a name. -/
inductive Record where
  | file (mode : Nat)
  | link (target : String)
deriving DecidableEq

namespace Registry

/-- The name has this record, and no other. -/
def Holds (r : Registry) (name : String) : Record → Prop
  | .file mode => r.permissions? name = some mode ∧ r.symlink? name = none
  | .link target => r.permissions? name = none ∧ r.symlink? name = some target

/-- The registry with the tables of another. -/
def withTables (r tables : Registry) : Registry :=
  { r with permissions := tables.permissions, symlinks := tables.symlinks }

/-- A mode fits 32 bits, and a name is in one table at most, and there once. -/
structure Tidy (r : Registry) : Prop where
  fits : ∀ {name mode}, r.permissions? name = some mode → mode < Nat.pow 2 32
  permissions : (r.permissions.map (·.1)).Nodup
  symlinks : (r.symlinks.map (·.1)).Nodup
  apart : ∀ name, r.permissions? name = none ∨ r.symlink? name = none

namespace Holds

variable {r r' : Registry} {name other : String} {v : Record}

theorem of_eq (h : r.Holds name v) (hpermissions : r'.permissions? name = r.permissions? name)
    (hsymlink : r'.symlink? name = r.symlink? name) : r'.Holds name v := by
  cases v with
  | file mode => exact ⟨hpermissions.trans h.1, hsymlink.trans h.2⟩
  | link target => exact ⟨hpermissions.trans h.1, hsymlink.trans h.2⟩

theorem register (h : r.Holds name v) (path preferred : String) :
    (r.register path preferred).1.Holds name v := by
  refine h.of_eq ?_ ?_
  · rw [permissions?, permissions_register, permissions?]
  · rw [symlink?, symlinks_register, symlink?]

theorem ofPermissions (r : Registry) (name : String) (mode : Nat) :
    (r.recordPermissions name mode).Holds name (.file mode) :=
  ⟨(permissions?_recordPermissions r name mode name).trans (if_pos rfl),
    (symlink?_recordPermissions r name mode name).trans (if_pos rfl)⟩

theorem ofSymlink (r : Registry) (name target : String) :
    (r.recordSymlink name target).Holds name (.link target) :=
  ⟨(permissions?_recordSymlink r name target name).trans (if_pos rfl),
    (symlink?_recordSymlink r name target name).trans (if_pos rfl)⟩

theorem recordPermissions (h : r.Holds name v) (hne : other ≠ name) (mode : Nat) :
    (r.recordPermissions other mode).Holds name v :=
  h.of_eq ((permissions?_recordPermissions r other mode name).trans (if_neg hne))
    ((symlink?_recordPermissions r other mode name).trans (if_neg hne))

theorem recordSymlink (h : r.Holds name v) (hne : other ≠ name) (target : String) :
    (r.recordSymlink other target).Holds name v :=
  h.of_eq ((permissions?_recordSymlink r other target name).trans (if_neg hne))
    ((symlink?_recordSymlink r other target name).trans (if_neg hne))

end Holds

/-! ## Tidy tables -/

theorem nodup_filter_keys {α : Type} {entries : List (String × α)}
    (h : (entries.map (·.1)).Nodup) (keep : String × α → Bool) :
    ((entries.filter keep).map (·.1)).Nodup :=
  h.sublist (List.filter_sublist.map _)

namespace Tidy

variable {r tables : Registry}

theorem ofExisting (names : List String) : Tidy (ofExisting names) :=
  ⟨nofun, List.nodup_nil, List.nodup_nil, fun _ => .inl rfl⟩

/-- Names do not concern the tables. -/
theorem of_eq (h : r.Tidy) {r' : Registry} (hpermissions : r'.permissions = r.permissions)
    (hsymlinks : r'.symlinks = r.symlinks) : r'.Tidy := by
  obtain ⟨given, names, permissions, symlinks⟩ := r'
  obtain rfl : permissions = r.permissions := hpermissions
  obtain rfl : symlinks = r.symlinks := hsymlinks
  exact ⟨h.fits, h.permissions, h.symlinks, h.apart⟩

theorem register (h : r.Tidy) (path preferred : String) : (r.register path preferred).1.Tidy :=
  h.of_eq (permissions_register r path preferred) (symlinks_register r path preferred)

theorem withTables (h : tables.Tidy) (r : Registry) : (r.withTables tables).Tidy :=
  h.of_eq rfl rfl

theorem recordPermissions (h : r.Tidy) (name : String) {mode : Nat} (hmode : mode < Nat.pow 2 32) :
    (r.recordPermissions name mode).Tidy where
  fits {other m} hm := by
    rw [permissions?_recordPermissions] at hm
    split at hm
    · exact Option.some.inj hm ▸ hmode
    · exact h.fits hm
  permissions := Json.nodup_setMember h.permissions name mode
  symlinks := nodup_filter_keys h.symlinks _
  apart other := by
    rw [permissions?_recordPermissions, symlink?_recordPermissions]
    split
    · exact .inr rfl
    · exact h.apart other

theorem recordSymlink (h : r.Tidy) (name target : String) : (r.recordSymlink name target).Tidy where
  fits {other m} hm := by
    rw [permissions?_recordSymlink] at hm
    split at hm
    · cases hm
    · exact h.fits hm
  permissions := nodup_filter_keys h.permissions _
  symlinks := Json.nodup_setMember h.symlinks name target
  apart other := by
    rw [permissions?_recordSymlink, symlink?_recordSymlink]
    split
    · exact .inl rfl
    · exact h.apart other

end Tidy

/-! ## Written and read -/

section

variable {r tables : Registry}

/-- A table is read as it was written. -/
theorem table?_written {α : Type} {value? : Json → Option α} (json : α → Json)
    {entries : List (String × α)} (hnodup : (entries.map (·.1)).Nodup)
    (h : ∀ m ∈ entries, value? (json m.2) = some m.2) :
    table? value? (.object (entries.map fun (name, v) => (name, json v))) = some entries := by
  have hread : ∀ more : List (String × α), (∀ m ∈ more, value? (json m.2) = some m.2) →
      (more.map fun (name, v) => (name, json v)).mapM
        (fun m => (value? m.2).map fun v => (m.1, v)) = some more := by
    intro more hmore
    induction more with
    | nil => rfl
    | cons m more ih =>
      rw [List.map_cons, List.mapM_cons, ih fun m hm => hmore m (List.mem_cons_of_mem _ hm)]
      dsimp only
      rw [hmore m List.mem_cons_self]
      rfl
  rw [table?, hread entries h, Option.map_some, Json.mergeMembers_eq_self hnodup]

/-- The modes as they are written. -/
def permissionsJson (r : Registry) : Json :=
  .object (r.permissions.map fun (name, mode) => (name, .integer mode))

/-- The targets as they are written. -/
def symlinksJson (r : Registry) : Json :=
  .object (r.symlinks.map fun (name, target) => (name, .string target))

theorem outline?_state (r : Registry) :
    Json.outline? r.state.compact = some (.members
      [("assetPermissions", r.permissionsJson.compact.toList),
        ("assetSymlinks", r.symlinksJson.compact.toList)]) := by
  have hpermissions : Json.Passes r.permissionsJson.compact.toList :=
    Json.passes_object fun m hm => by
      obtain ⟨entry, -, rfl⟩ := List.mem_map.1 hm
      exact Json.passes_integer entry.2
  have hsymlinks : Json.Passes r.symlinksJson.compact.toList :=
    Json.passes_object fun m hm => by
      obtain ⟨entry, -, rfl⟩ := List.mem_map.1 hm
      exact Json.passes_string entry.2
  refine Json.outline?_object (List.cons_ne_nil _ _) fun m hm => ?_
  obtain rfl | hm := List.mem_cons.1 hm
  · exact hpermissions
  · obtain rfl := List.mem_singleton.1 hm
    exact hsymlinks

theorem Tidy.valueOf?_permissions (h : r.Tidy) :
    (Json.valueOf? r.permissionsJson.compact.toList).bind (table? (Json.word? 32)) =
      some r.permissions := by
  have hfits {m : String × Nat} (hm : m ∈ r.permissions) : m.2 < Nat.pow 2 32 :=
    h.fits ((Json.member?_eq_some h.permissions).2 hm)
  have hword : Nat.pow 2 32 ≤ Json.maxUnsigned := by decide
  have hread : Json.valueOf? r.permissionsJson.compact.toList = some r.permissionsJson :=
    Json.valueOf?_object fun m hm depth => by
      obtain ⟨entry, hentry, rfl⟩ := List.mem_map.1 hm
      exact Json.reads_integer depth (Nat.le_of_lt (Nat.lt_of_lt_of_le (hfits hentry) hword))
  rw [hread, Option.bind_some]
  refine table?_written (fun mode : Nat => .integer mode) h.permissions fun m hm => ?_
  rw [Json.word?, if_pos ⟨Int.natCast_nonneg _, by exact_mod_cast hfits hm⟩, Int.toNat_natCast]

theorem Tidy.valueOf?_symlinks (h : r.Tidy) :
    (Json.valueOf? r.symlinksJson.compact.toList).bind (table? Json.string?) =
      some r.symlinks := by
  have hread : Json.valueOf? r.symlinksJson.compact.toList = some r.symlinksJson :=
    Json.valueOf?_object fun m hm depth => by
      obtain ⟨entry, -, rfl⟩ := List.mem_map.1 hm
      exact Json.reads_string depth entry.2
  rw [hread, Option.bind_some]
  exact table?_written Json.string h.symlinks fun _ _ => rfl

/-- **Tidy tables are read back**, in their order, by any registry. -/
theorem withState?_state (h : tables.Tidy) (r : Registry) :
    (Json.outline? tables.state.compact).bind r.withState? = some (r.withTables tables) := by
  have hpermissions := h.valueOf?_permissions
  have hsymlinks := h.valueOf?_symlinks
  rw [outline?_state, Option.bind_some, withState?, withTables?, if_pos (by rfl), tableAt?,
    Json.member?_cons, if_pos rfl, tableAt?, Json.member?_cons, if_neg (by decide),
    Json.member?_cons, if_pos rfl]
  dsimp only
  rw [hpermissions, hsymlinks]
  rfl

/-! ## Caches -/

theorem cacheKey_inj {entryId entryId' : String} :
    cacheKey entryId = cacheKey entryId' ↔ entryId = entryId' :=
  String.append_right_inj _

/-- What a registry takes over from what is in a cache under the key of an entry. -/
theorem restore_of_member? {entries : List (String × String)} {entryId : String}
    (h : tables.Tidy)
    (hentry : Json.member? entries (cacheKey entryId) = some tables.state.compact) (r : Registry) :
    r.restore .memory entries entryId = .ok (some (r.withTables tables)) := by
  have hget : Cache.memory.get entries (cacheKey entryId) = .ok (some tables.state.compact) :=
    congrArg Except.ok hentry
  rw [restore, hget]
  dsimp only
  rw [withState?_state h]

theorem restore_of_member?_eq_none {entries : List (String × String)} {entryId : String}
    (hentry : Json.member? entries (cacheKey entryId) = none) (r : Registry) :
    r.restore .memory entries entryId = .ok none := by
  have hget : Cache.memory.get entries (cacheKey entryId) = .ok none :=
    congrArg Except.ok hentry
  rw [restore, hget]

/-- What is in the cache after all of several registries were handed on. -/
def persistAll (entries : List (String × String)) (handed : List (String × Registry)) :
    List (String × String) :=
  handed.foldl (fun entries (entryId, r) => (r.persist .memory entries entryId).kept) entries

/-- What is handed on stays until something else is handed on for the same entry. -/
theorem member?_persistAll {handed : List (String × Registry)} {entryId : String}
    (h : ∀ p ∈ handed, p.1 ≠ entryId) (entries : List (String × String)) :
    Json.member? (persistAll entries handed) (cacheKey entryId) =
      Json.member? entries (cacheKey entryId) := by
  induction handed generalizing entries with
  | nil => rfl
  | cons p handed ih =>
    have hkey : cacheKey p.1 ≠ cacheKey entryId :=
      fun heq => h p List.mem_cons_self (cacheKey_inj.1 heq)
    refine (ih (fun p hp => h p (List.mem_cons_of_mem _ hp)) _).trans ?_
    exact (Json.member?_setMember entries _ _ _).trans (if_neg hkey)

end

end Registry

/-! ## Builds with one cache -/

/-- What is asked of a registry. A mode is a word of 32 bits. -/
inductive Request where
  | register (path preferred : String)
  | recordPermissions (name : String) (mode : UInt32)
  | recordSymlink (name target : String)
  | restore (entryId : String)
  | persist (entryId : String)

/-- Numbered registries, and what is in the cache that they share. -/
structure Builds where
  registries : Nat → Registry
  entries : List (String × String)

namespace Builds

/-- The registries of builds in which some names are taken, and an empty cache. -/
def start (names : Nat → List String) : Builds :=
  ⟨fun number => .ofExisting (names number), []⟩

/-- One registry is exchanged. -/
def set (b : Builds) (number : Nat) (r : Registry) : Builds :=
  { b with registries := Function.update b.registries number r }

/-- Asks one registry. What it does not take over leaves it as it was. -/
def step (b : Builds) : Nat × Request → Builds
  | (number, .register path preferred) =>
    b.set number ((b.registries number).register path preferred).1
  | (number, .recordPermissions name mode) =>
    b.set number ((b.registries number).recordPermissions name mode.toNat)
  | (number, .recordSymlink name target) =>
    b.set number ((b.registries number).recordSymlink name target)
  | (number, .restore entryId) =>
    match (b.registries number).restore .memory b.entries entryId with
    | .ok (some r) => b.set number r
    | _ => b
  | (number, .persist entryId) =>
    { b with entries := ((b.registries number).persist .memory b.entries entryId).kept }

def run (b : Builds) (steps : List (Nat × Request)) : Builds :=
  steps.foldl step b

/-- The last record of a name since tables were taken over, after one more request. -/
def noted (b : Builds) (number : Nat) (name : String) (before : Option Record) :
    Request → Option Record
  | .recordPermissions other mode => if other = name then some (.file mode.toNat) else before
  | .recordSymlink other target => if other = name then some (.link target) else before
  | .restore entryId =>
    match (b.registries number).restore .memory b.entries entryId with
    | .ok (some _) => none
    | _ => before
  | _ => before

/-- The last record of a name in one registry since it took over tables. -/
def lastNoted (b : Builds) (number : Nat) (name : String) (before : Option Record) :
    List (Nat × Request) → Option Record
  | [] => before
  | (n, request) :: rest =>
    (b.step (n, request)).lastNoted number name
      (if n = number then b.noted number name before request else before) rest

/-- All tables are tidy, and the cache has what tidy registries handed on in these
steps. -/
structure Sound (steps : List (Nat × Request)) (b : Builds) : Prop where
  tidy : ∀ number, (b.registries number).Tidy
  stored : ∀ {entryId text}, Json.member? b.entries (Registry.cacheKey entryId) = some text →
    (∃ number, (number, .persist entryId) ∈ steps) ∧
      ∃ tables : Registry, tables.Tidy ∧ text = tables.state.compact

variable {steps : List (Nat × Request)} {b : Builds}

theorem registries_set (b : Builds) (number : Nat) (r : Registry) (other : Nat) :
    (b.set number r).registries other = if other = number then r else b.registries other :=
  Function.update_apply b.registries number r other

theorem registries_set_self (b : Builds) (number : Nat) (r : Registry) :
    (b.set number r).registries number = r :=
  (registries_set b number r number).trans (if_pos rfl)

/-- A request concerns one registry. -/
theorem registries_step_of_ne {number n : Nat} (h : n ≠ number) (request : Request) :
    (b.step (n, request)).registries number = b.registries number := by
  have hset (r : Registry) : (b.set n r).registries number = b.registries number :=
    (registries_set b n r number).trans (if_neg (Ne.symm h))
  cases request with
  | register path preferred => exact hset _
  | recordPermissions name mode => exact hset _
  | recordSymlink name target => exact hset _
  | restore entryId =>
    rw [step]
    split
    · exact hset _
    · rfl
  | persist entryId => rfl

theorem sound_start (steps : List (Nat × Request)) (names : Nat → List String) :
    (start names).Sound steps :=
  ⟨fun number => .ofExisting (names number), nofun⟩

namespace Sound

theorem set (h : b.Sound steps) (number : Nat) {r : Registry} (hr : r.Tidy) :
    (b.set number r).Sound steps := by
  refine ⟨fun other => ?_, h.stored⟩
  rw [registries_set]
  split
  · exact hr
  · exact h.tidy other

/-- **What is taken over** are tidy tables, or nothing. -/
theorem restore_cases (h : b.Sound steps) (r : Registry) (entryId : String) :
    r.restore .memory b.entries entryId = .ok none ∨
      ∃ tables : Registry, tables.Tidy ∧
        r.restore .memory b.entries entryId = .ok (some (r.withTables tables)) := by
  cases hentry : Json.member? b.entries (Registry.cacheKey entryId) with
  | none => exact .inl (Registry.restore_of_member?_eq_none hentry r)
  | some text =>
    obtain ⟨-, tables, htidy, rfl⟩ := h.stored hentry
    exact .inr ⟨tables, htidy, Registry.restore_of_member? htidy hentry r⟩

/-- **Every request leaves tables tidy.** -/
theorem step (h : b.Sound steps) {s : Nat × Request} (hs : s ∈ steps) : (b.step s).Sound steps := by
  obtain ⟨number, request⟩ := s
  have htidy := h.tidy number
  cases request with
  | register path preferred => exact h.set number (htidy.register path preferred)
  | recordPermissions name mode =>
    exact h.set number (htidy.recordPermissions name (UInt32.toNat_lt mode))
  | recordSymlink name target => exact h.set number (htidy.recordSymlink name target)
  | restore entryId =>
    obtain hnone | ⟨tables, htables, hsome⟩ := h.restore_cases (b.registries number) entryId
    · rw [Builds.step, hnone]
      exact h
    · rw [Builds.step, hsome]
      exact h.set number (htables.withTables _)
  | persist entryId =>
    refine ⟨h.tidy, fun {other text} htext => ?_⟩
    replace htext := (Json.member?_setMember b.entries _ _ _).symm.trans htext
    split at htext
    · rename_i hkey
      obtain rfl := Registry.cacheKey_inj.1 hkey
      exact ⟨⟨number, hs⟩, _, htidy, (Option.some.inj htext).symm⟩
    · exact h.stored htext

end Sound

theorem sound_run (h : b.Sound steps) {more : List (Nat × Request)} (hmore : more ⊆ steps) :
    (b.run more).Sound steps := by
  induction more generalizing b with
  | nil => exact h
  | cons s more ih =>
    rw [List.cons_subset] at hmore
    exact ih (h.step hmore.1) hmore.2

/-- One request: a name that has its last record goes on to have it. -/
theorem holds_step {number n : Nat} {name : String} {request : Request} {before : Option Record}
    (hbefore : ∀ v, before = some v → (b.registries number).Holds name v) (v : Record)
    (hv : (if n = number then b.noted number name before request else before) = some v) :
    ((b.step (n, request)).registries number).Holds name v := by
  by_cases hn : n = number
  · subst hn
    rw [if_pos rfl] at hv
    cases request with
    | register path preferred =>
      rw [step, registries_set_self]
      exact (hbefore v hv).register path preferred
    | recordPermissions other mode =>
      rw [noted] at hv
      rw [step, registries_set_self]
      split at hv
      · rename_i heq
        obtain rfl := heq
        obtain rfl := Option.some.inj hv
        exact .ofPermissions _ other _
      · rename_i hne
        exact (hbefore v hv).recordPermissions hne _
    | recordSymlink other target =>
      rw [noted] at hv
      rw [step, registries_set_self]
      split at hv
      · rename_i heq
        obtain rfl := heq
        obtain rfl := Option.some.inj hv
        exact .ofSymlink _ other target
      · rename_i hne
        exact (hbefore v hv).recordSymlink hne target
    | restore entryId =>
      rw [noted] at hv
      rw [step]
      split at hv
      · cases hv
      · rename_i hnone
        exact hbefore v hv
    | persist entryId => exact hbefore v hv
  · rw [if_neg hn] at hv
    rw [registries_step_of_ne hn]
    exact hbefore v hv

/-- **A name has the record it was given last.** -/
theorem holds_run {number : Nat} {name : String} {before : Option Record}
    (hbefore : ∀ v, before = some v → (b.registries number).Holds name v)
    {more : List (Nat × Request)} {v : Record}
    (hv : b.lastNoted number name before more = some v) :
    ((b.run more).registries number).Holds name v := by
  induction more generalizing b before with
  | nil => exact hbefore v hv
  | cons s more ih => exact ih (holds_step hbefore) hv

/-- **The tables of registries survive.** After any requests to builds with one cache, no
name is both a file and a link, and each has the record it was given last. Whatever else
the cache holds or is given for other entries, what a registry hands on is taken over by
any other in full, and handing it on again changes nothing. Nothing is taken over for an
entry that nothing was handed on for, and a registry that cannot take over what is stored
stays as it is. -/
theorem tables_survive (names : Nat → List String) (steps : List (Nat × Request)) :
    let b := (start names).run steps
    (∀ number name, (b.registries number).permissions? name = none ∨
      (b.registries number).symlink? name = none) ∧
    (∀ number name v, (start names).lastNoted number name none steps = some v →
      (b.registries number).Holds name v) ∧
    (∀ number entries entryId handed (r : Registry), (∀ p ∈ handed, p.1 ≠ entryId) →
      let stored := (b.registries number).persist .memory entries entryId
      let later := Registry.persistAll stored.kept handed
      let restored := r.withTables (b.registries number)
      stored.failure = none ∧
      r.restore .memory later entryId = .ok (some restored) ∧
      (restored.persist .memory later entryId).kept = later) ∧
    (∀ entryId, (∀ number, (number, .persist entryId) ∉ steps) →
      ∀ r : Registry, r.restore .memory b.entries entryId = .ok none) ∧
    (∀ number entries entryId,
      (∀ r, (b.registries number).restore .memory entries entryId ≠ .ok (some r)) →
      (Builds.mk b.registries entries).step (number, .restore entryId) =
        ⟨b.registries, entries⟩) := by
  intro b
  have hsound : b.Sound steps := sound_run (sound_start steps names) (List.Subset.refl steps)
  refine ⟨fun number => (hsound.tidy number).apart, ?_, ?_, ?_, ?_⟩
  · intro number name v hv
    refine holds_run (fun v hnone => ?_) hv
    cases hnone
  · intro number entries entryId handed r hhanded stored later restored
    have htidy := hsound.tidy number
    have hlater : Json.member? later (Registry.cacheKey entryId) =
        some (b.registries number).state.compact :=
      (Registry.member?_persistAll hhanded _).trans
        ((Json.member?_setMember entries _ _ _).trans (if_pos rfl))
    exact ⟨rfl, Registry.restore_of_member? htidy hlater r,
      Json.setMember_of_member?_eq_some hlater⟩
  · intro entryId hnever r
    refine Registry.restore_of_member?_eq_none ?_ r
    rw [Option.eq_none_iff_forall_ne_some]
    intro text htext
    obtain ⟨⟨number, hmem⟩, -⟩ := hsound.stored htext
    exact hnever number hmem
  · intro number entries entryId hfails
    rw [step]
    split
    · rename_i r hsome
      exact absurd hsome (hfails r)
    · rfl

/-- A name with a quote and a line break, first a file and then a link: another registry
takes over the link, and nothing for another entry. -/
theorem tables_survive_quoted :
    let b := (start fun _ => ["index.js"]).run
      [(0, .recordPermissions "a\"\n" 33188), (0, .recordSymlink "a\"\n" "b\\"),
        (0, .persist "entry")]
    (b.registries 0).Holds "a\"\n" (.link "b\\") ∧
    Registry.restore .memory ((b.registries 0).persist .memory [] "entry").kept "entry" default =
      .ok (some (Registry.withTables default (b.registries 0))) ∧
    Registry.restore .memory b.entries "other" default = .ok none := by
  intro b
  obtain ⟨-, hholds, hsurvives, hnever, -⟩ := tables_survive (fun _ => ["index.js"])
    [(0, .recordPermissions "a\"\n" 33188), (0, .recordSymlink "a\"\n" "b\\"),
      (0, .persist "entry")]
  exact ⟨hholds 0 _ _ (by decide), (hsurvives 0 [] "entry" [] default nofun).2.1,
    hnever "other" (by simp) default⟩

end Builds

end ModuleAssets
