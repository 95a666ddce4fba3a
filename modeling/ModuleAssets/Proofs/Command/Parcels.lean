import ModuleAssets.Command.Run
import ModuleAssets.Proofs.Files.LastName
/-!
# Parcels — what is put into the output directory, one after the other

A parcel is delivered to its place, and stays there as long as nothing later is put at that
place and no link on the way is lost (`Parcel.isAt_of_stays`). The parcels of jobs are their
modules (`Progress.traced_run`). Modules of different names go to different places, unless
a link stands at the path of one of them (`Progress.placed_apart`).
-/

namespace ModuleAssets

/-! ## Parcels -/

/-- Something for the output directory. -/
inductive Parcel where
  | file (path : String) (content : ByteArray) (mode : Option Nat)
  | link (path target : String)

namespace Parcel

instance : DecidableEq Parcel
  | file path content mode, file path' content' mode' =>
    decidable_of_iff (path = path' ∧ content.data.toList = content'.data.toList ∧ mode = mode')
      (by rw [file.injEq, Array.toList_inj, ByteArray.ext_iff])
  | link path target, link path' target' =>
    decidable_of_iff (path = path' ∧ target = target') (by rw [link.injEq])
  | file .., link .. => isFalse nofun
  | link .., file .. => isFalse nofun

/-- Where it goes. -/
def path : Parcel → String
  | file path _ _ => path
  | link path _ => path

/-- A file goes to where links lead, a link takes the place of another. -/
def follows : Parcel → Bool
  | file .. => true
  | link .. => false

/-- Puts it there. -/
def deliver (parcel : Parcel) (t : FileTree) : Delivered :=
  match parcel with
  | file path content mode => t.deliverAsset path content mode
  | link path target => t.deliverLink path target

/-- The place where it is put, if there is one. -/
def place? (parcel : Parcel) (t : FileTree) : Option (List String) :=
  (t.makeParent parcel.path).files.placeOf? parcel.follows parcel.path

/-- The parcel is where its path leads. -/
def IsAt (parcel : Parcel) (t : FileTree) : Prop :=
  match parcel with
  | file path content mode => ∃ bits, t.target path = .ok (.file content bits) ∧
      ∀ m, mode = some m → bits = m % 0o10000
  | link path target => t.entry path = .ok (.link target)

/-- Puts one parcel after the other, whether or not this works. -/
def deliverAll (parcels : List Parcel) (t : FileTree) : FileTree :=
  parcels.foldl (fun t parcel => (parcel.deliver t).files) t

/-- The places where parcels are put, one after the other. -/
def places : List Parcel → FileTree → List (List String)
  | [], _ => []
  | parcel :: rest, t => (parcel.place? t).toList ++ places rest (parcel.deliver t).files

variable {parcel : Parcel} {parcels more : List Parcel} {t t' : FileTree}

theorem deliverAll_append (parcels more : List Parcel) (t : FileTree) :
    deliverAll (parcels ++ more) t = deliverAll more (deliverAll parcels t) :=
  List.foldl_append

theorem deliverAll_cons (parcel : Parcel) (more : List Parcel) (t : FileTree) :
    deliverAll (parcel :: more) t = deliverAll more (parcel.deliver t).files :=
  List.foldl_cons ..

/-- **One parcel** concerns one place. -/
theorem stays_deliver (parcel : Parcel) (t : FileTree) :
    FileTree.Stays (parcel.place? t).toList t (parcel.deliver t).files := by
  cases parcel with
  | file path content mode => exact t.stays_deliverAsset path content mode
  | link path target => exact t.stays_deliverLink path target

theorem places_append (parcels more : List Parcel) (t : FileTree) :
    places (parcels ++ more) t = places parcels t ++ places more (deliverAll parcels t) := by
  induction parcels generalizing t with
  | nil => rfl
  | cons parcel rest ih => rw [List.cons_append, places, places, ih, List.append_assoc]; rfl

theorem exists_of_mem_places {place : List String} (h : place ∈ places parcels t) :
    ∃ early parcel late, parcels = early ++ parcel :: late ∧
      parcel.place? (deliverAll early t) = some place := by
  induction parcels generalizing t with
  | nil => cases h
  | cons first rest ih =>
    obtain h | h := List.mem_append.1 h
    · exact ⟨[], first, rest, rfl, Option.mem_toList.1 h⟩
    · obtain ⟨early, parcel, late, rfl, hplace⟩ := ih h
      exact ⟨first :: early, parcel, late, rfl, hplace⟩

/-- **All parcels** concern their places. -/
theorem stays_deliverAll (parcels : List Parcel) (t : FileTree) :
    FileTree.Stays (places parcels t) t (deliverAll parcels t) := by
  induction parcels generalizing t with
  | nil => exact .refl t
  | cons parcel rest ih => exact (stays_deliver parcel t).trans (ih (parcel.deliver t).files)

/-- What a parcel puts down. -/
def Holds (parcel : Parcel) (n : Node) : Prop :=
  match parcel with
  | file _ content mode => ∃ bits, n = .file content bits ∧ ∀ m, mode = some m → bits = m % 0o10000
  | link _ target => n = .link target

theorem Holds.not_directory {n : Node} (h : parcel.Holds n) : ∀ entries, n ≠ .directory entries := by
  cases parcel with
  | file path content mode =>
    obtain ⟨bits, rfl, -⟩ := h
    exact fun _ => nofun
  | link path target =>
    obtain rfl := h
    exact fun _ => nofun

theorem Holds.not_isLink {n : Node} (h : parcel.Holds n) (hfollow : parcel.follows = true) :
    ¬n.IsLink := by
  cases parcel with
  | file path content mode =>
    obtain ⟨bits, rfl, -⟩ := h
    exact Node.not_isLink_file content bits
  | link path target => cases hfollow

theorem isAt_of_ofPath {n : Node} {place : List String} (h : parcel.Holds n)
    (harrival : Arrival.ofPath t.root parcel.follows parcel.path = .ok (.found place))
    (hat : t.root.at? place = some n) : parcel.IsAt t := by
  have hnode : t.node parcel.follows parcel.path = .ok n := by
    rw [FileTree.node, harrival]
    dsimp only
    rw [hat]
  cases parcel with
  | file path content mode =>
    obtain ⟨bits, rfl, hmode⟩ := h
    exact ⟨bits, hnode, hmode⟩
  | link path target =>
    obtain rfl := h
    exact hnode

/-- **A parcel that is delivered is where its path leads.** -/
theorem arrives (h : (parcel.deliver t).failure = none) :
    ∃ place n, Arrival.ofPath (parcel.deliver t).files.root parcel.follows parcel.path =
        .ok (.found place) ∧
      (parcel.deliver t).files.root.at? place = some n ∧ parcel.Holds n := by
  cases parcel with
  | file path content mode =>
    obtain ⟨place, bits, harrival, hat, hmode⟩ := FileTree.deliverAsset_arrives h
    exact ⟨place, _, harrival, hat, bits, rfl, hmode⟩
  | link path target =>
    obtain ⟨place, harrival, hat⟩ := FileTree.deliverLink_arrives h
    exact ⟨place, _, harrival, hat, rfl⟩

/-- Later changes at these places leave the parcel alone: none is its own place, and no
link is lost there. -/
def Spared (parcel : Parcel) (t : FileTree) (later : List (List String)) (t' : FileTree) : Prop :=
  (∀ place, t.placeOf? parcel.follows parcel.path = some place → place ∉ later) ∧
    ∀ place ∈ later, ∀ text, t.root.at? place = some (.link text) →
      t'.root.at? place = some (.link text)

/-- **A parcel that is spared stays where it is.** -/
theorem isAt_of_stays {later : List (List String)} (h : (parcel.deliver t).failure = none)
    (hstays : FileTree.Stays later (parcel.deliver t).files t')
    (hspared : parcel.Spared (parcel.deliver t).files later t') : parcel.IsAt t' := by
  obtain ⟨hplace, hlinks⟩ := hspared
  obtain ⟨place, n, harrival, hat, hholds⟩ := arrives h
  -- what is at the place stays, and so does every link on the way to it
  have hother := hplace _ (FileTree.placeOf?_eq harrival)
  have hleaf := hholds.not_directory
  have hlook := hstays.others hother ((Node.look_eq_leaf hleaf).2 hat)
  have hkeeps := hstays.keeps fun place hmem text hlook =>
    Node.look_eq_link.2 (hlinks place hmem text (Node.look_eq_link.1 hlook))
  exact isAt_of_ofPath hholds (FileTree.arrives hkeeps harrival hlook hholds.not_isLink)
    ((Node.look_eq_leaf hleaf).1 hlook)

/-! ### Modules -/

/-- The parcel is a file whose mode is not told. -/
def IsModule (parcel : Parcel) : Prop :=
  ∃ path content, parcel = .file path content none

theorem deliver_module (path : String) (content : ByteArray) (t : FileTree) :
    (Parcel.file path content none).deliver t = t.deliverFile path content := by
  rw [Parcel.deliver, FileTree.deliverAsset, Delivered.andThen]
  split
  · rename_i hdone
    exact congrArg (Delivered.mk (t.deliverFile path content).files) hdone.symm
  · rfl

theorem evolves_deliverAll (hmodules : ∀ parcel ∈ parcels, parcel.IsModule) (t : FileTree) :
    FileTree.Evolves t (deliverAll parcels t) := by
  induction parcels generalizing t with
  | nil => exact .of_stays (.refl t)
  | cons parcel rest ih =>
    obtain ⟨path, content, rfl⟩ := hmodules _ List.mem_cons_self
    have hfirst := t.evolves_deliverFile path content
    rw [← deliver_module] at hfirst
    exact hfirst.trans (ih (fun other hother => hmodules other (List.mem_cons_of_mem _ hother)) _)

/-! ### Deliveries that stop at the first failure -/

/-- Puts parcels up to the first that fails. -/
def deliverEach (parcels : List Parcel) (done : Delivered) : Delivered :=
  parcels.foldl (fun done parcel => done.andThen parcel.deliver) done

/-- One of some parcels is delivered when those before it have been put. -/
def Delivers (parcels : List Parcel) (t : FileTree) (parcel : Parcel) : Prop :=
  ∃ early late, parcels = early ++ parcel :: late ∧
    (parcel.deliver (deliverAll early t)).failure = none

theorem Delivers.append (h : Delivers parcels t parcel) (more : List Parcel) :
    Delivers (parcels ++ more) t parcel := by
  obtain ⟨early, late, rfl, hdone⟩ := h
  exact ⟨early, late ++ more, by rw [List.append_assoc, List.cons_append], hdone⟩

theorem Delivers.after (h : Delivers more (deliverAll parcels t) parcel) :
    Delivers (parcels ++ more) t parcel := by
  obtain ⟨early, late, rfl, hdone⟩ := h
  refine ⟨parcels ++ early, late, (List.append_assoc ..).symm, ?_⟩
  rwa [deliverAll_append]

theorem deliverEach_of_failure {done : Delivered} {e : WriteError}
    (h : done.failure = some e) (parcels : List Parcel) : deliverEach parcels done = done := by
  induction parcels with
  | nil => rfl
  | cons parcel rest ih =>
    rw [deliverEach, List.foldl_cons, Delivered.andThen, h]
    exact ih

theorem deliverEach_append (parcels more : List Parcel) (done : Delivered) :
    deliverEach (parcels ++ more) done = deliverEach more (deliverEach parcels done) :=
  List.foldl_append

theorem andThen_deliverEach (parcels : List Parcel) (done : Delivered) :
    (done.andThen fun t => deliverEach parcels ⟨t, none⟩) = deliverEach parcels done := by
  obtain ⟨files, failure⟩ := done
  cases failure with
  | none => rfl
  | some e => exact (deliverEach_of_failure rfl parcels).symm

/-- **If none fails**, each is delivered. -/
theorem deliverEach_done (h : (deliverEach parcels ⟨t, none⟩).failure = none) :
    (deliverEach parcels ⟨t, none⟩).files = deliverAll parcels t ∧
      ∀ parcel ∈ parcels, Delivers parcels t parcel := by
  induction parcels generalizing t with
  | nil => exact ⟨rfl, fun _ => nofun⟩
  | cons first rest ih =>
    have hfirst : (first.deliver t).failure = none := by
      cases hfailure : (first.deliver t).failure with
      | none => rfl
      | some e =>
        have hstuck : deliverEach (first :: rest) ⟨t, none⟩ = first.deliver t :=
          deliverEach_of_failure hfailure rest
        rw [hstuck, hfailure] at h
        cases h
    have hrest : deliverEach (first :: rest) ⟨t, none⟩ =
        deliverEach rest ⟨(first.deliver t).files, none⟩ :=
      congrArg (deliverEach rest) (congrArg (Delivered.mk (first.deliver t).files) hfirst)
    rw [hrest] at h ⊢
    obtain ⟨hfiles, hdelivers⟩ := ih h
    refine ⟨hfiles, fun parcel hparcel => ?_⟩
    obtain rfl | hparcel := List.mem_cons.1 hparcel
    · exact ⟨[], rest, rfl, hfirst⟩
    · have hrest : Delivers rest (deliverAll [first] t) parcel := hdelivers parcel hparcel
      exact hrest.after

end Parcel

/-! ## Jobs -/

namespace Job

/-- What the next step of a job delivers. -/
def parcel? (w : JobSetting) (job : Job) : Option Parcel :=
  match job.stage with
  | .relocated m => some (.file (Location.below w.outDir (outputName job.path)) m.code.toUTF8 none)
  | _ => none

theorem isPlain_outputName {path name : String} (h : Location.lastName? path = some name) :
    Path.IsPlain (outputName path).toList := by
  obtain ⟨hne, hdot, hup, hslash⟩ := Location.isPlain_of_lastName? h
  unfold outputName
  rw [h, Option.getD_some]
  dsimp only
  split
  · have hchars : (name ++ ".js").toList = name.toList ++ ['.', 'j', 's'] := String.toList_append
    rw [hchars]
    refine ⟨List.append_ne_nil_of_right_ne_nil _ (List.cons_ne_nil _ _), fun heq => ?_,
      fun heq => ?_, fun hmem => ?_⟩
    · have hlength := congrArg List.length heq
      simp at hlength
    · have hlength := congrArg List.length heq
      simp at hlength
    · obtain hmem | hmem := List.mem_append.1 hmem
      · exact hslash hmem
      · exact absurd hmem (by decide)
  · exact ⟨hne, hdot, hup, hslash⟩

/-- **A job delivers its module** as a file, once that is relocated. -/
theorem parcel?_eq_some {w : JobSetting} {job : Job} {parcel : Parcel}
    (h : job.parcel? w = some parcel) : ∃ m, job.stage = .relocated m ∧
      parcel.path = Location.below w.outDir (outputName job.path) ∧
      ∃ path, parcel = .file path m.code.toUTF8 none := by
  unfold parcel? at h
  split at h
  · rename_i m hstage
    obtain rfl := Option.some.inj h
    exact ⟨m, hstage, by rw [Parcel.path], _, rfl⟩
  · cases h

/-- **A step of a job** changes files only by what it delivers. -/
theorem files_step (w : JobSetting) (bench : Workbench) (job : Job) :
    (job.step w bench).2.files = Parcel.deliverAll (job.parcel? w).toList bench.files := by
  obtain ⟨name, path, stage⟩ := job
  cases stage with
  | waiting =>
    rw [step]
    dsimp only
    split
    · rfl
    · rfl
  | read content => rfl
  | relocated m =>
    rw [step, parcel?, Option.toList, Parcel.deliverAll, List.foldl_cons, List.foldl_nil]
    dsimp only
    rw [Parcel.deliver_module]
  | finished result => rfl

end Job

namespace Progress

variable {w : JobSetting} {p : Progress} {order more : List Nat}

/-- What jobs deliver while they take their steps. -/
def parcels (w : JobSetting) (p : Progress) : List Nat → List Parcel
  | [] => []
  | number :: rest =>
    (p.jobs[number]?.bind (Job.parcel? w)).toList ++ (p.step w number).parcels w rest

theorem run_append (w : JobSetting) (p : Progress) (order more : List Nat) :
    p.run w (order ++ more) = (p.run w order).run w more :=
  List.foldl_append

theorem parcels_append (w : JobSetting) (p : Progress) (order more : List Nat) :
    p.parcels w (order ++ more) = p.parcels w order ++ (p.run w order).parcels w more := by
  induction order generalizing p with
  | nil => rfl
  | cons number rest ih =>
    rw [List.cons_append, parcels, parcels, ih, List.append_assoc]
    rfl

theorem files_step (w : JobSetting) (p : Progress) (number : Nat) :
    (p.step w number).bench.files =
      Parcel.deliverAll (p.jobs[number]?.bind (Job.parcel? w)).toList p.bench.files := by
  rw [step]
  cases p.jobs[number]? with
  | none => rfl
  | some job => exact job.files_step w p.bench

/-- **The files after jobs** are what they deliver made of those before. -/
theorem files_run (w : JobSetting) (p : Progress) (order : List Nat) :
    (p.run w order).bench.files = Parcel.deliverAll (p.parcels w order) p.bench.files := by
  induction order generalizing p with
  | nil => rfl
  | cons number rest ih =>
    rw [parcels, Parcel.deliverAll_append, ← files_step]
    exact ih (p.step w number)

/-- A module of this content was read and relocated in the course of some steps, to this
result. -/
def Relocates (w : JobSetting) (p : Progress) (order : List Nat) (path : String)
    (m : Relocated) : Prop :=
  ∃ first second content, first ++ second <+: order ∧
    (p.run w first).bench.files.read path = .ok content ∧
    let bench := (p.run w (first ++ second)).bench
    (w.build.relocate bench.files .open_ path content bench.output).result = .ok m

/-- How a job got where it is. -/
def Traced (w : JobSetting) (p : Progress) (order : List Nat) (job : Job) : Prop :=
  match job.stage with
  | .waiting => True
  | .read content => ∃ first, first <+: order ∧
      (p.run w first).bench.files.read job.path = .ok content
  | .relocated m => p.Relocates w order job.path m
  | .finished (.error _) => True
  | .finished (.ok written) =>
    written.path = Location.below w.outDir (Job.outputName job.path) ∧
      ∃ m, p.Relocates w order job.path m ∧
        Parcel.Delivers (p.parcels w order) p.bench.files
          (.file written.path m.code.toUTF8 none)

theorem Relocates.mono {path : String} {m : Relocated} (h : p.Relocates w order path m)
    (more : List Nat) : p.Relocates w (order ++ more) path m := by
  obtain ⟨first, second, content, hprefix, hread, hresult⟩ := h
  exact ⟨first, second, content, hprefix.trans (List.prefix_append order more), hread, hresult⟩

theorem Traced.mono {job : Job} (h : p.Traced w order job) (more : List Nat) :
    p.Traced w (order ++ more) job := by
  obtain ⟨name, path, stage⟩ := job
  cases stage with
  | waiting => exact h
  | read content =>
    obtain ⟨first, hprefix, hread⟩ := h
    exact ⟨first, hprefix.trans (List.prefix_append order more), hread⟩
  | relocated m => exact Relocates.mono h more
  | finished result =>
    cases result with
    | error e => exact h
    | ok written =>
      obtain ⟨hpath, m, hm, hdelivers⟩ := h
      refine ⟨hpath, m, hm.mono more, ?_⟩
      rw [parcels_append]
      exact hdelivers.append _

/-- **One step** of a job is traced. -/
theorem traced_step {job : Job} (h : p.Traced w order job) {number : Nat}
    (hjob : (p.run w order).jobs[number]? = some job) :
    p.Traced w (order ++ [number]) (job.step w (p.run w order).bench).1 := by
  have hmono := h.mono [number]
  obtain ⟨name, path, stage⟩ := job
  cases stage with
  | waiting =>
    rw [Job.step]
    dsimp only
    split
    · trivial
    · rename_i content hread
      exact ⟨order, List.prefix_append order [number], hread⟩
  | read content =>
    obtain ⟨first, ⟨second, rfl⟩, hread⟩ := h
    rw [Job.step]
    dsimp only
    cases hresult : (w.build.relocate (p.run w (first ++ second)).bench.files .open_ path content
        (p.run w (first ++ second)).bench.output).result with
    | error e => trivial
    | ok m => exact ⟨first, second, content, List.prefix_append _ [number], hread, hresult⟩
  | relocated m =>
    rw [Job.step]
    dsimp only
    split
    · trivial
    · rename_i hdone
      rw [← Parcel.deliver_module, files_run] at hdone
      have hparcels : (p.run w order).parcels w [number] =
          [.file (Location.below w.outDir (Job.outputName path)) m.code.toUTF8 none] := by
        rw [parcels, hjob, Option.bind_some, Job.parcel?]
        rfl
      have hnow : Parcel.Delivers ((p.run w order).parcels w [number])
          (Parcel.deliverAll (p.parcels w order) p.bench.files)
          (.file (Location.below w.outDir (Job.outputName path)) m.code.toUTF8 none) :=
        ⟨[], [], hparcels, hdone⟩
      have hm : p.Relocates w (order ++ [number]) path m := hmono
      have hdelivers := hnow.after
      rw [← parcels_append] at hdelivers
      rw [Traced]
      dsimp only
      exact ⟨rfl, m, hm, hdelivers⟩
  | finished result => exact hmono

/-- A job keeps its module. -/
theorem module_step (w : JobSetting) (bench : Workbench) (job : Job) :
    ((job.step w bench).1.name, (job.step w bench).1.path) = (job.name, job.path) := by
  obtain ⟨name, path, stage⟩ := job
  cases stage with
  | waiting =>
    rw [Job.step]
    dsimp only
    split
    · rfl
    · rfl
  | read content => rfl
  | relocated m => rfl
  | finished result => rfl

/-- The modules of jobs stay what they are. -/
theorem modules_run (w : JobSetting) (p : Progress) (order : List Nat) :
    (p.run w order).jobs.map (fun job => (job.name, job.path)) =
      p.jobs.map fun job => (job.name, job.path) := by
  induction order generalizing p with
  | nil => rfl
  | cons number rest ih =>
    refine (ih (p.step w number)).trans ?_
    rw [step]
    cases hjob : p.jobs[number]? with
    | none => rfl
    | some job =>
      dsimp only
      rw [List.map_set, module_step]
      refine List.ext_getElem? fun i => ?_
      rw [List.getElem?_set]
      split
      · rename_i hi
        subst hi
        obtain ⟨hlength, -⟩ := List.getElem?_eq_some_iff.1 hjob
        rw [List.getElem?_map, hjob, List.length_map, if_pos hlength, Option.map_some]
      · rfl

/-- **All steps** of all jobs are traced. -/
theorem traced_run (hwait : ∀ job ∈ p.jobs, job.stage = .waiting) (order : List Nat) :
    ∀ job ∈ (p.run w order).jobs, p.Traced w order job := by
  induction order using List.reverseRecOn with
  | nil =>
    intro job hjob
    rw [Traced, hwait job hjob]
    trivial
  | append_singleton order number ih =>
    intro job hjob
    have hrun : p.run w (order ++ [number]) = (p.run w order).step w number :=
      run_append w p order [number]
    rw [hrun, step] at hjob
    cases hnumber : (p.run w order).jobs[number]? with
    | none =>
      rw [hnumber] at hjob
      exact (ih job hjob).mono [number]
    | some old =>
      rw [hnumber] at hjob
      obtain hsame | rfl := List.mem_or_eq_of_mem_set hjob
      · exact (ih job hsame).mono [number]
      · exact traced_step (ih old (List.mem_of_getElem? hnumber)) hnumber

/-! ### Modules apart -/

/-- **One parcel of jobs** among the others: the step that delivers it, and what is delivered
before and after. -/
theorem exists_step_of_split {early late : List Parcel} {parcel : Parcel}
    (h : p.parcels w order = early ++ parcel :: late) :
    ∃ before number after job, order = before ++ number :: after ∧
      p.parcels w before = early ∧ (p.run w before).jobs[number]? = some job ∧
      job.parcel? w = some parcel ∧ (p.run w (before ++ [number])).parcels w after = late := by
  induction order generalizing p early with
  | nil => exact absurd h.symm (List.append_ne_nil_of_right_ne_nil early (List.cons_ne_nil _ _))
  | cons number rest ih =>
    rw [parcels] at h
    cases hfirst : p.jobs[number]?.bind (Job.parcel? w) with
    | none =>
      rw [hfirst] at h
      obtain ⟨before, next, after, job, rfl, hearly, hjob, hparcel, hlate⟩ := ih h
      refine ⟨number :: before, next, after, job, rfl, ?_, hjob, hparcel, hlate⟩
      rw [parcels, hfirst, hearly]
      rfl
    | some first =>
      rw [hfirst] at h
      cases early with
      | nil =>
        obtain ⟨rfl, hlate⟩ := List.cons.inj h
        obtain ⟨job, hjob, hparcel⟩ := Option.bind_eq_some_iff.1 hfirst
        exact ⟨[], number, rest, job, rfl, rfl, hjob, hparcel, hlate⟩
      | cons e early =>
        obtain ⟨rfl, hrest⟩ := List.cons.inj h
        obtain ⟨before, next, after, job, rfl, hearly, hjob, hparcel, hlate⟩ := ih hrest
        refine ⟨number :: before, next, after, job, rfl, ?_, hjob, hparcel, hlate⟩
        rw [parcels, hfirst, hearly]
        rfl

/-- The job of a module is finished when that is delivered. -/
theorem finished_step {job : Job} {number : Nat} {m : Relocated}
    (hjob : p.jobs[number]? = some job) (hstage : job.stage = .relocated m) :
    ∃ job' result, (p.step w number).jobs[number]? = some job' ∧ job'.stage = .finished result := by
  obtain ⟨hlength, -⟩ := List.getElem?_eq_some_iff.1 hjob
  refine ⟨(job.step w p.bench).1, ?_⟩
  rw [step, hjob]
  dsimp only
  rw [List.getElem?_set_self hlength, Job.step, hstage]
  exact ⟨_, rfl, rfl⟩

/-- A job that is finished stays so. -/
theorem finished_run {job : Job} {number : Nat} {result : Except JobError Written}
    (hjob : p.jobs[number]? = some job) (hfinished : job.stage = .finished result)
    (order : List Nat) : (p.run w order).jobs[number]? = some job := by
  induction order generalizing p with
  | nil => exact hjob
  | cons other rest ih =>
    refine ih (p := p.step w other) ?_
    rw [step]
    cases hother : p.jobs[other]? with
    | none => exact hjob
    | some acting =>
      dsimp only
      by_cases hsame : other = number
      · subst hsame
        obtain rfl := Option.some.inj (hjob.symm.trans hother)
        obtain ⟨hlength, -⟩ := List.getElem?_eq_some_iff.1 hjob
        rw [List.getElem?_set_self hlength, Job.step, hfinished]
      · rw [List.getElem?_set_ne hsame, hjob]

/-- The names of the modules that are written. -/
def outputNames (p : Progress) : List String :=
  p.jobs.map fun job => Job.outputName job.path

theorem outputNames_run (w : JobSetting) (p : Progress) (order : List Nat) :
    (p.run w order).outputNames = p.outputNames := by
  have hnames (p : Progress) : p.outputNames =
      (p.jobs.map fun job => (job.name, job.path)).map fun module => Job.outputName module.2 := by
    rw [outputNames, List.map_map, Function.comp_def]
  rw [hnames, hnames, modules_run]

theorem getElem?_outputNames {number : Nat} {job : Job}
    (hjob : (p.run w order).jobs[number]? = some job) :
    p.outputNames[number]? = some (Job.outputName job.path) := by
  rw [← outputNames_run w p order, outputNames, List.getElem?_map, hjob, Option.map_some]

/-- The output of a job that was relocated has a name, since its module was read. -/
theorem isPlain_outputName (hwait : ∀ job ∈ p.jobs, job.stage = .waiting) {number : Nat} {job : Job}
    {m : Relocated} (hjob : (p.run w order).jobs[number]? = some job)
    (hstage : job.stage = .relocated m) : Path.IsPlain (Job.outputName job.path).toList := by
  have htraced := traced_run hwait order job (List.mem_of_getElem? hjob)
  rw [Traced, hstage] at htraced
  obtain ⟨first, second, content, -, hread, -⟩ := htraced
  obtain ⟨name, hname⟩ := FileTree.lastName?_of_read hread
  exact Job.isPlain_outputName hname

/-- **A later parcel of jobs** has another name. -/
theorem names_differ (hwait : ∀ job ∈ p.jobs, job.stage = .waiting) (hnames : p.outputNames.Nodup)
    {early late : List Parcel} {parcel other : Parcel}
    (h : p.parcels w order = early ++ parcel :: late) (hother : other ∈ late) :
    ∃ name ∈ p.outputNames, ∃ name' ∈ p.outputNames, name ≠ name' ∧
      Path.IsPlain name.toList ∧ Path.IsPlain name'.toList ∧
      parcel.path = Location.below w.outDir name ∧ other.path = Location.below w.outDir name' := by
  obtain ⟨before, number, after, job, rfl, -, hjob, hparcel, hlate⟩ := exists_step_of_split h
  obtain ⟨between, rest, rfl⟩ := List.append_of_mem hother
  obtain ⟨before', number', after', job', rfl, -, hjob', hother', -⟩ := exists_step_of_split hlate
  obtain ⟨m, hstage, hpath, -⟩ := Job.parcel?_eq_some hparcel
  obtain ⟨m', hstage', hpath', -⟩ := Job.parcel?_eq_some hother'
  -- the first job is finished by now, so the second is another one
  have hnumber : number ≠ number' := by
    rintro rfl
    obtain ⟨last, result, hlast, hfinished⟩ := finished_step (w := w) hjob hstage
    have hrun : p.run w (before ++ [number]) = (p.run w before).step w number :=
      run_append w p before [number]
    rw [hrun, finished_run hlast hfinished before'] at hjob'
    rw [Option.some.inj hjob', hstage'] at hfinished
    cases hfinished
  rw [← run_append] at hjob'
  have hname := getElem?_outputNames hjob
  have hname' := getElem?_outputNames hjob'
  have hdiffer : Job.outputName job.path ≠ Job.outputName job'.path := by
    intro heq
    obtain ⟨hlength, -⟩ := List.getElem?_eq_some_iff.1 hname
    have hsame : p.outputNames[number]? = p.outputNames[number']? := by
      rw [hname, hname', heq]
    exact hnumber ((List.getElem?_inj hlength hnames).1 hsame)
  exact ⟨_, List.mem_of_getElem? hname, _, List.mem_of_getElem? hname', hdiffer,
    isPlain_outputName hwait hjob hstage, isPlain_outputName hwait hjob' hstage', hpath, hpath'⟩

theorem isModule_of_mem {parcel : Parcel} (h : parcel ∈ p.parcels w order) : parcel.IsModule := by
  obtain ⟨early, late, hsplit⟩ := List.append_of_mem h
  obtain ⟨_, _, _, job, -, -, -, hparcel, -⟩ := exists_step_of_split hsplit
  obtain ⟨m, -, -, path, rfl⟩ := Job.parcel?_eq_some hparcel
  exact ⟨path, _, rfl⟩

/-- **Later parcels of jobs** go to other places, unless a link stands at the path of one of the
modules in the end. -/
theorem placed_apart (hwait : ∀ job ∈ p.jobs, job.stage = .waiting) (hnames : p.outputNames.Nodup)
    (hlinks : ∀ name ∈ p.outputNames, ∀ text,
      (p.run w order).bench.files.entry (Location.below w.outDir name) ≠ .ok (.link text))
    {early late : List Parcel} {parcel : Parcel} (h : p.parcels w order = early ++ parcel :: late)
    (hdone : (parcel.deliver (Parcel.deliverAll early p.bench.files)).failure = none)
    {place : List String}
    (hplace : (parcel.deliver (Parcel.deliverAll early p.bench.files)).files.placeOf?
      parcel.follows parcel.path = some place) :
    place ∉ Parcel.places late (parcel.deliver (Parcel.deliverAll early p.bench.files)).files := by
  intro hmem
  obtain ⟨between, other, rest, rfl, hother⟩ := Parcel.exists_of_mem_places hmem
  obtain ⟨name, hname, name', hname', hdiffer, hplain, hplain', hpath, hpath'⟩ :=
    names_differ hwait hnames h (List.mem_append_right _ List.mem_cons_self)
  have hmodules : ∀ q ∈ parcel :: (between ++ other :: rest), q.IsModule := fun q hq =>
    isModule_of_mem (h ▸ List.mem_append_right early hq)
  have hlast : (p.run w order).bench.files = Parcel.deliverAll (between ++ other :: rest)
      (parcel.deliver (Parcel.deliverAll early p.bench.files)).files := by
    rw [files_run, h, Parcel.deliverAll_append, Parcel.deliverAll_cons]
  rw [hlast, Parcel.deliverAll_append, Parcel.deliverAll_cons] at hlinks
  generalize Parcel.deliverAll early p.bench.files = before at hdone hplace hother hlinks
  -- the files when the second module is written, and what became of them in the end
  have hbetween := Parcel.evolves_deliverAll
    (fun q hq => hmodules q (List.mem_cons_of_mem _ (List.mem_append_left _ hq)))
    (parcel.deliver before).files
  have hmodulesRest : ∀ q ∈ rest, q.IsModule := fun q hq =>
    hmodules q (List.mem_cons_of_mem _ (List.mem_append_right _ (List.mem_cons_of_mem _ hq)))
  have hrest := Parcel.evolves_deliverAll hmodulesRest
  generalize Parcel.deliverAll between (parcel.deliver before).files = now at hother hbetween hlinks
  obtain ⟨path, content, rfl⟩ := hmodules parcel List.mem_cons_self
  obtain ⟨path', content', rfl⟩ := hmodules other
    (List.mem_cons_of_mem _ (List.mem_append_right _ List.mem_cons_self))
  rw [Parcel.path] at hpath hpath'
  subst hpath hpath'
  have hfrom := (now.evolves_makeParent_deliverFile (Location.below w.outDir name') content').trans
    (hrest _)
  rw [← Parcel.deliver_module] at hfrom
  obtain ⟨here, n, harrival, hat, bits, rfl, -⟩ := Parcel.arrives hdone
  rw [FileTree.placeOf?_eq harrival] at hplace
  obtain rfl := Option.some.inj hplace
  have hto := hbetween.trans (.of_stays (now.stays_makeParent (Location.below w.outDir name')))
  exact hto.placeOf?_ne hfrom hplain hplain' hdiffer harrival hat (hlinks name hname)
    (hlinks name' hname') hother

end Progress

end ModuleAssets
