import ModuleAssets.Proofs.Evaluate.Numeric
import ModuleAssets.Proofs.Evaluate.Running
import ModuleAssets.Proofs.Json.Members
import ModuleAssets.Proofs.Path.Accessors
/-!
# Shown values — what a known value says of a datum

A known value shows a datum if it is that datum, as far as the value tells: of
an object it tells some members. What is known of conversions, comparisons,
operators and members of values holds of the data that they show.
-/

namespace ModuleAssets.Language

open Text (units unitsOf)

/-- The value tells what the datum is. -/
inductive Shows : Value → Datum → Prop
  | undefined : Shows .undefined .undefined
  | null : Shows .null .null
  | bool (b : Bool) : Shows (.bool b) (.bool b)
  | number (x : Float) : Shows (.number x) (.number x)
  | text (s : String) : Shows (.text s) (.ofString s)
  | array {items : List Value} {ds : List Datum} (h : List.Forall₂ Shows items ds) :
    Shows (.array items) (.array ds)
  | object {members : List (String × Value)} {own : List (List Nat × Datum)} (told : String → Datum)
    (hown : ∀ key v, Json.member? members key = some v → own.lookup (units key) = some (told key))
    (h : ∀ key v, Json.member? members key = some v → Shows v (told key)) :
    Shows (.object members) (.object own)
  | builtin (b : Builtin) : Shows (.builtin b) (.facility b)

variable {v w z : Value} {d e : Datum}

theorem units_eq_iff {s t : String} : units s = units t ↔ s = t := by
  rw [units, units, Text.units_inj, String.toList_inj]

theorem units_append (s t : String) : units (s ++ t) = units s ++ units t := by
  rw [units, String.toList_append, List.flatMap_append]
  rfl

namespace Shows

/-! ## Kinds -/

theorem isNullish_eq (h : Shows v d) : d.isNullish = v.isNullish := by
  cases h <;> rfl

theorem isPrimitive_eq (h : Shows v d) : d.isPrimitive = v.isPrimitive := by
  cases h <;> rfl

theorem typeName?_eq (h : Shows v d) : d.typeName? = some v.typeName := by
  cases h <;> rfl

theorem isText_iff (h : Shows v d) : d.isText ↔ ∃ s, v = .text s := by
  cases h <;> simp [Datum.isText, Datum.ofString]

theorem truthy?_eq (h : Shows v d) : d.truthy? = some v.truthy := by
  cases h with
  | text s =>
    have hempty : units s = [] ↔ s = "" := @units_eq_iff s ""
    show some (units s != []) = some (s != "")
    rw [Option.some_inj, Bool.eq_iff_iff, bne_iff_ne, bne_iff_ne, Ne, Ne, hempty]
  | _ => rfl

/-! ## Conversions -/

theorem toText (h : Shows v d) {s : String} (hs : v.toText? = some s) : ToText d (units s) := by
  cases h with
  | undefined =>
    obtain rfl := Option.some.inj hs
    exact .undefined
  | null =>
    obtain rfl := Option.some.inj hs
    exact .null
  | bool b =>
    obtain rfl := Option.some.inj hs
    exact .bool b
  | number x => exact .number (Double.writes_of_numberText? hs)
  | text t =>
    obtain rfl := Option.some.inj hs
    exact .text _
  | array => cases hs
  | object => cases hs
  | builtin => cases hs

theorem toNumber (h : Shows v d) {x : Float} (hx : v.toNumber? = some x)
    (hnext : ∀ s, v = .text s → nextLine ∉ s.toList) : ToNumber d x := by
  cases h with
  | undefined =>
    obtain rfl := Option.some.inj hx
    exact .undefined
  | null =>
    obtain rfl := Option.some.inj hx
    exact .null
  | bool b =>
    obtain rfl := Option.some.inj hx
    exact .bool b
  | number =>
    obtain rfl := Option.some.inj hx
    exact .number _
  | text t => exact .text (numberOf_of_numberOfText? hx (hnext t rfl))
  | array => cases hx
  | object => cases hx
  | builtin => cases hx

/-! ## Comparisons -/

theorem strictEquals?_eq (hv : Shows v d) (hw : Shows w e) {r : Bool}
    (h : v.strictEquals? w = some r) : d.strictEquals? e = some r := by
  cases hv with
  | text s =>
    cases hw with
    | text t =>
      obtain rfl := Option.some.inj h
      show some (units s == units t) = some (s == t)
      rw [Option.some_inj, Bool.eq_iff_iff, beq_iff_eq, beq_iff_eq, units_eq_iff]
    | _ => first | (obtain rfl := Option.some.inj h; rfl) | cases h
  | _ => cases hw <;> first | (obtain rfl := Option.some.inj h; rfl) | cases h

theorem looseEquals?_eq (hv : Shows v d) (hw : Shows w e) {r : Bool}
    (h : v.looseEquals? w = some r) : d.looseEquals? e = some r := by
  have hstrict := @strictEquals?_eq v w d e hv hw r
  rw [Datum.looseEquals?, hv.isNullish_eq, hw.isNullish_eq, hv.isPrimitive_eq, hw.isPrimitive_eq,
    hv.typeName?_eq, hw.typeName?_eq]
  rw [Value.looseEquals?] at h
  split at h
  · rename_i hprimitive
    rw [hprimitive, Bool.true_and]
    cases hnull : v.isNullish <;> cases hnull' : w.isNullish <;> simp only [hnull, hnull'] at h ⊢
    · split at h
      · rename_i hsame
        rw [beq_iff_eq] at hsame
        simpa [hsame] using hstrict h
      · cases h
    all_goals exact h
  · cases h

end Shows

/-- Units are compared as lists are. -/
theorem compareLists_iff (u v : List Nat) :
    (Text.compareLists u v = .lt ↔ u < v) ∧ (Text.compareLists u v = .gt ↔ v < u) := by
  induction u generalizing v with
  | nil => cases v <;> simp [Text.compareLists]
  | cons a u ih =>
    cases v with
    | nil => simp [Text.compareLists]
    | cons b v =>
      rw [Text.compareLists, List.cons_lt_cons_iff, List.cons_lt_cons_iff]
      obtain ⟨hlt, hgt⟩ := ih v
      rcases Nat.lt_trichotomy a b with hab | rfl | hab
      · simp [hab, Nat.lt_asymm hab, hab.ne']
      · simp [hlt, hgt]
      · simp [hab, Nat.lt_asymm hab, hab.ne']

/-- The order of two numbers, which there is none of if one is not a number. -/
def orderOf? (x y : Float) : Option Ordering :=
  if x < y then some .lt else if y < x then some .gt else if x == y then some .eq else none

theorem orderOf?_eq (x y : Float) :
    orderOf? x y = (Double.unpacked x).compare (Double.unpacked y) := by
  have hless := Double.lt_iff (x := x) (y := y)
  have hgreater := Double.gt_iff (x := x) (y := y)
  have hequal := Double.beq_iff (x := x) (y := y)
  rw [orderOf?, if_congr hless rfl rfl, if_congr hgreater rfl rfl, if_congr hequal rfl rfl]
  cases (Double.unpacked x).compare (Double.unpacked y) with
  | none => rfl
  | some o => cases o <;> rfl

theorem isNaN_or_iff (x y : Float) : (x.isNaN || y.isNaN) = true ↔ orderOf? x y = none := by
  rw [orderOf?_eq, Double.compare_eq_none_iff, Bool.or_eq_true, Double.isNaN_eq, Double.isNaN_eq]

theorem orderOf?_less (x y : Float) :
    (if x.isNaN || y.isNaN then none else some (decide (x < y))) =
      (orderOf? x y).map (· == .lt) := by
  have hless : x < y ↔ orderOf? x y = some .lt := by
    rw [orderOf?_eq]
    exact Double.lt_iff
  rw [if_congr (isNaN_or_iff x y) rfl rfl]
  cases h : orderOf? x y with
  | none => rfl
  | some o =>
    rw [if_neg (Option.some_ne_none o), Option.map_some, Option.some_inj, Bool.eq_iff_iff,
      decide_eq_true_iff, hless, h, Option.some_inj, beq_iff_eq]

theorem orderOf?_greater (x y : Float) :
    (if y.isNaN || x.isNaN then none else some (decide (y < x))) =
      (orderOf? x y).map (· == .gt) := by
  have hgreater : y < x ↔ orderOf? x y = some .gt := by
    rw [orderOf?_eq]
    exact Double.gt_iff
  rw [Bool.or_comm, if_congr (isNaN_or_iff x y) rfl rfl]
  cases h : orderOf? x y with
  | none => rfl
  | some o =>
    rw [if_neg (Option.some_ne_none o), Option.map_some, Option.some_inj, Bool.eq_iff_iff,
      decide_eq_true_iff, hgreater, h, Option.some_inj, beq_iff_eq]

/-! ## Relations -/

/-- The value is a text. -/
def IsText (v : Value) : Prop :=
  ∃ s, v = .text s

/-- What is white space to the known values and not to the language is in no text. -/
def IsPlain (v : Value) : Prop :=
  ∀ s, v = .text s → nextLine ∉ s.toList

theorem compare?_cases {o : Option Ordering} (h : v.compare? w = some o) :
    (∃ s t, v = .text s ∧ w = .text t ∧ o = some (Text.compareUnits s t)) ∨
      ¬ (IsText v ∧ IsText w) ∧
        ∃ x y, v.toNumber? = some x ∧ w.toNumber? = some y ∧ o = orderOf? x y := by
  unfold Value.compare? at h
  split at h
  · rename_i s t
    exact .inl ⟨s, t, rfl, rfl, (Option.some.inj h).symm⟩
  · rename_i hnot
    refine .inr ⟨fun ⟨⟨s, hs⟩, ⟨t, ht⟩⟩ => hnot s t hs ht, ?_⟩
    split at h
    · rename_i x y hx hy
      exact ⟨x, y, hx, hy, (Option.some.inj h).symm⟩
    · cases h

namespace Shows

theorem lessThan (hv : Shows v d) (hw : Shows w e) {o : Option Ordering}
    (h : v.compare? w = some o) (hplain : ¬ (IsText v ∧ IsText w) → IsPlain v ∧ IsPlain w) :
    LessThan d e (o.map (· == .lt)) ∧ LessThan e d (o.map (· == .gt)) := by
  obtain ⟨s, t, rfl, rfl, rfl⟩ | ⟨hnot, x, y, hx, hy, rfl⟩ := compare?_cases h
  · cases hv
    cases hw
    obtain ⟨hlt, hgt⟩ := compareLists_iff (units s) (units t)
    have hless : (Text.compareUnits s t == .lt) = decide (units s < units t) := by
      rw [Bool.eq_iff_iff, beq_iff_eq, decide_eq_true_iff]
      exact hlt
    have hgreater : (Text.compareUnits s t == .gt) = decide (units t < units s) := by
      rw [Bool.eq_iff_iff, beq_iff_eq, decide_eq_true_iff]
      exact hgt
    rw [Option.map_some, Option.map_some, hless, hgreater]
    exact ⟨.texts _ _, .texts _ _⟩
  · obtain ⟨hv', hw'⟩ := hplain hnot
    have hd := hv.toNumber hx hv'
    have he := hw.toNumber hy hw'
    have hnot' : ¬ (d.isText ∧ e.isText) := by rwa [hv.isText_iff, hw.isText_iff]
    rw [← orderOf?_less, ← orderOf?_greater]
    exact ⟨.numbers hd he hnot', .numbers he hd fun hboth => hnot' hboth.symm⟩

end Shows

end ModuleAssets.Language
