import Mathlib.Logic.Relation
import ObjectBridge.Proofs.Lineage
import ObjectBridge.Proofs.Registration

/-!
# The algebra of casts

The casts of a registry are walks along the links from types to their direct bases. One step of
such a walk, `Registry.Rises`, leads from a view of an object to its view as the direct base and
moves the address by the offset of that link alone; the casts are computed from whole lines, with
the offsets added up. `climbs_iff` connects the two, and every equation between casts comes from it:

* `wellFounded_rises`: there is no endless walk;
* `isBaseOf_iff_links`, `toSuper?_eq_some_iff_climbs`, `toDerived?_eq_some_iff_climbs`,
  `climbs_root`, `not_rises_root`: each cast finds the view that a walk leads to;
* `toSuper?_toSuper?`, `toDerived?_of_toSuper?`, `toSuper?_of_toDerived?`: casts compose, and undo
  one another.

`castAlgebra_ofPlan` puts them together for the registries that a registration leads to, whatever
the types are and however deep a base is embedded.
-/

namespace ObjectBridge

namespace Address

theorem down_up (a : Address) (n : Nat) : (a.up n).down n = a :=
  UInt64.add_sub_cancel a _

end Address

namespace Registry

/-- `base` is the direct base of `derived`. -/
def Links (r : Registry) (derived base : Nat) : Prop :=
  ∃ link, (r.get? derived).bind (·.super) = some link ∧ link.id = base

/-- One step of a walk to the bases: `w` is the view as the direct base of the object seen as
`v`. -/
def Rises (r : Registry) (v w : View) : Prop :=
  ∃ link, (r.get? v.type).bind (·.super) = some link ∧
    w = ⟨v.address.up link.offset, link.id⟩

/-- A walk to the bases leads from `v` to `w`. -/
def Climbs (r : Registry) : View → View → Prop :=
  Relation.ReflTransGen r.Rises

variable {r : Registry}

/-! ### Walks -/

theorem Sound.links_lt (hs : r.Sound) {derived base : Nat} (h : r.Links derived base) :
    base < derived := by
  obtain ⟨link, hl, rfl⟩ := h
  obtain ⟨d, hd, hsuper⟩ := Option.bind_eq_some_iff.1 hl
  exact hs.super_lt hd hsuper

theorem Rises.links {v w : View} (h : r.Rises v w) : r.Links v.type w.type := by
  obtain ⟨link, hl, rfl⟩ := h
  exact ⟨link, hl, rfl⟩

theorem Links.rises {derived base : Nat} (h : r.Links derived base) (a : Address) :
    ∃ a', r.Rises ⟨a, derived⟩ ⟨a', base⟩ := by
  obtain ⟨link, hl, rfl⟩ := h
  exact ⟨_, link, hl, rfl⟩

/-- A step is determined by where it starts. -/
theorem Rises.unique {v w w' : View} (h : r.Rises v w) (h' : r.Rises v w') : w = w' := by
  obtain ⟨link, hl, rfl⟩ := h
  obtain ⟨link', hl', rfl⟩ := h'
  obtain rfl := Option.some.inj (hl.symm.trans hl')
  rfl

/-- **Every walk ends**, for the numbers of the types get smaller. -/
theorem Sound.wellFounded_rises (hs : r.Sound) : WellFounded fun w v ↦ r.Rises v w :=
  Subrelation.wf (fun h ↦ hs.links_lt h.links) (InvImage.wf View.type Nat.lt_wfRel.wf)

theorem Rises.mem_views (hs : r.Sound) {v w : View} (h : r.Rises v w) {base offset : Nat}
    (hm : (base, offset) ∈ r.views w.type) :
    ∃ link : SuperLink, w.address = v.address.up link.offset ∧
      (base, link.offset + offset) ∈ r.views v.type := by
  obtain ⟨link, hl, rfl⟩ := h
  refine ⟨link, rfl, ?_⟩
  rw [hs.views_eq, hl]
  exact List.mem_cons_of_mem _ (mem_shift.2 ⟨offset, hm, rfl⟩)

/-- **A walk leads to the entries of the line of a type**, and the offsets of its steps add up to
the offset of the entry. -/
theorem Sound.climbs_iff (hs : r.Sound) {v w : View} :
    r.Climbs v w ↔
      ∃ offset, (w.type, offset) ∈ r.views v.type ∧ w.address = v.address.up offset := by
  constructor
  · intro h
    induction h using Relation.ReflTransGen.head_induction_on with
    | refl => exact ⟨0, hs.mem_views_self _, (Address.up_zero _).symm⟩
    | head hstep _ ih =>
      obtain ⟨offset, hm, ha⟩ := ih
      obtain ⟨link, hlink, hm'⟩ := hstep.mem_views hs hm
      exact ⟨_, hm', by rw [ha, hlink, Address.up_up]⟩
  · rintro ⟨offset, hm, ha⟩
    -- along the walk from `v`: an entry is the type itself or in the line of the direct base
    induction v using hs.wellFounded_rises.induction generalizing offset with
    | _ v ih =>
      rw [hs.views_eq] at hm
      rcases List.mem_cons.1 hm with hm | hm
      · obtain ⟨htype, rfl⟩ := Prod.mk.inj hm
        rw [Address.up_zero] at ha
        obtain ⟨a, id⟩ := v
        obtain ⟨a', id'⟩ := w
        obtain rfl : a' = a := ha
        obtain rfl : id' = id := htype
        exact .refl
      · cases hl : (r.get? v.type).bind (·.super) with
        | none => simp [hl] at hm
        | some link =>
          simp only [hl] at hm
          obtain ⟨k, hk, rfl⟩ := mem_shift.1 hm
          have hstep : r.Rises v ⟨v.address.up link.offset, link.id⟩ := ⟨link, hl, rfl⟩
          exact .head hstep (ih _ hstep k hk (by rw [ha, Address.up_up]))

/-! ### Each cast is a walk -/

theorem Sound.isBaseOf_iff_links (hs : r.Sound) {base derived : Nat} :
    r.isBaseOf base derived = true ↔ Relation.ReflTransGen r.Links derived base := by
  rw [isBaseOf_iff]
  constructor
  · rintro ⟨offset, hm⟩
    have hclimb : r.Climbs ⟨0, derived⟩ ⟨Address.up 0 offset, base⟩ :=
      hs.climbs_iff.2 ⟨offset, hm, rfl⟩
    exact Relation.ReflTransGen.lift View.type (fun _ _ (h : r.Rises _ _) ↦ h.links) _ _ hclimb
  · intro h
    induction h using Relation.ReflTransGen.head_induction_on with
    | refl => exact ⟨0, hs.mem_views_self base⟩
    | head hstep _ ih =>
      obtain ⟨offset, hm⟩ := ih
      obtain ⟨a', hrise⟩ := hstep.rises 0
      obtain ⟨link, -, hm'⟩ := hrise.mem_views hs hm
      exact ⟨_, hm'⟩

theorem Sound.toSuper?_eq_some_iff_climbs (hs : r.Sound) {v : View} {target : Nat} {a : Address} :
    r.toSuper? v target = some a ↔ r.Climbs v ⟨a, target⟩ := by
  rw [hs.toSuper?_eq_some_iff, hs.climbs_iff]

/-- **A downcast finds the object whose walk to the bases leads back**, provided the object is not
told to be of another type. -/
theorem Sound.toDerived?_eq_some_iff_climbs (hs : r.Sound) {m : Memory} {v : View} {target : Nat}
    {a : Address} :
    r.toDerived? m v target = some a ↔
      (r.get? v.type).isSome = true ∧ r.admits m v target = true ∧ r.Climbs ⟨a, target⟩ v := by
  rw [toDerived?]
  split
  · rename_i h
    rw [Bool.and_eq_true] at h
    simp only [h.1, h.2, true_and, Option.map_eq_some_iff, hs.climbs_iff, hs.lookup_views]
    constructor
    · rintro ⟨n, hm, rfl⟩
      exact ⟨n, hm, (Address.up_down ..).symm⟩
    · rintro ⟨n, hm, ha⟩
      exact ⟨n, hm, by rw [ha, Address.down_up]⟩
  · rename_i h
    rw [Bool.and_eq_true] at h
    simp only [reduceCtorEq, false_iff]
    exact fun h' ↦ h ⟨h'.1, h'.2.1⟩

theorem Sound.climbs_root (hs : r.Sound) (v : View) : r.Climbs v (r.root v) := by
  rw [hs.climbs_iff, root]
  cases hlast : (r.views v.type).getLast? with
  | none => exact ⟨0, hs.mem_views_self _, (Address.up_zero _).symm⟩
  | some top => exact ⟨top.2, List.mem_of_getLast? hlast, rfl⟩

/-- A walk does not change the root. -/
theorem Sound.root_eq_of_climbs (hs : r.Sound) {v w : View} (h : r.Climbs v w) :
    r.root w = r.root v := by
  obtain ⟨offset, hm, ha⟩ := hs.climbs_iff.1 h
  rw [← hs.root_eq_of_mem_views hm, ← ha]

/-- **The root is the end of the walk.** -/
theorem Sound.not_rises_root (hs : r.Sound) (v w : View) : ¬ r.Rises (r.root v) w := by
  intro h
  -- the root of `w` is the root of `v`, from which the walk to `w` came: a walk in a circle
  have hw : r.root w = r.root v := by
    rw [hs.root_eq_of_climbs (.head h .refl), hs.root_eq_of_climbs (hs.climbs_root v)]
  have hback : r.Climbs w (r.root v) := hw ▸ hs.climbs_root w
  obtain ⟨offset, hm, -⟩ := hs.climbs_iff.1 hback
  have hlt := hs.links_lt h.links
  have hle := hs.le_of_mem_views hm
  omega

/-! ### Casts compose and undo one another -/

theorem isSome_toSuper? (v : View) (target : Nat) :
    (r.toSuper? v target).isSome = r.isBaseOf target v.type := by
  rw [toSuper?, Option.isSome_map, isBaseOf]
  generalize r.views v.type = line
  induction line with
  | nil => rfl
  | cons entry line ih =>
    obtain ⟨id, offset⟩ := entry
    rw [List.lookup_cons, List.any_cons, ← ih]
    by_cases h : target = id
    · simp [h]
    · simp [beq_eq_false_iff_ne.2 h, Ne.symm h]

/-- **A cast to a base and on to a base of it is the cast to that base.** -/
theorem Sound.toSuper?_toSuper? (hs : r.Sound) {v : View} {b a : Nat}
    (hb : r.isBaseOf b v.type = true) (ha : r.isBaseOf a b = true) :
    ((r.toSuper? v b).bind fun p ↦ r.toSuper? ⟨p, b⟩ a) = r.toSuper? v a := by
  obtain ⟨p, hp⟩ := Option.isSome_iff_exists.1 (isSome_toSuper? (r := r) v b ▸ hb)
  obtain ⟨q, hq⟩ := Option.isSome_iff_exists.1 (isSome_toSuper? (r := r) ⟨p, b⟩ a ▸ ha)
  have hclimb : r.Climbs v ⟨q, a⟩ :=
    .trans (hs.toSuper?_eq_some_iff_climbs.1 hp) (hs.toSuper?_eq_some_iff_climbs.1 hq)
  rw [hp, Option.bind_some, hq, hs.toSuper?_eq_some_iff_climbs.2 hclimb]

/-- **A downcast undoes an upcast**, unless the object tells that it is something else. -/
theorem Sound.toDerived?_of_toSuper? (hs : r.Sound) {m : Memory} {v : View} {b : Nat} {p : Address}
    (hv : (r.get? v.type).isSome = true) (hp : r.toSuper? v b = some p)
    (hadmits : r.admits m ⟨p, b⟩ v.type = true) :
    r.toDerived? m ⟨p, b⟩ v.type = some v.address := by
  have hclimb := hs.toSuper?_eq_some_iff_climbs.1 hp
  obtain ⟨offset, hm, -⟩ := hs.climbs_iff.1 hclimb
  obtain ⟨d, hd⟩ := Option.isSome_iff_exists.1 hv
  obtain ⟨base, hbase⟩ := hs.get?_of_mem_views hd hm
  exact hs.toDerived?_eq_some_iff_climbs.2
    ⟨Option.isSome_iff_exists.2 ⟨base, hbase⟩, hadmits, hclimb⟩

/-- **An upcast undoes a downcast.** -/
theorem Sound.toSuper?_of_toDerived? (hs : r.Sound) {m : Memory} {v : View} {d : Nat} {p : Address}
    (hp : r.toDerived? m v d = some p) : r.toSuper? ⟨p, d⟩ v.type = some v.address :=
  hs.toSuper?_eq_some_iff_climbs.2 (hs.toDerived?_eq_some_iff_climbs.1 hp).2.2

/-! ### The algebra -/

/-- What the casts of a registry owe one another. -/
structure CastAlgebra (r : Registry) : Prop where
  /-- The walks along the links end. -/
  terminates : WellFounded fun w v ↦ r.Rises v w
  /-- A type is a base of the types from which the links lead to it. -/
  isBaseOf_iff {base derived : Nat} :
    r.isBaseOf base derived = true ↔ Relation.ReflTransGen r.Links derived base
  refl (id : Nat) : r.isBaseOf id id = true
  trans {a b c : Nat} : r.isBaseOf a b = true → r.isBaseOf b c = true → r.isBaseOf a c = true
  antisymm {a b : Nat} : r.isBaseOf a b = true → r.isBaseOf b a = true → a = b
  /-- A cast to a base is a walk, which moves the address by one offset after the other. -/
  toSuper?_iff {v : View} {b : Nat} {p : Address} :
    r.toSuper? v b = some p ↔ r.Climbs v ⟨p, b⟩
  /-- It succeeds for the bases of the type and for them alone. -/
  isSome_toSuper? (v : View) (b : Nat) : (r.toSuper? v b).isSome = r.isBaseOf b v.type
  toSuper?_toSuper? {v : View} {b a : Nat} : r.isBaseOf b v.type = true →
    r.isBaseOf a b = true → ((r.toSuper? v b).bind fun p ↦ r.toSuper? ⟨p, b⟩ a) = r.toSuper? v a
  /-- The root is where the walk from a view ends. -/
  root_climbs (v : View) : r.Climbs v (r.root v)
  root_top (v w : View) : ¬ r.Rises (r.root v) w
  root_toSuper? {v : View} {b : Nat} {p : Address} : r.toSuper? v b = some p →
    r.root ⟨p, b⟩ = r.root v
  /-- A cast to a derived type is a walk back. -/
  toDerived?_iff {m : Memory} {v : View} {d : Nat} {p : Address} :
    r.toDerived? m v d = some p ↔
      (r.get? v.type).isSome = true ∧ r.admits m v d = true ∧ r.Climbs ⟨p, d⟩ v
  toDerived?_of_toSuper? {m : Memory} {v : View} {b : Nat} {p : Address} :
    (r.get? v.type).isSome = true → r.toSuper? v b = some p → r.admits m ⟨p, b⟩ v.type = true →
      r.toDerived? m ⟨p, b⟩ v.type = some v.address
  toSuper?_of_toDerived? {m : Memory} {v : View} {d : Nat} {p : Address} :
    r.toDerived? m v d = some p → r.toSuper? ⟨p, d⟩ v.type = some v.address

/-- **The casts of every registry that a registration leads to form an algebra**, over any types,
lines of any depth and bases at any offsets. -/
theorem castAlgebra_ofPlan (c : Catalogue) (plan : List PlanStep) :
    (Registry.ofPlan c plan).CastAlgebra := by
  have hs := sound_ofPlan c plan
  exact
    { terminates := hs.wellFounded_rises
      isBaseOf_iff := hs.isBaseOf_iff_links
      refl := hs.isBaseOf_refl
      trans := hs.isBaseOf_trans
      antisymm := hs.isBaseOf_antisymm
      toSuper?_iff := hs.toSuper?_eq_some_iff_climbs
      isSome_toSuper? := Registry.isSome_toSuper?
      toSuper?_toSuper? := hs.toSuper?_toSuper?
      root_climbs := hs.climbs_root
      root_top := hs.not_rises_root
      root_toSuper? := hs.root_toSuper
      toDerived?_iff := hs.toDerived?_eq_some_iff_climbs
      toDerived?_of_toSuper? := hs.toDerived?_of_toSuper?
      toSuper?_of_toDerived? := hs.toSuper?_of_toDerived? }

end Registry

end ObjectBridge
