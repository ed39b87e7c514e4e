import ObjectBridge.Proofs.CastAlgebra

/-!
# Chains of casts

A cast to a derived type asks the object what it is, through the type as which it is seen at the
start of the cast, and no other. A type that does not let its objects tell is trusted. So what a
chain of downcasts amounts to depends on the types in between:

* `toDerivedVia?_eq_some_iff`: two downcasts lead where the direct one leads, and each of them has
  asked its own view;
* `toDerivedVia?_eq`: they agree with the direct downcast when the view in between tells what the
  first one tells;
* `CastsTo.isBaseOf`: as long as each downcast starts at a view that tells the same type, no chain
  of casts leads beyond that type.

Without these conditions neither holds: through a type that does not tell, an object can be seen as
a type that it has denied to be (`discs_betray`).
-/

namespace ObjectBridge

namespace Registry

/-- Two downcasts, the second from the view to which the first has led. -/
def toDerivedVia? (r : Registry) (m : Memory) (v : View) (mid dest : Nat) : Option Address :=
  (r.toDerived? m v mid).bind fun a ↦ r.toDerived? m ⟨a, mid⟩ dest

/-- Casts lead from a view of an object to another, and each view from which a cast leads to a
derived type tells that the object is a `told`. -/
inductive CastsTo (r : Registry) (m : Memory) (told : TypeKey) (v : View) : View → Prop
  | refl : CastsTo r m told v v
  | up {w : View} {b : Nat} {a : Address} :
    CastsTo r m told v w → r.toSuper? w b = some a → CastsTo r m told v ⟨a, b⟩
  | down {w : View} {d : Nat} {a : Address} :
    CastsTo r m told v w → r.actualType? m w = some told → r.toDerived? m w d = some a →
      CastsTo r m told v ⟨a, d⟩

variable {r : Registry} {m : Memory} {v w : View} {mid dest : Nat} {a p q : Address}

/-! ### Two steps -/

/-- An address from which a walk leads to a view is determined by the view and the type. -/
theorem Sound.climbs_inj (hs : r.Sound) (hp : r.Climbs ⟨p, dest⟩ v) (hq : r.Climbs ⟨q, dest⟩ v) :
    p = q := by
  have hroot : (r.root ⟨p, dest⟩).address = (r.root ⟨q, dest⟩).address := by
    rw [← hs.root_eq_of_climbs hp, ← hs.root_eq_of_climbs hq]
  exact root_address_inj hroot

theorem Sound.exists_climbs (hs : r.Sound) (h : r.isBaseOf v.type dest = true) :
    ∃ p, r.Climbs ⟨p, dest⟩ v := by
  obtain ⟨offset, hm⟩ := isBaseOf_iff.1 h
  exact ⟨v.address.down offset, hs.climbs_iff.2 ⟨offset, hm, (Address.up_down ..).symm⟩⟩

theorem Sound.isBaseOf_of_climbs (hs : r.Sound) (h : r.Climbs v w) :
    r.isBaseOf w.type v.type = true := by
  obtain ⟨offset, hm, -⟩ := hs.climbs_iff.1 h
  exact isBaseOf_iff.2 ⟨offset, hm⟩

/-- A walk starts at a registered type if it ends at one. -/
theorem Climbs.isSome_get? (h : r.Climbs v w) (hw : (r.get? w.type).isSome = true) :
    (r.get? v.type).isSome = true := by
  rcases Relation.ReflTransGen.cases_head h with rfl | ⟨u, ⟨link, hl, -⟩, -⟩
  · exact hw
  · obtain ⟨d, hd, -⟩ := Option.bind_eq_some_iff.1 hl
    exact Option.isSome_iff_exists.2 ⟨d, hd⟩

/-- **Two downcasts succeed exactly when the first does and the view in between does not deny the
target**; they lead to the object whose walk to the bases leads back. -/
theorem Sound.toDerivedVia?_eq_some_iff (hs : r.Sound) (hdest : r.isBaseOf mid dest = true) :
    r.toDerivedVia? m v mid dest = some p ↔
      ∃ a, r.toDerived? m v mid = some a ∧ r.admits m ⟨a, mid⟩ dest = true ∧
        r.Climbs ⟨p, dest⟩ v := by
  rw [toDerivedVia?, Option.bind_eq_some_iff]
  refine exists_congr fun a ↦ and_congr_right fun ha ↦ ?_
  obtain ⟨hv, -, hclimb⟩ := hs.toDerived?_eq_some_iff_climbs.1 ha
  have hmid : (r.get? (View.mk a mid).type).isSome = true := hclimb.isSome_get? hv
  rw [hs.toDerived?_eq_some_iff_climbs]
  constructor
  · rintro ⟨-, hadmits, hp⟩
    exact ⟨hadmits, hp.trans hclimb⟩
  · rintro ⟨hadmits, hp⟩
    -- a walk from `dest` to the view in between exists, and starts where the whole walk starts
    obtain ⟨q, hq⟩ := hs.exists_climbs (v := ⟨a, mid⟩) hdest
    obtain rfl := hs.climbs_inj (hq.trans hclimb) hp
    exact ⟨hmid, hadmits, hq⟩

theorem admits_congr {u : View} (h : r.actualType? m u = r.actualType? m v) (target : Nat) :
    r.admits m u target = r.admits m v target := by
  rw [admits, admits, h]

/-- What does not deny a type does not deny the bases of the type. -/
theorem Sound.admits_of_isBaseOf (hs : r.Sound) (hbase : r.isBaseOf mid dest = true)
    (h : r.admits m v dest = true) : r.admits m v mid = true := by
  rw [admits] at h ⊢
  cases hkey : r.actualType? m v with
  | none => rfl
  | some key =>
    simp only [hkey] at h ⊢
    cases hid : r.idOf? key with
    | none => simp [hid] at h
    | some actual =>
      simp only [hid] at h ⊢
      exact hs.isBaseOf_trans hbase h

/-- **Two downcasts agree with the direct one**, when the view in between tells what the first view
tells. -/
theorem Sound.toDerivedVia?_eq (hs : r.Sound) (hmid : r.isBaseOf v.type mid = true)
    (hdest : r.isBaseOf mid dest = true)
    (htold : ∀ a, r.toDerived? m v mid = some a → r.actualType? m ⟨a, mid⟩ = r.actualType? m v) :
    r.toDerivedVia? m v mid dest = r.toDerived? m v dest := by
  refine Option.ext fun p ↦ ?_
  rw [hs.toDerivedVia?_eq_some_iff hdest, hs.toDerived?_eq_some_iff_climbs]
  constructor
  · rintro ⟨a, ha, hadmits, hp⟩
    rw [admits_congr (htold a ha)] at hadmits
    exact ⟨(hs.toDerived?_eq_some_iff_climbs.1 ha).1, hadmits, hp⟩
  · rintro ⟨hv, hadmits, hp⟩
    obtain ⟨a, hclimb⟩ := hs.exists_climbs (v := v) hmid
    have ha : r.toDerived? m v mid = some a :=
      hs.toDerived?_eq_some_iff_climbs.2 ⟨hv, hs.admits_of_isBaseOf hdest hadmits, hclimb⟩
    exact ⟨a, ha, (admits_congr (htold a ha) dest).trans hadmits, hp⟩

/-! ### Chains -/

/-- **No chain of casts leads beyond what the object tells.** It leads to views of the object as
the type at its start, as the type told, or as bases of these. -/
theorem CastsTo.isBaseOf (hs : r.Sound) {told : TypeKey} (h : r.CastsTo m told v w) :
    r.isBaseOf w.type v.type = true ∨
      ∃ actual, r.idOf? told = some actual ∧ r.isBaseOf w.type actual = true := by
  induction h with
  | refl => exact Or.inl (hs.isBaseOf_refl _)
  | up _ hcast ih =>
    have hbase := hs.isBaseOf_of_climbs (hs.toSuper?_eq_some_iff_climbs.1 hcast)
    rcases ih with ih | ⟨actual, hid, ih⟩
    · exact Or.inl (hs.isBaseOf_trans hbase ih)
    · exact Or.inr ⟨actual, hid, hs.isBaseOf_trans hbase ih⟩
  | down _ htold hcast _ =>
    have hadmits := (hs.toDerived?_eq_some_iff_climbs.1 hcast).2.1
    rw [admits, htold] at hadmits
    cases hid : r.idOf? told with
    | none => simp [hid] at hadmits
    | some actual =>
      simp only [hid] at hadmits
      exact Or.inr ⟨actual, rfl, hadmits⟩

/-- A chain of casts leads to views of one object. -/
theorem CastsTo.root_eq (hs : r.Sound) {told : TypeKey} (h : r.CastsTo m told v w) :
    r.root w = r.root v := by
  induction h with
  | refl => rfl
  | up _ hcast ih => exact (hs.root_toSuper hcast).trans ih
  | down _ _ hcast ih => exact (hs.root_toDerived hcast).trans ih

/-! ### Stepwise casts -/

/-- What casts to derived types owe one another, for objects in a memory. -/
structure StepwiseCasts (r : Registry) (m : Memory) : Prop where
  /-- Two downcasts succeed when the first succeeds and the view in between does not deny the
  target. -/
  isSome_iff {v : View} {mid dest : Nat} :
    r.isBaseOf v.type mid = true → r.isBaseOf mid dest = true →
      ((r.toDerivedVia? m v mid dest).isSome = true ↔
        (r.get? v.type).isSome = true ∧ r.admits m v mid = true ∧
          ∀ a, r.Climbs ⟨a, mid⟩ v → r.admits m ⟨a, mid⟩ dest = true)
  /-- They lead to the object in which the first view is embedded, as the direct downcast does. -/
  climbs {v : View} {mid dest : Nat} {p : Address} :
    r.isBaseOf mid dest = true → r.toDerivedVia? m v mid dest = some p → r.Climbs ⟨p, dest⟩ v
  address_eq {v : View} {mid dest : Nat} {p q : Address} :
    r.isBaseOf mid dest = true → r.toDerivedVia? m v mid dest = some p →
      r.toDerived? m v dest = some q → p = q
  /-- They agree with it when the view in between tells what the first view tells. -/
  eq_direct {v : View} {mid dest : Nat} :
    r.isBaseOf v.type mid = true → r.isBaseOf mid dest = true →
      (∀ a, r.Climbs ⟨a, mid⟩ v → r.actualType? m ⟨a, mid⟩ = r.actualType? m v) →
        r.toDerivedVia? m v mid dest = r.toDerived? m v dest
  /-- A chain of casts whose downcasts start at views that tell one type leads to views of one
  object, as the type told, as the type at the start or as a base of either. -/
  chain {told : TypeKey} {v w : View} :
    r.CastsTo m told v w → r.root w = r.root v ∧
      (r.isBaseOf w.type v.type = true ∨
        ∃ actual, r.idOf? told = some actual ∧ r.isBaseOf w.type actual = true)

/-- **Downcasts in steps, in every registry that a registration leads to.** -/
theorem stepwiseCasts_ofPlan (c : Catalogue) (plan : List PlanStep) (m : Memory) :
    (Registry.ofPlan c plan).StepwiseCasts m := by
  have hs := sound_ofPlan c plan
  have hclimbs : ∀ {v : View} {mid dest : Nat} {p : Address},
      (Registry.ofPlan c plan).isBaseOf mid dest = true →
      (Registry.ofPlan c plan).toDerivedVia? m v mid dest = some p →
      (Registry.ofPlan c plan).Climbs ⟨p, dest⟩ v := fun hdest hp ↦ by
    obtain ⟨_, -, -, hclimb⟩ := (hs.toDerivedVia?_eq_some_iff hdest).1 hp
    exact hclimb
  refine
    { isSome_iff := fun {v mid dest} hmid hdest ↦ ?_
      climbs := hclimbs
      address_eq := fun hdest hp hq ↦ hs.climbs_inj (hclimbs hdest hp)
        (hs.toDerived?_eq_some_iff_climbs.1 hq).2.2
      eq_direct := fun hmid hdest htold ↦ hs.toDerivedVia?_eq hmid hdest fun a ha ↦
        htold a (hs.toDerived?_eq_some_iff_climbs.1 ha).2.2
      chain := fun h ↦ ⟨h.root_eq hs, h.isBaseOf hs⟩ }
  rw [Option.isSome_iff_exists]
  constructor
  · rintro ⟨p, hp⟩
    obtain ⟨a, ha, hadmits, -⟩ := (hs.toDerivedVia?_eq_some_iff hdest).1 hp
    obtain ⟨hv, hmid', hclimb⟩ := hs.toDerived?_eq_some_iff_climbs.1 ha
    refine ⟨hv, hmid', fun a' hclimb' ↦ ?_⟩
    obtain rfl := hs.climbs_inj hclimb hclimb'
    exact hadmits
  · rintro ⟨hv, hmid', hadmits⟩
    obtain ⟨a, hclimb⟩ := hs.exists_climbs (v := v) hmid
    obtain ⟨p, hp⟩ := hs.exists_climbs (v := v) (hs.isBaseOf_trans hmid hdest)
    exact ⟨p, (hs.toDerivedVia?_eq_some_iff hdest).2
      ⟨a, hs.toDerived?_eq_some_iff_climbs.2 ⟨hv, hmid', hclimb⟩, hadmits a hclimb, hp⟩⟩

end Registry

/-! ### A type that does not tell -/

/-- Shapes tell what they are. Discs are shapes, and rings are discs, that have nothing to tell. -/
def discs : Catalogue where
  types := #[{ name := "Shape", size := 16, actualType := some 0 },
    { name := "Disc", base := some ⟨0, 0⟩, size := 24 },
    { name := "Ring", base := some ⟨1, 0⟩, size := 32 }]
  bases_first := by decide

/-- A shape that tells that it is a disc is no ring. Seen as a disc it can be seen as a ring all the
same, and a ring it stays once it is seen as one. -/
theorem discs_betray :
    let r := Registry.ofPlan discs [.create 2]
    let m := ({} : Memory).write 0x1000 (.actualType (some 1))
    r.isBaseOf 0 1 = true ∧ r.isBaseOf 1 2 = true ∧
      r.actualType? m ⟨0x1000, 0⟩ = some 1 ∧ r.idOf? 1 = some 1 ∧ r.isBaseOf 2 1 = false ∧
      r.toDerived? m ⟨0x1000, 0⟩ 1 = some 0x1000 ∧ r.toDerived? m ⟨0x1000, 1⟩ 2 = some 0x1000 ∧
      r.toDerivedVia? m ⟨0x1000, 0⟩ 1 2 = some 0x1000 ∧ r.toDerived? m ⟨0x1000, 0⟩ 2 = none ∧
      r.toDerived? m ⟨0x1000, 2⟩ 2 = some 0x1000 := by
  decide

end ObjectBridge
