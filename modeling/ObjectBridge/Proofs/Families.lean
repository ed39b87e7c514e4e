import ObjectBridge.Proofs.Decoding
import ObjectBridge.Proofs.Descriptors

/-!
# Weak families

A weak family has a type that starts it, which is the type with the anchor. In a registry that a
registration leads to, this type is a base of every type of the family, and is of the family itself
(`Registry.starts_family_ofPlan`): so every weak object can be seen as the type that has its anchor.

That is not where the anchor is looked for. A handle is asked for with the topmost base of an object
(`Host.weakHandle?`), and a type that starts a family may have bases, which are not weak. The place
is the right one exactly if the topmost base is embedded at the beginning of the type that starts the
family (`Registry.anchorPlace_ofPlan`).
-/

namespace ObjectBridge

/-- Moving up leaves an address where it is just if the offset is a multiple of the number of addresses. -/
theorem Address.up_eq_self_iff {a : Address} {n : Nat} : a.up n = a ↔ 2 ^ 64 ∣ n := by
  have hzero : UInt64.ofNat n = 0 ↔ n % 2 ^ 64 = 0 := by
    rw [← UInt64.toNat_inj, UInt64.toNat_ofNat]
    rfl
  rw [up, UInt64.add_eq_left, hzero]
  exact Nat.dvd_iff_mod_eq_zero.symm

namespace Registry

variable {r : Registry} {c : Catalogue} {plan : List PlanStep}

/-! ### The type that starts a family -/

/-- A weak type belongs to the family of its base, or starts the family itself. -/
theorem WellFormed.family?_cases (hw : r.WellFormed c plan) {id root : Nat}
    (h : r.family? id = some root) :
    (∃ link, (r.get? id).bind (·.super) = some link ∧ r.family? link.id = some root) ∨ root = id := by
  obtain ⟨d, hd, hroot⟩ := Option.bind_eq_some_iff.1 h
  rw [hw.weakRoot hd] at hroot
  rcases Option.or_eq_some_iff.1 hroot with hbase | ⟨-, hown⟩
  · obtain ⟨link, hlink, hfamily⟩ := Option.bind_eq_some_iff.1 hbase
    exact .inl ⟨link, by rw [hd, Option.bind_some, hlink], hfamily⟩
  · obtain ⟨-, -, rfl⟩ := Option.map_eq_some_iff.1 hown
    exact .inr rfl

/-- **The type that starts a family is a base of every type of the family**, and of the family. -/
theorem WellFormed.starts_family (hw : r.WellFormed c plan) (hs : r.Sound) {id root : Nat}
    (h : r.family? id = some root) :
    r.isBaseOf root id = true ∧ r.family? root = some root := by
  -- Up the line, where a family is passed on from the base until a type has started it.
  induction id using Nat.strongRecOn with
  | ind id ih =>
    rcases hw.family?_cases h with ⟨link, hlink, hfamily⟩ | rfl
    · obtain ⟨d, hd, hsuper⟩ := Option.bind_eq_some_iff.1 hlink
      obtain ⟨hbase, hroot⟩ := ih link.id (hs.super_lt hd hsuper) hfamily
      have hdirect : r.isBaseOf link.id id = true := by
        refine isBaseOf_iff.2 ⟨link.offset, ?_⟩
        rw [hs.views_eq, hlink]
        exact List.mem_cons_of_mem _ (mem_shift.2 ⟨0, hs.mem_views_self link.id, rfl⟩)
      exact ⟨hs.isBaseOf_trans hbase hdirect, hroot⟩
    · exact ⟨hs.isBaseOf_refl root, h⟩

/-- This is so in every registry that a registration leads to. -/
theorem starts_family_ofPlan (c : Catalogue) (plan : List PlanStep) {id root : Nat}
    (h : (Registry.ofPlan c plan).family? id = some root) :
    (Registry.ofPlan c plan).isBaseOf root id = true ∧
      (Registry.ofPlan c plan).family? root = some root :=
  (wellFormed_ofPlan c plan).starts_family (sound_ofPlan c plan) h

/-! ### The place of the anchor -/

/-- The offset at which the topmost base of a type is embedded in it. -/
def topOffset (r : Registry) (id : Nat) : Nat :=
  match (r.views id).getLast? with
  | some top => top.2
  | none => 0

/-- An object is identified by an address that is further on by the offset of the topmost base. -/
theorem root_address (v : View) : (r.root v).address = v.address.up (r.topOffset v.type) := by
  rw [root, topOffset]
  cases (r.views v.type).getLast? with
  | some top => rfl
  | none => exact (Address.up_zero v.address).symm

/-- **Where the anchor of a weak object is, and where it is looked for.** The object is seen as `v`, and at
`a` as the type `root` that starts its family. -/
structure AnchorPlace (r : Registry) (v : View) (root : Nat) (a : Address) (anchor : Nat) : Prop where
  seen : r.toSuper? v root = some a
  /-- It is the type that starts the family that says where the anchor is in it. -/
  declared : (r.get? root).bind (·.anchor) = some anchor
  /-- A handle is asked for at the topmost base instead. -/
  asked : ∀ (h : Host) (domain : Nat), h.weakHandle? r domain v =
    some (h.acquire r domain ((a.up (r.topOffset root)).up anchor) v)
  /-- The two places are one if the topmost base is at the beginning of the type that starts the
  family, and only then. -/
  root_eq_iff : (r.root v).address = a ↔ 2 ^ 64 ∣ r.topOffset root

theorem Sound.anchorPlace (hs : r.Sound) {v : View} {root : Nat} (h : r.family? v.type = some root)
    (hbase : r.isBaseOf root v.type = true) : ∃ a anchor, r.AnchorPlace v root a anchor := by
  obtain ⟨offset, hline⟩ := isBaseOf_iff.1 hbase
  -- the view as the type that starts the family has the same topmost base
  have hplace : (r.root v).address = (v.address.up offset).up (r.topOffset root) := by
    rw [← hs.root_eq_of_mem_views hline, root_address]
  obtain ⟨d, hd, hroot⟩ := Option.bind_eq_some_iff.1 h
  obtain ⟨b, hb, hanchor⟩ := hs.family hd hroot
  obtain ⟨anchor, hoffset, -⟩ := hs.exists_anchorCell? (isWeak_of_family? h)
  have hd' : d.anchor = some anchor := by rwa [hd] at hoffset
  exact ⟨v.address.up offset, anchor,
    { seen := hs.toSuper?_eq_some_iff.2 ⟨offset, hline, rfl⟩
      declared := by rw [hb, Option.bind_some, hanchor, hd']
      asked := fun _ _ ↦ by rw [Host.weakHandle?, hoffset, hplace]
      root_eq_iff := by rw [hplace, Address.up_eq_self_iff] }⟩

/-- **The place where the anchor of a weak object is looked for**, in every registry that a registration
leads to: it is off from the view as the type that starts the family by the offset of the topmost base. -/
theorem anchorPlace_ofPlan (c : Catalogue) (plan : List PlanStep) {v : View} {root : Nat}
    (h : (Registry.ofPlan c plan).family? v.type = some root) :
    ∃ a anchor, (Registry.ofPlan c plan).AnchorPlace v root a anchor :=
  (sound_ofPlan c plan).anchorPlace h (starts_family_ofPlan c plan h).1

/-- A type without an anchor, and one with an anchor that has it as a base behind its own data. -/
def harbour : Catalogue where
  types := #[{ name := "Hull" },
    { name := "Buoy", base := some ⟨0, 8⟩, size := 16, anchor := some 0 }]
  bases_first := by decide

theorem family?_buoy : (Registry.ofPlan harbour [.create 1]).family? 1 = some 1 := by
  decide +kernel

/-- A buoy starts a family, and has its anchor at the address where it is seen as a buoy; but it is
looked for eight bytes further on, in the hull. -/
theorem anchorPlace_ofPlan_buoy :
    (Registry.ofPlan harbour [.create 1]).family? 1 = some 1 ∧
      (Registry.ofPlan harbour [.create 1]).toSuper? ⟨0x1000, 1⟩ 1 = some 0x1000 ∧
      (Registry.ofPlan harbour [.create 1]).AnchorPlace ⟨0x1000, 1⟩ 1 0x1000 0 ∧
      ∀ (h : Host) (domain : Nat),
        h.weakHandle? (Registry.ofPlan harbour [.create 1]) domain ⟨0x1000, 1⟩ =
          some (h.acquire (Registry.ofPlan harbour [.create 1]) domain 0x1008 ⟨0x1000, 1⟩) := by
  have hseen : (Registry.ofPlan harbour [.create 1]).toSuper? ⟨0x1000, 1⟩ 1 = some 0x1000 := by
    decide +kernel
  have hdeclared : ((Registry.ofPlan harbour [.create 1]).get? 1).bind (·.anchor) = some 0 := by
    decide +kernel
  have htop : (Registry.ofPlan harbour [.create 1]).topOffset 1 = 8 := by decide +kernel
  obtain ⟨a, anchor, hplace⟩ := anchorPlace_ofPlan harbour [.create 1] (v := ⟨0x1000, 1⟩) family?_buoy
  obtain rfl : a = 0x1000 := Option.some.inj (hplace.seen.symm.trans hseen)
  obtain rfl : anchor = 0 := Option.some.inj (hplace.declared.symm.trans hdeclared)
  refine ⟨family?_buoy, hseen, hplace, fun h domain ↦ ?_⟩
  rw [hplace.asked, htop]
  rfl

/-- **The anchor is not always looked for where the type has it that starts the family.** -/
theorem not_root_address_eq_toSuper : ¬ ∀ (c : Catalogue) (plan : List PlanStep) (v : View) (root : Nat),
    (Registry.ofPlan c plan).family? v.type = some root →
      (Registry.ofPlan c plan).toSuper? v root = some ((Registry.ofPlan c plan).root v).address := by
  intro hall
  have hsame := hall harbour [.create 1] ⟨0x1000, 1⟩ 1 family?_buoy
  have hother : (Registry.ofPlan harbour [.create 1]).toSuper? ⟨0x1000, 1⟩ 1 ≠
      some ((Registry.ofPlan harbour [.create 1]).root ⟨0x1000, 1⟩).address := by decide +kernel
  exact hother hsame

end Registry

end ObjectBridge
