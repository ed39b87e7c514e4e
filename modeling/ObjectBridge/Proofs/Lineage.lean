import Mathlib.Data.List.Nodup
import ObjectBridge.Registry

/-!
# Lines of bases

What the casts of a registry compute, for registries whose links go to smaller numbers, as the
links of every registry do that comes out of a registration. The fuel of `Registry.views` is then
enough for every line (`views_eq`), no type occurs in a line twice (`nodup_views`), and the line of
a base is the end of the line of each type derived from it (`views_suffix`). The casts follow:

* `root_toSuper` and `root_toDerived`: a cast leads to another view of the same object;
* `isBaseOf_trans`, `isBaseOf_total`: bases of bases are bases, and the bases of a type form a line;
* `Sound.anchor_eq`, `Sound.weakRoot_eq`: the types derived from a weak type are weak, of the same
  family, and have the anchor in the same place.
-/

namespace ObjectBridge

namespace Address

variable (a : Address) (m n : Nat)

@[simp]
theorem up_zero : a.up 0 = a :=
  UInt64.add_zero a

theorem up_up : (a.up m).up n = a.up (m + n) := by
  rw [up, up, up, UInt64.ofNat_add, UInt64.add_assoc]

@[simp]
theorem up_down : (a.down n).up n = a :=
  UInt64.sub_add_cancel a _

theorem up_inj {a b : Address} {n : Nat} (h : a.up n = b.up n) : a = b :=
  (UInt64.add_left_inj _).1 h

end Address

/-- The owner of the slot that a type is given: the type, or its weak family. -/
def Descriptor.slotOwner (d : Descriptor) : LightSlot :=
  match d.weakRoot with
  | some root => .weakFamily root
  | none => .declared d.id

namespace Registry

/-- What a registration guarantees of the descriptors. -/
structure Sound (r : Registry) : Prop where
  /-- A base has a smaller number than the types derived from it. -/
  super_lt : ∀ {id d link}, r.get? id = some d → d.super = some link → link.id < id
  /-- The weak types are those with an anchor. -/
  isSome_anchor : ∀ {id d}, r.get? id = some d → d.anchor.isSome = d.weakRoot.isSome
  weakRoot_inherit : ∀ {id d link b root}, r.get? id = some d → d.super = some link →
    r.get? link.id = some b → b.weakRoot = some root → d.weakRoot = some root
  anchor_inherit : ∀ {id d link b offset}, r.get? id = some d → d.super = some link →
    r.get? link.id = some b → b.anchor = some offset → d.anchor = some offset
  /-- The types of a weak family have the anchor where the first type of the family has it. -/
  family : ∀ {id d root}, r.get? id = some d → d.weakRoot = some root →
    ∃ b, r.get? root = some b ∧ b.anchor = d.anchor
  slot_le : ∀ {id d}, r.get? id = some d → d.lightSlot ≤ 255
  slot_owner : ∀ {id d}, r.get? id = some d → d.lightSlot ≠ 0 →
    r.lightSlots[d.lightSlot - 1]? = some d.slotOwner
  id_eq : ∀ {id d}, r.get? id = some d → d.id = id

variable {r : Registry}

/-! ### The line of a type -/

/-- Move the entries of a line by an offset. -/
def shift (offset : Nat) (line : List (Nat × Nat)) : List (Nat × Nat) :=
  line.map fun v ↦ (v.1, offset + v.2)

theorem shift_shift (m n : Nat) (line : List (Nat × Nat)) :
    shift m (shift n line) = shift (m + n) line := by
  simp [shift, Nat.add_assoc]

theorem mem_shift {offset : Nat} {line : List (Nat × Nat)} {id n : Nat} :
    (id, n) ∈ shift offset line ↔ ∃ k, (id, k) ∈ line ∧ n = offset + k := by
  simp only [shift, List.mem_map, Prod.mk.injEq, Prod.exists]
  constructor
  · rintro ⟨x, k, h, rfl, rfl⟩
    exact ⟨k, h, rfl⟩
  · rintro ⟨k, h, rfl⟩
    exact ⟨id, k, h, rfl, rfl⟩

private theorem viewsFrom_add (r : Registry) :
    ∀ (fuel id m n : Nat), r.viewsFrom fuel id (m + n) = shift m (r.viewsFrom fuel id n) := by
  intro fuel
  induction fuel with
  | zero => exact fun _ _ _ ↦ rfl
  | succ fuel ih =>
    intro id m n
    rw [viewsFrom, viewsFrom, shift, List.map_cons]
    cases (r.get? id).bind (·.super) with
    | none => rfl
    | some link =>
      simp only
      rw [Nat.add_assoc, ih]
      rfl

/-- The fuel for a line does not matter as long as it exceeds the number of the type. -/
private theorem Sound.viewsFrom_succ (hs : r.Sound) :
    ∀ {fuel id : Nat} (offset : Nat), id < fuel →
      r.viewsFrom (fuel + 1) id offset = r.viewsFrom fuel id offset := by
  intro fuel
  induction fuel with
  | zero => exact fun _ h ↦ absurd h (Nat.not_lt_zero _)
  | succ fuel ih =>
    intro id offset hid
    rw [viewsFrom, viewsFrom]
    cases hl : (r.get? id).bind (·.super) with
    | none => rfl
    | some link =>
      obtain ⟨d, hd, hsuper⟩ := Option.bind_eq_some_iff.1 hl
      have hlt := hs.super_lt hd hsuper
      simp only
      rw [ih _ (by omega)]

/-- **The line of a type is the type, and behind it the line of its direct base.** -/
theorem Sound.views_eq (hs : r.Sound) (id : Nat) :
    r.views id = (id, 0) ::
      match (r.get? id).bind (·.super) with
      | some link => shift link.offset (r.views link.id)
      | none => [] := by
  rw [views, viewsFrom]
  cases hl : (r.get? id).bind (·.super) with
  | none => rfl
  | some link =>
    obtain ⟨d, hd, hsuper⟩ := Option.bind_eq_some_iff.1 hl
    have hlt := hs.super_lt hd hsuper
    have hid : id < r.types.size := (Array.getElem?_eq_some_iff.1 hd).1
    simp only
    rw [Nat.zero_add, ← hs.viewsFrom_succ _ (by omega), views, ← viewsFrom_add]
    rfl

theorem Sound.mem_views_self (hs : r.Sound) (id : Nat) : (id, 0) ∈ r.views id := by
  rw [hs.views_eq]
  exact List.mem_cons_self

theorem Sound.le_of_mem_views (hs : r.Sound) {id base offset : Nat}
    (h : (base, offset) ∈ r.views id) : base ≤ id := by
  induction id using Nat.strongRecOn generalizing offset with
  | ind id ih =>
    rw [hs.views_eq] at h
    rcases List.mem_cons.1 h with h | h
    · exact Nat.le_of_eq (Prod.mk.inj h).1
    · cases hl : (r.get? id).bind (·.super) with
      | none => simp [hl] at h
      | some link =>
        obtain ⟨d, hd, hsuper⟩ := Option.bind_eq_some_iff.1 hl
        have hlt := hs.super_lt hd hsuper
        simp only [hl] at h
        obtain ⟨k, hk, -⟩ := mem_shift.1 h
        exact Nat.le_trans (ih link.id hlt hk) (Nat.le_of_lt hlt)

theorem Sound.nodup_views (hs : r.Sound) (id : Nat) : ((r.views id).map Prod.fst).Nodup := by
  induction id using Nat.strongRecOn with
  | ind id ih =>
    rw [hs.views_eq]
    cases hl : (r.get? id).bind (·.super) with
    | none => simp
    | some link =>
      obtain ⟨d, hd, hsuper⟩ := Option.bind_eq_some_iff.1 hl
      have hlt := hs.super_lt hd hsuper
      have hfst : (shift link.offset (r.views link.id)).map Prod.fst =
          (r.views link.id).map Prod.fst := by
        simp [shift]
      simp only [List.map_cons, List.nodup_cons, hfst]
      refine ⟨fun h ↦ ?_, ih link.id hlt⟩
      obtain ⟨⟨base, offset⟩, hm, rfl⟩ := List.mem_map.1 h
      exact absurd (hs.le_of_mem_views hm) (by simpa using hlt)

/-- **The line of a base is the end of the line of each type derived from it.** -/
theorem Sound.views_suffix (hs : r.Sound) {id base offset : Nat}
    (h : (base, offset) ∈ r.views id) :
    ∃ front, r.views id = front ++ shift offset (r.views base) := by
  induction id using Nat.strongRecOn generalizing offset with
  | ind id ih =>
    have hv := hs.views_eq id
    rw [hv] at h
    rcases List.mem_cons.1 h with h | h
    · obtain ⟨rfl, rfl⟩ := Prod.mk.inj h
      exact ⟨[], by simp [shift]⟩
    · cases hl : (r.get? id).bind (·.super) with
      | none => simp [hl] at h
      | some link =>
        obtain ⟨d, hd, hsuper⟩ := Option.bind_eq_some_iff.1 hl
        simp only [hl] at h hv
        obtain ⟨k, hk, rfl⟩ := mem_shift.1 h
        obtain ⟨front, hf⟩ := ih link.id (hs.super_lt hd hsuper) hk
        refine ⟨(id, 0) :: shift link.offset front, ?_⟩
        rw [hv, hf, ← shift_shift]
        simp [shift]

private theorem lookup_eq_some_iff {line : List (Nat × Nat)} (hn : (line.map Prod.fst).Nodup)
    (k n : Nat) : line.lookup k = some n ↔ (k, n) ∈ line := by
  induction line with
  | nil => simp
  | cons v line ih =>
    rw [List.map_cons, List.nodup_cons] at hn
    obtain ⟨x, y⟩ := v
    rw [List.lookup_cons, List.mem_cons]
    by_cases hk : k = x
    · subst hk
      have hno : (k, n) ∉ line := fun h ↦ hn.1 (List.mem_map.2 ⟨_, h, rfl⟩)
      simp [hno, eq_comm]
    · have hkx : (k == x) = false := beq_eq_false_iff_ne.2 hk
      simp only [hkx, ih hn.2, Prod.mk.injEq, hk, false_and, false_or]

theorem Sound.lookup_views (hs : r.Sound) {id base offset : Nat} :
    (r.views id).lookup base = some offset ↔ (base, offset) ∈ r.views id :=
  lookup_eq_some_iff (hs.nodup_views id) _ _

/-! ### Bases -/

theorem isBaseOf_iff {base derived : Nat} :
    r.isBaseOf base derived = true ↔ ∃ offset, (base, offset) ∈ r.views derived := by
  simp only [isBaseOf, List.any_eq_true, decide_eq_true_eq, Prod.exists]
  constructor
  · rintro ⟨x, n, h, rfl⟩
    exact ⟨n, h⟩
  · rintro ⟨n, h⟩
    exact ⟨base, n, h, rfl⟩

theorem Sound.isBaseOf_refl (hs : r.Sound) (id : Nat) : r.isBaseOf id id = true :=
  isBaseOf_iff.2 ⟨0, hs.mem_views_self id⟩

theorem Sound.mem_views_trans (hs : r.Sound) {a b c m n : Nat} (hab : (a, m) ∈ r.views b)
    (hbc : (b, n) ∈ r.views c) : (a, n + m) ∈ r.views c := by
  obtain ⟨front, hf⟩ := hs.views_suffix hbc
  rw [hf, List.mem_append]
  exact Or.inr (mem_shift.2 ⟨m, hab, rfl⟩)

/-- Bases of bases are bases. -/
theorem Sound.isBaseOf_trans (hs : r.Sound) {a b c : Nat} (hab : r.isBaseOf a b = true)
    (hbc : r.isBaseOf b c = true) : r.isBaseOf a c = true := by
  obtain ⟨m, hm⟩ := isBaseOf_iff.1 hab
  obtain ⟨n, hn⟩ := isBaseOf_iff.1 hbc
  exact isBaseOf_iff.2 ⟨n + m, hs.mem_views_trans hm hn⟩

theorem Sound.isBaseOf_antisymm (hs : r.Sound) {a b : Nat} (hab : r.isBaseOf a b = true)
    (hba : r.isBaseOf b a = true) : a = b := by
  obtain ⟨_, hm⟩ := isBaseOf_iff.1 hab
  obtain ⟨_, hn⟩ := isBaseOf_iff.1 hba
  exact Nat.le_antisymm (hs.le_of_mem_views hm) (hs.le_of_mem_views hn)

/-- Of two bases of a type, one is a base of the other. -/
theorem Sound.isBaseOf_total (hs : r.Sound) {a b c : Nat} (hac : r.isBaseOf a c = true)
    (hbc : r.isBaseOf b c = true) : r.isBaseOf a b = true ∨ r.isBaseOf b a = true := by
  obtain ⟨m, hm⟩ := isBaseOf_iff.1 hac
  obtain ⟨n, hn⟩ := isBaseOf_iff.1 hbc
  clear hac hbc
  induction c using Nat.strongRecOn generalizing m n with
  | ind c ih =>
    have hv := hs.views_eq c
    have hm' := hm
    have hn' := hn
    rw [hv] at hm' hn'
    rcases List.mem_cons.1 hm' with ha | ha
    · obtain ⟨rfl, -⟩ := Prod.mk.inj ha
      exact Or.inr (isBaseOf_iff.2 ⟨n, hn⟩)
    rcases List.mem_cons.1 hn' with hb | hb
    · obtain ⟨rfl, -⟩ := Prod.mk.inj hb
      exact Or.inl (isBaseOf_iff.2 ⟨m, hm⟩)
    -- both are bases of the direct base
    cases hl : (r.get? c).bind (·.super) with
    | none => simp [hl] at ha
    | some link =>
      obtain ⟨d, hd, hsuper⟩ := Option.bind_eq_some_iff.1 hl
      simp only [hl] at ha hb
      obtain ⟨k, hk, -⟩ := mem_shift.1 ha
      obtain ⟨l, hl', -⟩ := mem_shift.1 hb
      exact ih link.id (hs.super_lt hd hsuper) k hk l hl'

/-! ### Casts lead to views of the same object -/

theorem Sound.toSuper?_eq_some_iff (hs : r.Sound) {v : View} {target : Nat} {a : Address} :
    r.toSuper? v target = some a ↔
      ∃ offset, (target, offset) ∈ r.views v.type ∧ a = v.address.up offset := by
  rw [toSuper?, Option.map_eq_some_iff]
  constructor
  · rintro ⟨n, hn, rfl⟩
    exact ⟨n, hs.lookup_views.1 hn, rfl⟩
  · rintro ⟨n, hn, rfl⟩
    exact ⟨n, hs.lookup_views.2 hn, rfl⟩

/-- The root of an object does not depend on the view through which it is found. -/
theorem Sound.root_eq_of_mem_views (hs : r.Sound) {v : View} {base offset : Nat}
    (h : (base, offset) ∈ r.views v.type) : r.root ⟨v.address.up offset, base⟩ = r.root v := by
  obtain ⟨front, hf⟩ := hs.views_suffix h
  have hbase := hs.views_eq base
  obtain ⟨⟨top, n⟩, hlast⟩ : ∃ x, (r.views base).getLast? = some x := by
    rw [hbase]
    exact ⟨_, List.getLast?_eq_some_getLast (List.cons_ne_nil _ _)⟩
  have hlast' : (r.views v.type).getLast? = some (top, offset + n) := by
    rw [hf, List.getLast?_append, shift, List.getLast?_map, hlast]
    rfl
  simp only [root, hlast, hlast', Address.up_up]

/-- The type of the root depends on the type of the view alone. -/
theorem root_type_congr {v w : View} (h : v.type = w.type) : (r.root v).type = (r.root w).type := by
  simp only [root, h]
  cases (r.views w.type).getLast? with
  | none => exact h
  | some top => rfl

/-- The roots of two addresses, seen as one type, are as far apart as the addresses. -/
theorem root_address_inj {type : Nat} {a b : Address}
    (h : (r.root ⟨a, type⟩).address = (r.root ⟨b, type⟩).address) : a = b := by
  simp only [root] at h
  cases hlast : (r.views type).getLast? with
  | none => simpa only [hlast] using h
  | some top =>
    simp only [hlast] at h
    exact Address.up_inj h

theorem Sound.root_toSuper (hs : r.Sound) {v : View} {target : Nat} {a : Address}
    (h : r.toSuper? v target = some a) : r.root ⟨a, target⟩ = r.root v := by
  obtain ⟨n, hn, rfl⟩ := hs.toSuper?_eq_some_iff.1 h
  exact hs.root_eq_of_mem_views hn

theorem Sound.toDerived?_eq_some (hs : r.Sound) {m : Memory} {v : View} {target : Nat}
    {a : Address} (h : r.toDerived? m v target = some a) :
    ∃ offset, (v.type, offset) ∈ r.views target ∧ a = v.address.down offset := by
  rw [toDerived?] at h
  split at h
  · obtain ⟨n, hn, rfl⟩ := Option.map_eq_some_iff.1 h
    exact ⟨n, hs.lookup_views.1 hn, rfl⟩
  · exact absurd h (by simp)

theorem Sound.root_toDerived (hs : r.Sound) {m : Memory} {v : View} {target : Nat} {a : Address}
    (h : r.toDerived? m v target = some a) : r.root ⟨a, target⟩ = r.root v := by
  obtain ⟨n, hn, rfl⟩ := hs.toDerived?_eq_some h
  have hroot := hs.root_eq_of_mem_views (v := ⟨v.address.down n, target⟩) hn
  rw [← hroot, Address.up_down]

/-! ### Weak families -/

theorem Sound.get?_of_mem_views (hs : r.Sound) {id base offset : Nat} {d : Descriptor}
    (hd : r.get? id = some d) (h : (base, offset) ∈ r.views id) : ∃ b, r.get? base = some b := by
  have hle := hs.le_of_mem_views h
  have hid : id < r.types.size := (Array.getElem?_eq_some_iff.1 hd).1
  exact ⟨_, Array.getElem?_eq_getElem (Nat.lt_of_le_of_lt hle hid)⟩

/-- A property of descriptors that passes from a direct base to a type passes from every base. -/
theorem Sound.inherit (hs : r.Sound) {P : Descriptor → Prop}
    (hP : ∀ {id d link b}, r.get? id = some d → d.super = some link → r.get? link.id = some b →
      P b → P d)
    {id base offset : Nat} {d b : Descriptor} (h : (base, offset) ∈ r.views id)
    (hd : r.get? id = some d) (hb : r.get? base = some b) (hp : P b) : P d := by
  induction id using Nat.strongRecOn generalizing offset d with
  | ind id ih =>
    rw [hs.views_eq] at h
    rcases List.mem_cons.1 h with h | h
    · obtain ⟨rfl, -⟩ := Prod.mk.inj h
      obtain rfl := Option.some.inj (hb.symm.trans hd)
      exact hp
    · cases hl : (r.get? id).bind (·.super) with
      | none => simp [hl] at h
      | some link =>
        simp only [hl] at h
        have hsuper : d.super = some link := by rwa [hd] at hl
        have hlt := hs.super_lt hd hsuper
        have hid : id < r.types.size := (Array.getElem?_eq_some_iff.1 hd).1
        have hlink : r.get? link.id = some r.types[link.id] :=
          Array.getElem?_eq_getElem (Nat.lt_trans hlt hid)
        obtain ⟨k, hk, -⟩ := mem_shift.1 h
        exact hP hd hsuper hlink (ih link.id hlt hk hlink)

/-- The types derived from a weak type are of its family. -/
theorem Sound.weakRoot_eq (hs : r.Sound) {id base offset root : Nat} {d b : Descriptor}
    (h : (base, offset) ∈ r.views id) (hd : r.get? id = some d) (hb : r.get? base = some b)
    (hw : b.weakRoot = some root) : d.weakRoot = some root :=
  hs.inherit (P := fun d ↦ d.weakRoot = some root)
    (fun hd hsuper hb hw ↦ hs.weakRoot_inherit hd hsuper hb hw) h hd hb hw

/-- The types derived from a weak type have the anchor in the same place. -/
theorem Sound.anchor_eq (hs : r.Sound) {id base offset n : Nat} {d b : Descriptor}
    (h : (base, offset) ∈ r.views id) (hd : r.get? id = some d) (hb : r.get? base = some b)
    (ha : b.anchor = some n) : d.anchor = some n :=
  hs.inherit (P := fun d ↦ d.anchor = some n)
    (fun hd hsuper hb ha ↦ hs.anchor_inherit hd hsuper hb ha) h hd hb ha

/-! ### Anchors -/

/-- The cell of the anchor of the object seen as `v`. -/
def anchorCell? (r : Registry) (v : View) : Option Address :=
  ((r.get? v.type).bind (·.anchor)).map fun offset ↦ (r.root v).address.up offset

/-- What the views of one weak object have in common: the anchor and the root. -/
def identity (r : Registry) (v : View) : Option Address × View :=
  (r.anchorCell? v, r.root v)

/-- **Every view of a weak object leads to one anchor.** -/
theorem Sound.anchorCell?_eq (hs : r.Sound) {v w : View} {offset : Nat} {c : Address}
    (h : (w.type, offset) ∈ r.views v.type) (hroot : r.root w = r.root v)
    (hv : (r.get? v.type).isSome = true) (hc : r.anchorCell? w = some c) :
    r.anchorCell? v = some c := by
  obtain ⟨d, hd⟩ := Option.isSome_iff_exists.1 hv
  obtain ⟨n, hn, rfl⟩ := Option.map_eq_some_iff.1 hc
  obtain ⟨b, hb, ha⟩ := Option.bind_eq_some_iff.1 hn
  rw [anchorCell?, hd, Option.bind_some, hs.anchor_eq h hd hb ha, Option.map_some, hroot]

/-- Two views with one anchor, one of a type derived from that of the other, have one root. -/
theorem Sound.root_eq_of_anchorCell? (hs : r.Sound) {v w : View} {c : Address}
    (hbase : r.isBaseOf w.type v.type = true) (hv : r.anchorCell? v = some c)
    (hw : r.anchorCell? w = some c) : r.root w = r.root v := by
  obtain ⟨n, hn⟩ := isBaseOf_iff.1 hbase
  obtain ⟨k, hk, hkc⟩ := Option.map_eq_some_iff.1 hw
  obtain ⟨m, hm, hmc⟩ := Option.map_eq_some_iff.1 hv
  obtain ⟨b, hb, hab⟩ := Option.bind_eq_some_iff.1 hk
  obtain ⟨d, hd, had⟩ := Option.bind_eq_some_iff.1 hm
  have hoff : d.anchor = some k := hs.anchor_eq hn hd hb hab
  obtain rfl : k = m := Option.some.inj (hoff.symm.trans had)
  have haddr : (r.root w).address = (r.root v).address := Address.up_inj (hkc.trans hmc.symm)
  -- the roots of a type and of its base are one type, whatever the addresses
  have htype : (r.root w).type = (r.root v).type := by
    have hroot := hs.root_eq_of_mem_views hn
    rw [← hroot]
    exact root_type_congr rfl
  calc r.root w = ⟨(r.root w).address, (r.root w).type⟩ := rfl
    _ = ⟨(r.root v).address, (r.root v).type⟩ := by rw [haddr, htype]

end Registry

end ObjectBridge
