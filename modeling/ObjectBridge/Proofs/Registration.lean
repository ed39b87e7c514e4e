import ObjectBridge.Proofs.Lineage
import ObjectBridge.Registry.Plan

/-!
# What registration guarantees

Every registry that a plan leads to is sound (`Registry.sound_ofPlan`): links go to smaller numbers,
the types derived from a weak type belong to its family and have their anchor in the same place, and
a slot of packed words belongs to the type, or to the weak family of the type, that has it.

The first two are decided when a descriptor is created, from the descriptor of its base, and nothing
changes them afterwards: the part of a descriptor that counts for them is its `Stem`, and members,
children and slots are not part of it. Slots are handed out at the end, one type after the other;
`Slots.Sound` is what the slots handed out so far satisfy.
-/

namespace ObjectBridge

/-- What is fixed when a descriptor is created. -/
structure Stem where
  id : Nat
  super : Option SuperLink
  weakRoot : Option Nat
  anchor : Option Nat

def Descriptor.stem (d : Descriptor) : Stem :=
  ⟨d.id, d.super, d.weakRoot, d.anchor⟩

namespace Builder

/-- The stem of the descriptor with a number. -/
def stem? (b : Builder) (i : Nat) : Option Stem :=
  b.types[i]?.map Descriptor.stem

/-- No slot has been handed out. -/
def Unslotted (b : Builder) : Prop :=
  ∀ (i : Nat) (d : Descriptor), b.types[i]? = some d → d.lightSlot = 0

/-- What holds of the types registered so far. -/
structure Sound (b : Builder) : Prop where
  lt_of_byKey : ∀ {t id}, b.byKey.find? t = some id → id < b.types.size
  id_eq : ∀ {i s}, b.stem? i = some s → s.id = i
  super_lt : ∀ {i s link}, b.stem? i = some s → s.super = some link → link.id < i
  isSome_anchor : ∀ {i s}, b.stem? i = some s → s.anchor.isSome = s.weakRoot.isSome
  inherit : ∀ {i s link base}, b.stem? i = some s → s.super = some link →
    b.stem? link.id = some base →
      (∀ root, base.weakRoot = some root → s.weakRoot = some root) ∧
        ∀ n, base.anchor = some n → s.anchor = some n
  family : ∀ {i s root}, b.stem? i = some s → s.weakRoot = some root →
    ∃ base, b.stem? root = some base ∧ base.anchor = s.anchor
  unslotted : b.Unslotted

theorem sound_empty : (({} : Builder)).Sound where
  lt_of_byKey h := by simp [Dict.empty, Dict.find?] at h
  id_eq h := by simp [stem?] at h
  super_lt h := by simp [stem?] at h
  isSome_anchor h := by simp [stem?] at h
  inherit h := by simp [stem?] at h
  family h := by simp [stem?] at h
  unslotted i d h := by simp at h

variable {b : Builder}

/-! ### Changes that keep the stems -/

/-- Another builder with the same keys, the same stems, and still no slots. -/
structure Keeps (b b' : Builder) : Prop where
  byKey : b'.byKey = b.byKey
  size : b'.types.size = b.types.size
  stem? : ∀ i, b'.stem? i = b.stem? i
  unslotted : b.Unslotted → b'.Unslotted

theorem Keeps.refl (b : Builder) : Keeps b b :=
  ⟨rfl, rfl, fun _ ↦ rfl, fun h ↦ h⟩

theorem Keeps.trans {b b' b'' : Builder} (h : Keeps b b') (h' : Keeps b' b'') : Keeps b b'' :=
  ⟨h'.byKey.trans h.byKey, h'.size.trans h.size, fun i ↦ (h'.stem? i).trans (h.stem? i),
    fun hu ↦ h'.unslotted (h.unslotted hu)⟩

theorem Sound.keeps {b' : Builder} (hb : b.Sound) (hk : Keeps b b') : b'.Sound where
  lt_of_byKey h := by
    rw [hk.byKey] at h
    rw [hk.size]
    exact hb.lt_of_byKey h
  id_eq h := hb.id_eq (hk.stem? _ ▸ h)
  super_lt h := hb.super_lt (hk.stem? _ ▸ h)
  isSome_anchor h := hb.isSome_anchor (hk.stem? _ ▸ h)
  inherit h hs h' := hb.inherit (hk.stem? _ ▸ h) hs (hk.stem? _ ▸ h')
  family h hw := by
    obtain ⟨base, hbase, ha⟩ := hb.family (hk.stem? _ ▸ h) hw
    exact ⟨base, (hk.stem? _).trans hbase, ha⟩
  unslotted := hk.unslotted hb.unslotted

theorem stem?_modify (types : Array Descriptor) (j i : Nat) (f : Descriptor → Descriptor)
    (hf : ∀ d, (f d).stem = d.stem) :
    (types.modify j f)[i]?.map Descriptor.stem = types[i]?.map Descriptor.stem := by
  rw [Array.getElem?_modify]
  split
  · cases types[i]? <;> simp [hf]
  · rfl

theorem Unslotted.modify (hb : b.Unslotted) (j : Nat) {f : Descriptor → Descriptor}
    (hf : ∀ d, (f d).lightSlot = d.lightSlot) :
    ({ b with types := b.types.modify j f } : Builder).Unslotted := by
  intro i d h
  rw [Array.getElem?_modify] at h
  split at h
  · obtain ⟨d', hd', rfl⟩ := Option.map_eq_some_iff.1 h
    rw [hf]
    exact hb i d' hd'
  · exact hb i d h

theorem keeps_modify (b : Builder) (j : Nat) {f : Descriptor → Descriptor}
    (hf : ∀ d, (f d).stem = d.stem) (hl : ∀ d, (f d).lightSlot = d.lightSlot) :
    Keeps b { b with types := b.types.modify j f } :=
  ⟨rfl, by simp, fun i ↦ stem?_modify b.types j i f hf, fun hu ↦ hu.modify j hl⟩

theorem keeps_conflict (b : Builder) (c : Conflict) : Keeps b (b.conflict c) :=
  ⟨rfl, rfl, fun _ ↦ rfl, fun h ↦ h⟩

theorem keeps_claimName (b : Builder) (name : String) : Keeps b (b.claimName name) := by
  rw [claimName]
  split
  · exact keeps_conflict b _
  · exact ⟨rfl, rfl, fun _ ↦ rfl, fun h ↦ h⟩

theorem keeps_addMember (b : Builder) (id : Nat) (entry : String × Member) :
    Keeps b (b.addMember id entry) := by
  rw [addMember]
  split
  · split
    · exact keeps_conflict b _
    · exact keeps_modify b id (fun _ ↦ rfl) fun _ ↦ rfl
  · exact Keeps.refl b

theorem keeps_addMembers (b : Builder) (id : Nat) (members : List (String × Member)) :
    Keeps b (members.foldl (fun b entry ↦ b.addMember id entry) b) := by
  induction members generalizing b with
  | nil => exact Keeps.refl b
  | cons entry members ih => exact (keeps_addMember b id entry).trans (ih _)

/-! ### Creating a descriptor -/

theorem describe_stem (b : Builder) (d : Declaration) (t : TypeKey) (super : Option SuperLink) :
    (b.describe d t super).stem =
      let base := super.bind fun link ↦ b.stem? link.id
      let anchor := (base.bind (·.anchor)).or d.anchor
      ⟨b.types.size, super, (base.bind (·.weakRoot)).or (anchor.map fun _ ↦ b.types.size),
        anchor⟩ := by
  cases super with
  | none => rfl
  | some link =>
    simp only [Descriptor.stem, describe, stem?, Option.bind_some]
    cases b.types[link.id]? <;> rfl

/-- The link to the base of a type, when the base is registered. -/
def baseLink? (b : Builder) (c : Catalogue) (t : TypeKey) : Option SuperLink :=
  (c.declaration t).base.bind fun link ↦
    (b.byKey.find? link.type).map fun id ↦ ⟨id, link.offset⟩

/-- Creating a descriptor notes it with its name and with its base, which keeps the stems, and puts
it behind the others. -/
theorem create_eq (b : Builder) (c : Catalogue) (t : TypeKey) :
    ∃ b', Keeps b b' ∧ b.create c t =
      { b' with
        types := b'.types.push (b.describe (c.declaration t) t (b.baseLink? c t))
        byKey := b'.byKey.insert t b.types.size } := by
  have hkeep := keeps_claimName b (c.declaration t).name
  rw [create, ← baseLink?]
  cases b.baseLink? c t with
  | none => exact ⟨_, hkeep, rfl⟩
  | some link =>
    have hchild := keeps_modify (b.claimName (c.declaration t).name) link.id
      (f := fun base ↦ { base with
        children := base.children ++ [(b.describe (c.declaration t) t (some link)).id] })
      (fun _ ↦ rfl) fun _ ↦ rfl
    exact ⟨_, hkeep.trans hchild, rfl⟩

/-- The stem of the descriptor that is created for a type. -/
def newStem (b : Builder) (c : Catalogue) (t : TypeKey) : Stem :=
  (b.describe (c.declaration t) t (b.baseLink? c t)).stem

/-- The stems after a descriptor has been created: those there were, and behind them its own. -/
theorem stem?_create (b : Builder) (c : Catalogue) (t : TypeKey) (i : Nat) :
    (b.create c t).stem? i = if i = b.types.size then some (b.newStem c t) else b.stem? i := by
  obtain ⟨b', hkeep, heq⟩ := create_eq b c t
  rw [heq, stem?, Array.getElem?_push, hkeep.size]
  split
  · rfl
  · exact hkeep.stem? i

theorem Sound.lt_of_baseLink? (hb : b.Sound) {c : Catalogue} {t : TypeKey} {link : SuperLink}
    (h : b.baseLink? c t = some link) : link.id < b.types.size := by
  obtain ⟨d, -, hd⟩ := Option.bind_eq_some_iff.1 h
  obtain ⟨id, hid, rfl⟩ := Option.map_eq_some_iff.1 hd
  exact hb.lt_of_byKey hid

theorem size_create (b : Builder) (c : Catalogue) (t : TypeKey) :
    (b.create c t).types.size = b.types.size + 1 := by
  obtain ⟨b', hkeep, heq⟩ := create_eq b c t
  rw [heq, Array.size_push, hkeep.size]

theorem byKey_create (b : Builder) (c : Catalogue) (t : TypeKey) :
    (b.create c t).byKey = b.byKey.insert t b.types.size := by
  obtain ⟨b', hkeep, heq⟩ := create_eq b c t
  rw [heq, hkeep.byKey]

theorem unslotted_create (hu : b.Unslotted) (c : Catalogue) (t : TypeKey) :
    (b.create c t).Unslotted := by
  obtain ⟨b', hkeep, heq⟩ := create_eq b c t
  intro i d h
  rw [heq, Array.getElem?_push] at h
  split at h
  · obtain rfl := Option.some.inj h
    rfl
  · exact hkeep.unslotted hu i d h

theorem lt_of_stem? {i : Nat} {s : Stem} (h : b.stem? i = some s) : i < b.types.size := by
  obtain ⟨d, hd, -⟩ := Option.map_eq_some_iff.1 h
  exact (Array.getElem?_eq_some_iff.1 hd).1

/-- A stem is an old one, or the new one. -/
theorem stem?_create_cases {c : Catalogue} {t : TypeKey} {i : Nat} {s : Stem}
    (h : (b.create c t).stem? i = some s) :
    b.stem? i = some s ∨ i = b.types.size ∧ s = b.newStem c t := by
  rw [stem?_create] at h
  split at h
  · rename_i hi
    exact Or.inr ⟨hi, (Option.some.inj h).symm⟩
  · exact Or.inl h

theorem stem?_create_of_lt (c : Catalogue) (t : TypeKey) {i : Nat} (hi : i < b.types.size) :
    (b.create c t).stem? i = b.stem? i := by
  rw [stem?_create, if_neg (Nat.ne_of_lt hi)]

/-- A new descriptor has an anchor exactly if it belongs to a family. -/
theorem Sound.isSome_anchor_newStem (hb : b.Sound) (c : Catalogue) (t : TypeKey) :
    (b.newStem c t).anchor.isSome = (b.newStem c t).weakRoot.isSome := by
  rw [newStem, describe_stem]
  cases hbase : (b.baseLink? c t).bind fun link ↦ b.stem? link.id with
  | none => cases (c.declaration t).anchor <;> rfl
  | some base =>
    obtain ⟨link, -, hlink⟩ := Option.bind_eq_some_iff.1 hbase
    have hsome := hb.isSome_anchor hlink
    cases ha : base.anchor <;> cases hw : base.weakRoot <;>
      cases (c.declaration t).anchor <;> simp_all

/-- A new descriptor takes family and anchor over from its base, if that has them. -/
theorem inherit_newStem {c : Catalogue} {t : TypeKey} {link : SuperLink} {base : Stem}
    (hsuper : b.baseLink? c t = some link) (hbase : b.stem? link.id = some base) :
    (∀ root, base.weakRoot = some root → (b.newStem c t).weakRoot = some root) ∧
      ∀ n, base.anchor = some n → (b.newStem c t).anchor = some n := by
  rw [newStem, describe_stem, hsuper]
  simp only [Option.bind_some, hbase]
  exact ⟨fun root hr ↦ by simp [hr], fun n hn ↦ by simp [hn]⟩

/-- A new descriptor has the anchor of the first of its family, which may be itself. -/
theorem Sound.family_newStem (hb : b.Sound) {c : Catalogue} {t : TypeKey} {root : Nat}
    (hroot : (b.newStem c t).weakRoot = some root) :
    root = b.types.size ∨
      ∃ first, b.stem? root = some first ∧ first.anchor = (b.newStem c t).anchor := by
  rw [newStem, describe_stem] at hroot ⊢
  simp only [Option.or_eq_some_iff] at hroot
  rcases hroot with hroot | ⟨-, hroot⟩
  · obtain ⟨base, hbase, hw⟩ := Option.bind_eq_some_iff.1 hroot
    obtain ⟨link, -, hlink⟩ := Option.bind_eq_some_iff.1 hbase
    obtain ⟨first, hfirst, ha⟩ := hb.family hlink hw
    have hsome := hb.isSome_anchor hlink
    rw [hw] at hsome
    obtain ⟨n, hn⟩ := Option.isSome_iff_exists.1 hsome
    exact Or.inr ⟨first, hfirst, by simp [ha, hbase, hn]⟩
  · obtain ⟨n, -, rfl⟩ := Option.map_eq_some_iff.1 hroot
    exact Or.inl rfl

/-- **Creating a descriptor keeps a builder sound.** -/
theorem Sound.create (hb : b.Sound) (c : Catalogue) (t : TypeKey) : (b.create c t).Sound where
  lt_of_byKey h := by
    rw [byKey_create, Dict.find?_insert] at h
    rw [size_create]
    split at h
    · exact Option.some.inj h ▸ Nat.lt_succ_self _
    · exact Nat.lt_succ_of_lt (hb.lt_of_byKey h)
  id_eq h := by
    rcases stem?_create_cases h with h | ⟨rfl, rfl⟩
    · exact hb.id_eq h
    · rfl
  super_lt h hsuper := by
    rcases stem?_create_cases h with h | ⟨rfl, rfl⟩
    · exact hb.super_lt h hsuper
    · exact hb.lt_of_baseLink? hsuper
  isSome_anchor h := by
    rcases stem?_create_cases h with h | ⟨-, rfl⟩
    · exact hb.isSome_anchor h
    · exact hb.isSome_anchor_newStem c t
  inherit {i s link base} h hsuper hbase := by
    rcases stem?_create_cases h with h | ⟨-, rfl⟩
    · rw [stem?_create_of_lt c t (Nat.lt_trans (hb.super_lt h hsuper) (lt_of_stem? h))] at hbase
      exact hb.inherit h hsuper hbase
    · have hsuper' : b.baseLink? c t = some link := hsuper
      rw [stem?_create_of_lt c t (hb.lt_of_baseLink? hsuper')] at hbase
      exact inherit_newStem hsuper' hbase
  family {i s root} h hroot := by
    have hold {s' : Stem} (h' : b.stem? root = some s') : (b.create c t).stem? root = some s' :=
      (stem?_create_of_lt c t (lt_of_stem? h')).trans h'
    rcases stem?_create_cases h with h | ⟨-, rfl⟩
    · obtain ⟨base, hbase, ha⟩ := hb.family h hroot
      exact ⟨base, hold hbase, ha⟩
    · rcases hb.family_newStem hroot with rfl | ⟨first, hfirst, ha⟩
      · exact ⟨_, by rw [stem?_create, if_pos rfl], rfl⟩
      · exact ⟨first, hold hfirst, ha⟩
  unslotted := unslotted_create hb.unslotted c t

theorem Sound.ensure (hb : b.Sound) (c : Catalogue) (t : TypeKey) : (b.ensure c t).Sound := by
  rw [Builder.ensure]
  split
  · exact hb
  · exact hb.create c t

theorem Sound.register (hb : b.Sound) (c : Catalogue) (t : TypeKey) : (b.register c t).Sound := by
  rw [Builder.register]
  generalize ((c.lineage t).map Prod.fst).reverse = line
  induction line generalizing b with
  | nil => exact hb
  | cons t line ih => exact ih (hb.ensure c t)

theorem Sound.declare (hb : b.Sound) (c : Catalogue) (t : TypeKey)
    (members : List (String × Member)) (close : Bool) : (b.declare c t members close).Sound := by
  have hr := hb.register c t
  rw [Builder.declare]
  simp only
  split
  · split
    · exact hr.keeps (keeps_conflict _ _)
    · have hm := hr.keeps (keeps_addMembers (b.register c t) ((b.register c t).idOf t) members)
      split
      · exact hm.keeps (keeps_modify _ _ (fun _ ↦ rfl) fun _ ↦ rfl)
      · exact hm
  · exact hr

theorem Sound.step (hb : b.Sound) (c : Catalogue) (s : PlanStep) : (b.step c s).Sound := by
  cases s with
  | create t => exact hb.register c t
  | declare t members close => exact hb.declare c t members close
  | fill types =>
    rw [Builder.step]
    induction types generalizing b with
    | nil => exact hb
    | cons t types ih => exact ih (hb.register c t)

/-- **Every plan leads to a sound builder.** -/
theorem sound_runPlan (c : Catalogue) (plan : List PlanStep) : (runPlan c plan).1.Sound := by
  have hfold : ∀ (plan : List PlanStep) (state : Builder × List PlanNote), state.1.Sound →
      (plan.foldl (notedStep c) state).1.Sound := by
    intro plan
    induction plan with
    | nil => exact fun _ h ↦ h
    | cons s plan ih => exact fun state h ↦ ih _ (h.step c s)
  exact hfold plan _ sound_empty

/-! ### Slots of packed words -/

/-- What holds of the slots handed out so far. -/
structure Slots.Sound (s : Slots) : Prop where
  size_le : s.owners.size ≤ maxLightSlots
  family : ∀ {root slot}, s.families.find? root = some slot →
    slot ≠ 0 ∧ s.owners[slot - 1]? = some (.weakFamily root)

/-- The owners of the slots handed out so far stay. -/
def Slots.Extends (s s' : Slots) : Prop :=
  ∀ {i : Nat} {o}, s.owners[i]? = some o → s'.owners[i]? = some o

theorem Slots.sound_empty : (({} : Slots)).Sound where
  size_le := Nat.zero_le _
  family h := by simp [Dict.empty, Dict.find?] at h

variable {s : Slots}

/-- A slot that is handed out is a new one, and belongs to the owner it was asked for. -/
theorem Slots.Sound.next (hs : s.Sound) (owner : LightSlot) :
    (s.next owner).2.Sound ∧ s.Extends (s.next owner).2 ∧
      ∀ slot, (s.next owner).1 = some slot →
        slot ≠ 0 ∧ (s.next owner).2.owners[slot - 1]? = some owner := by
  rw [Slots.next]
  split
  · exact ⟨hs, fun h ↦ h, fun slot h ↦ by simp at h⟩
  · rename_i hlt
    have hext : s.Extends { s with owners := s.owners.push owner } := fun {i o} h ↦ by
      rw [Array.getElem?_push, if_neg (Nat.ne_of_lt (Array.getElem?_eq_some_iff.1 h).1)]
      exact h
    refine ⟨⟨?_, fun {root slot} h ↦ ?_⟩, hext, fun slot h ↦ ?_⟩
    · rw [Array.size_push]
      omega
    · exact ⟨(hs.family h).1, hext (hs.family h).2⟩
    · obtain rfl := Option.some.inj h
      exact ⟨Nat.succ_ne_zero _, by simp⟩

/-- **The slot of a type belongs to the type or to its weak family.** -/
theorem Slots.Sound.assign (hs : s.Sound) (d : Descriptor) :
    (s.assign d).2.Sound ∧ s.Extends (s.assign d).2 ∧
      ∀ slot, (s.assign d).1 = some slot →
        slot ≠ 0 ∧ (s.assign d).2.owners[slot - 1]? = some d.slotOwner := by
  rw [Slots.assign, Descriptor.slotOwner]
  cases d.weakRoot with
  | none => exact hs.next _
  | some root =>
    simp only
    cases hf : s.families.find? root with
    | some slot =>
      refine ⟨hs, fun h ↦ h, fun slot' h ↦ ?_⟩
      obtain rfl := Option.some.inj h
      exact hs.family hf
    | none =>
      obtain ⟨hn, hext, hslot⟩ := hs.next (.weakFamily root)
      revert hn hext hslot
      rcases s.next (.weakFamily root) with ⟨_ | slot, s'⟩ <;> intro hn hext hslot
      · exact ⟨hn, hext, fun slot h ↦ by simp at h⟩
      · refine ⟨⟨hn.size_le, fun {root' slot'} h ↦ ?_⟩, hext, hslot⟩
        rw [Dict.find?_insert] at h
        split at h
        · rename_i hroot
          obtain rfl := Option.some.inj h
          exact hroot ▸ hslot slot rfl
        · exact hn.family h

/-- The slots that types have so far belong to them. -/
structure Settled (state : Builder × Slots) : Prop where
  slots : state.2.Sound
  owner : ∀ {i : Nat} {d : Descriptor}, state.1.types[i]? = some d → d.lightSlot ≠ 0 →
    state.2.owners[d.lightSlot - 1]? = some d.slotOwner

/-- Settling a type touches its slot and nothing else of the descriptors. -/
theorem settle_eq {i : Nat} {d : Descriptor} (hd : b.types[i]? = some d) :
    (settle (b, s) i).2 = (s.assign d).2 ∧
      (settle (b, s) i).1.types = b.types.modify i fun d' ↦
        { d' with lightSlot := (s.assign d).1.getD d'.lightSlot, finalized := true } := by
  simp only [settle, hd]
  cases (s.assign d).1 <;> exact ⟨trivial, rfl⟩

/-- Settling a type keeps the stems, and the slots belong to their types afterwards. -/
theorem Settled.settle {state : Builder × Slots} (hs : Settled state) (i : Nat) :
    Settled (Builder.settle state i) ∧
      ∀ j, (Builder.settle state i).1.stem? j = state.1.stem? j := by
  obtain ⟨b, s⟩ := state
  cases hd : b.types[i]? with
  | none =>
    have heq : Builder.settle (b, s) i = (b, s) := by simp only [Builder.settle, hd]
    rw [heq]
    exact ⟨hs, fun _ ↦ rfl⟩
  | some d =>
    obtain ⟨hslots, htypes⟩ := settle_eq (s := s) hd
    obtain ⟨hsound, hext, hslot⟩ := hs.slots.assign d
    refine ⟨⟨hslots ▸ hsound, fun {j d'} hj hne ↦ ?_⟩, fun j ↦ ?_⟩
    · rw [htypes, Array.getElem?_modify] at hj
      rw [hslots]
      split at hj
      · rename_i hij
        subst hij
        rw [hd] at hj
        obtain rfl := Option.some.inj hj
        simp only at hne ⊢
        cases ho : (s.assign d).1 with
        | some slot => exact (hslot slot ho).2
        | none =>
          rw [ho] at hne
          exact hext (hs.owner hd hne)
      · exact hext (hs.owner hj hne)
    · rw [stem?, htypes]
      exact stem?_modify b.types i j _ fun _ ↦ rfl

theorem Settled.foldl {state : Builder × Slots} (hs : Settled state) (l : List Nat) :
    Settled (l.foldl Builder.settle state) ∧
      ∀ j, (l.foldl Builder.settle state).1.stem? j = state.1.stem? j := by
  induction l generalizing state with
  | nil => exact ⟨hs, fun _ ↦ rfl⟩
  | cons i l ih =>
    obtain ⟨h₁, hstem⟩ := hs.settle i
    obtain ⟨h₂, hstem'⟩ := ih h₁
    exact ⟨h₂, fun j ↦ (hstem' j).trans (hstem j)⟩

/-! ### The registry -/

theorem Sound.build (hb : b.Sound) : b.build.Sound := by
  have hstart : Settled (b, {}) :=
    ⟨Slots.sound_empty, fun {i d} h hne ↦ absurd (hb.unslotted i d h) hne⟩
  obtain ⟨hsettled, hstem⟩ := hstart.foldl (List.range b.types.size)
  have hget : ∀ {i d}, b.build.get? i = some d → b.stem? i = some d.stem := fun {i d} h ↦ by
    rw [← hstem i]
    exact congrArg (Option.map Descriptor.stem) h
  have hback : ∀ {i st}, b.stem? i = some st → ∃ d, b.build.get? i = some d ∧ d.stem = st :=
    fun {i st} h ↦ by
      rw [← hstem i] at h
      exact Option.map_eq_some_iff.1 h
  refine ⟨fun h hsuper ↦ hb.super_lt (hget h) hsuper, fun h ↦ hb.isSome_anchor (hget h),
    fun h hsuper hbase hw ↦ (hb.inherit (hget h) hsuper (hget hbase)).1 _ hw,
    fun h hsuper hbase ha ↦ (hb.inherit (hget h) hsuper (hget hbase)).2 _ ha,
    fun {i d root} h hw ↦ ?_, fun {i d} h ↦ ?_, fun h hne ↦ hsettled.owner h hne,
    fun h ↦ hb.id_eq (hget h)⟩
  · obtain ⟨st, hst, ha⟩ := hb.family (hget h) hw
    obtain ⟨base, hbase, rfl⟩ := hback hst
    exact ⟨base, hbase, ha⟩
  · by_cases hne : d.lightSlot = 0
    · omega
    · have hlt := (Array.getElem?_eq_some_iff.1 (hsettled.owner h hne)).1
      have hle := hsettled.slots.size_le
      simp only [maxLightSlots] at hle
      omega

end Builder

/-- **Every registration leads to a sound registry.** -/
theorem Registry.sound_ofPlan (c : Catalogue) (plan : List PlanStep) :
    (Registry.ofPlan c plan).Sound :=
  (Builder.sound_runPlan c plan).build

end ObjectBridge
