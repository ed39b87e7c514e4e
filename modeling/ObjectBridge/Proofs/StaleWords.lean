import ObjectBridge.Proofs.Families
import ObjectBridge.Proofs.MemberAccess

/-!
# Words of objects that are gone

A packed word outlives the object that it was made for (`World.Orphaned`). It is stale then, and is known
by a type that its slot of packed words and the table of weak objects still tell: the type recorded in the
slot of the handle, or the type that starts the family if that slot is free (`WeakTable.told`). Reading or
writing a member fails, and the failure names this type.

The slot of a handle is used again, by objects of whatever family. So the type that a stale word is known
by is of the family of its object if the slot is free or is occupied by another object of the family, and
is not if it is occupied by anything else (`World.Orphaned.stale`). To find live objects, the family is
compared before the slot is trusted (`Registry.resolveWord?`); to find a name for a stale one it is not.
-/

namespace ObjectBridge

/-- The type that the slot of a handle tells: that of the object that occupies it, or else `root`. -/
def WeakTable.told (t : WeakTable) (index root : Nat) : Nat :=
  ((t.view? index).map (·.type)).getD root

/-- The type told is of the family of `root` if and only if the slot has no object of another family. -/
theorem Registry.family?_told_iff {r : Registry} {root : Nat} (hroot : r.family? root = some root)
    (t : WeakTable) (index : Nat) : r.family? (t.told index root) = some root ↔
      ∀ v, t.view? index = some v → r.family? v.type = some root := by
  rw [WeakTable.told]
  cases t.view? index with
  | none => simpa using hroot
  | some v => simp

namespace Registry

variable {r : Registry} {h : Handle} {id root : Nat} {word : UInt64} {v : View}

/-! ### What a packed handle leads to -/

/-- The type that the word of a handle is known by is the one that the slot of the handle tells. -/
theorem Sound.staleType?_eq (hs : r.Sound) (hpacked : r.packWeak? h id = some word)
    (hid : r.family? id = some root) (t : WeakTable) :
    r.staleType? t word = some (t.told h.index root) := by
  obtain ⟨⟨root', hroot', hslot⟩, hindex, -⟩ := hs.fields_packWeak hpacked (isWeak_of_family? hid)
  obtain rfl : root' = root := Option.some.inj (hroot'.symm.trans hid)
  rw [staleType?, hslot, hindex]
  rfl

/-- The word of a handle leads to what occupies the slot of the handle, if that is of the family of
the word, and has a serial that the word cannot tell from that of the handle. -/
theorem Sound.holds_of_resolveWord? (hs : r.Sound) (hpacked : r.packWeak? h id = some word)
    (hid : r.family? id = some root) {t : WeakTable} (hv : r.resolveWord? t word = some v) :
    r.family? v.type = some root ∧
      ∃ n, t.Holds h.index n v ∧ n % serialBound = h.serial % serialBound := by
  obtain ⟨⟨root', hroot', hslot⟩, hindex, hserial⟩ :=
    hs.fields_packWeak hpacked (isWeak_of_family? hid)
  obtain rfl : root' = root := Option.some.inj (hroot'.symm.trans hid)
  rw [← hindex, ← hserial]
  exact holds_of_weakFamily hslot hv

end Registry

/-- A handle of which the slot is occupied under another serial that has the same last bits: the
serials have come around. -/
theorem WeakTable.Sound.lt_nextSerial_of_congr {t : WeakTable} (ht : t.Sound) {h : Handle} {n : Nat}
    {v : View} (hv : t.Holds h.index n v) (hn : n % serialBound = h.serial % serialBound)
    (hlt : h.serial < t.nextSerial) (hgone : t.resolve h = none) : serialBound < t.nextSerial := by
  by_contra hbound
  have hnlt : n < t.nextSerial := ht.lt_of_holds hv
  rw [Nat.mod_eq_of_lt (by omega), Nat.mod_eq_of_lt (by omega)] at hn
  subst hn
  rw [t.resolve_eq_some_iff.2 hv] at hgone
  exact absurd hgone (by simp)

/-! ### Access to members -/

namespace Exec

variable {w : World} {type : Nat} {name : String}

/-- An argument that is stale is known by its type alone. -/
theorem ends_objectArgument_stale (hv : w.resolve (w.binding.machine.valueAt 1) = .stale type)
    {Q : Nat × Option View → World → Prop} {E : Interrupt → World → Prop} :
    Ends objectArgument Q E w ↔ Q (type, none) w := by
  simp only [objectArgument, valueAt, resolve, ends_bind, ends_machine, ends_pure, ends_get, hv]

/-- No member of a stale value can be read. -/
theorem ends_objectIndex_stale (hv : w.resolve (w.binding.machine.valueAt 1) = .stale type)
    (hname : w.binding.machine.textAt? 2 = some name) :
    Ends objectIndex (fun _ _ ↦ False) (fun i w' ↦ w' = w ∧
      i = .failure (.nilObject (w.binding.registry.nameOf type) name)) w := by
  simp only [objectIndex, ends_bind, ends_objectArgument_stale hv, ends_registry, ends_machine, hname]
  exact ⟨rfl, rfl⟩

/-- No member of a stale value can be written. -/
theorem ends_objectNewIndex_stale (hv : w.resolve (w.binding.machine.valueAt 1) = .stale type)
    (hname : w.binding.machine.textAt? 2 = some name) :
    Ends objectNewIndex (fun _ _ ↦ False) (fun i w' ↦ w' = w ∧
      i = .failure (.nilObject (w.binding.registry.nameOf type) name)) w := by
  simp only [objectNewIndex, ends_bind, ends_objectArgument_stale hv, ends_registry, ends_machine, hname,
    Option.getD_some]
  exact ⟨rfl, rfl⟩

end Exec

/-! ### Orphaned words -/

namespace World

variable {w : World} {word : UInt64} {h : Handle} {root : Nat} {c : Catalogue} {plan : List PlanStep}

/-- **The word of an object that is gone**: it was packed for a handle when that led to an object of the
family of `root`, and after further uses of the table the handle leads nowhere. -/
structure Orphaned (w : World) (word : UInt64) (h : Handle) (root : Nat) : Prop where
  made : ∃ t u id, WeakTable.Run w.binding.registry {} t ∧ t.resolve h = some u ∧
    w.binding.registry.family? u.type = some root ∧ w.binding.registry.family? id = some root ∧
    w.binding.registry.packWeak? h id = some word ∧
    WeakTable.Run w.binding.registry t w.weakTable
  gone : w.weakTable.resolve h = none

/-- An orphaned word is known by what the slot of its handle tells, or leads to another object of the
family if the serials have come around. -/
theorem Orphaned.resolveWord (ho : w.Orphaned word h root) (hs : w.binding.registry.Sound) :
    w.resolveWord word = .stale (w.weakTable.told h.index root) ∨
      ∃ v, w.resolveWord word = .live v ∧ w.binding.registry.family? v.type = some root ∧
        serialBound < w.weakTable.nextSerial := by
  obtain ⟨t, u, id, hbefore, hu, -, hid, hpacked, hafter⟩ := ho.made
  obtain ⟨ht, -⟩ := hbefore.climbs hs WeakTable.sound_empty
  obtain ⟨ht', hclimbs⟩ := hafter.climbs hs ht
  cases hv : w.binding.registry.resolveWord? w.weakTable word with
  | none => exact .inl (by simp only [World.resolveWord, hv, hs.staleType?_eq hpacked hid])
  | some v =>
    obtain ⟨hfamily, n, hn, hserial⟩ := hs.holds_of_resolveWord? hpacked hid hv
    have hlt : h.serial < w.weakTable.nextSerial :=
      Nat.lt_of_lt_of_le (ht.lt_of_holds (t.resolve_eq_some_iff.1 hu)) hclimbs.nextSerial_le
    exact .inr ⟨v, by simp only [World.resolveWord, hv], hfamily,
      ht'.lt_nextSerial_of_congr hn hserial hlt ho.gone⟩

/-- **What is left of a word whose object is gone**, in a world with a registry that a registration leads
to, whatever use has been made of the table. As long as the serials have not come around the word is
stale, and is known by the type `told` by the slot of its handle; it leads to another object of its own
family at the most. That type is of the family of the word if and only if the slot has not come to an
object of another family; and it is this type that a failure names when a member of the word is read or
written. -/
theorem Orphaned.stale (ho : w.Orphaned word h root)
    (hregistry : w.binding.registry = Registry.ofPlan c plan) :
    (w.resolveWord word = .stale (w.weakTable.told h.index root) ∨
      ∃ v, w.resolveWord word = .live v ∧ w.binding.registry.family? v.type = some root ∧
        serialBound < w.weakTable.nextSerial) ∧
    (w.binding.registry.family? (w.weakTable.told h.index root) = some root ↔
      ∀ v, w.weakTable.view? h.index = some v → w.binding.registry.family? v.type = some root) ∧
    (w.resolveWord word = .stale (w.weakTable.told h.index root) →
      w.binding.settings.lightUserdata = true → w.binding.machine.valueAt 1 = .word word →
      ∀ name, w.binding.machine.textAt? 2 = some name →
        Exec.Ends Exec.objectIndex (fun _ _ ↦ False) (fun i w' ↦ w' = w ∧ i = .failure
          (.nilObject (w.binding.registry.nameOf (w.weakTable.told h.index root)) name)) w ∧
        Exec.Ends Exec.objectNewIndex (fun _ _ ↦ False) (fun i w' ↦ w' = w ∧ i = .failure
          (.nilObject (w.binding.registry.nameOf (w.weakTable.told h.index root)) name)) w) := by
  have hs : w.binding.registry.Sound := hregistry ▸ Registry.sound_ofPlan c plan
  have hroot : w.binding.registry.family? root = some root := by
    obtain ⟨_, _, _, -, -, hfamily, -⟩ := ho.made
    rw [hregistry] at hfamily ⊢
    exact (Registry.starts_family_ofPlan c plan hfamily).2
  refine ⟨ho.resolveWord hs, Registry.family?_told_iff hroot _ _, fun hstale hlight hself name hname ↦ ?_⟩
  have hresolve : w.resolve (w.binding.machine.valueAt 1) = .stale (w.weakTable.told h.index root) := by
    rw [hself, resolve]
    exact (if_pos hlight).trans hstale
  exact ⟨Exec.ends_objectIndex_stale hresolve hname, Exec.ends_objectNewIndex_stale hresolve hname⟩

/-- Two weak types that have nothing to do with each other. -/
def troupe : Catalogue where
  types := #[{ name := "Puppet", size := 16, anchor := some 0 },
    { name := "Lantern", size := 16, anchor := some 0 }]
  bases_first := by decide

/-- A puppet was destroyed, and a lantern was given its slot. The word of the puppet and the name of a
member are on the stack. -/
def recast : World :=
  let named := Machine.initial.intern "strings"
  { host := { weakTables := #[some (((({} : WeakTable).allocate ⟨0x2000, 0⟩).release 0).allocate
      ⟨0x3000, 1⟩)] }
    binding := {
      machine := (named.2.push (.word 0x0100000000000001)).push named.1
      registry := Registry.ofPlan troupe [.fill [0, 1]] } }

theorem orphaned_recast : recast.Orphaned 0x0100000000000001 ⟨0, 1⟩ 0 := by
  have hfamily : recast.binding.registry.family? 0 = some 0 := by decide +kernel
  refine ⟨⟨({} : WeakTable).allocate ⟨0x2000, 0⟩, ⟨0x2000, 0⟩, 0, ?_, rfl, hfamily, hfamily, ?_, ?_⟩, ?_⟩
  · exact .single (.acquire none ⟨0x2000, 0⟩)
  · decide +kernel
  · exact .tail (.single (.release 0)) (.acquire none ⟨0x3000, 1⟩)
  · decide +kernel

/-- The word of the puppet is known by the type of the lantern, which is of another family, and reading a
member of the puppet fails as that of a lantern that is gone. -/
theorem Orphaned.stale_recast :
    recast.Orphaned 0x0100000000000001 ⟨0, 1⟩ 0 ∧
      recast.binding.registry = Registry.ofPlan troupe [.fill [0, 1]] ∧
      recast.resolveWord 0x0100000000000001 = .stale 1 ∧
      recast.binding.registry.family? 1 ≠ some 0 ∧
      Exec.Ends Exec.objectIndex (fun _ _ ↦ False) (fun i w' ↦ w' = recast ∧
        i = .failure (.nilObject "Lantern" "strings")) recast := by
  have hregistry : recast.binding.registry = Registry.ofPlan troupe [.fill [0, 1]] := rfl
  have htold : recast.weakTable.told 0 0 = 1 := by decide +kernel
  obtain ⟨hclassified, hfamily, hfails⟩ := orphaned_recast.stale hregistry
  have hstale : recast.resolveWord 0x0100000000000001 = .stale (recast.weakTable.told 0 0) := by
    refine hclassified.resolve_right ?_
    rintro ⟨-, -, -, hbound⟩
    exact absurd hbound (by decide +kernel)
  refine ⟨orphaned_recast, hregistry, htold ▸ hstale, ?_, ?_⟩
  · intro hroot
    rw [htold] at hfamily
    exact absurd (hfamily.1 hroot ⟨0x3000, 1⟩ rfl) (by decide +kernel)
  · have hends := (hfails hstale rfl (by decide +kernel) "strings" (by decide +kernel)).1
    have hname : recast.binding.registry.nameOf (recast.weakTable.told 0 0) = "Lantern" := by
      decide +kernel
    rwa [hname] at hends

/-- **Orphaned words are not always known by a type of their family.** -/
theorem not_stale_family : ¬ ∀ (c : Catalogue) (plan : List PlanStep) (w : World) (word : UInt64)
    (h : Handle) (root : Nat), w.binding.registry = Registry.ofPlan c plan → w.Orphaned word h root →
      ∃ type, w.resolveWord word = .stale type ∧ w.binding.registry.family? type = some root := by
  intro hall
  obtain ⟨type, hstale, hfamily⟩ := hall troupe [.fill [0, 1]] recast _ _ _ rfl orphaned_recast
  have hlantern : recast.resolveWord 0x0100000000000001 = .stale 1 := by decide +kernel
  obtain rfl : type = 1 := Resolved.stale.inj (hstale.symm.trans hlantern)
  exact absurd hfamily (by decide +kernel)

end World

end ObjectBridge
