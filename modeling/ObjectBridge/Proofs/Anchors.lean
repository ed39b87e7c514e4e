import ObjectBridge.Host
import ObjectBridge.Proofs.Lineage
import ObjectBridge.Proofs.WeakTable

/-!
# Anchors and slots

The anchor of a weak object and the slot it owns point at each other: an anchor that holds an index
owns an occupied slot, whose view leads back to the cell of the anchor, and every occupied slot is
owned by such an anchor (`Host.Anchored`). So a slot is given back by its own object and by no
other, and an object that is seen again finds the slot it has.

`Host.Evolves` says of two hosts of a history that the second is as well anchored as the first, and
that its tables follow those of the first. Everything the bridge does to a host is of this kind:
`Evolves.detach`, `Anchored.acquired`, and, on top of the first, the destruction of objects
(`Evolves.lasting`).
-/

namespace ObjectBridge

theorem Memory.anchor_write_anchor (m : Memory) (c c' : Address) (x : Anchor) :
    (m.write c (.anchor x)).anchor c' = if c' = c then x else m.anchor c' := by
  rw [anchor, write, Dict.find?_insert]
  by_cases hc : c' = c <;> simp [hc, anchor]

namespace Host

/-! ### Tables by registry -/

theorem weakTable_of_some {h : Host} {d : Nat} {t : WeakTable} (ht : h.weakTable? d = some t) :
    h.weakTable d = t := by
  rw [weakTable, ht, Option.getD_some]

theorem weakTable?_setWeakTable {h : Host} {d : Nat} {t : WeakTable} (ht : h.weakTable? d = some t)
    (t' : WeakTable) (d' : Nat) :
    (h.setWeakTable d t').weakTable? d' = if d' = d then some t' else h.weakTable? d' := by
  have hlt : d < h.weakTables.size := by
    rw [weakTable?, Option.join_eq_some_iff] at ht
    exact (Array.getElem?_eq_some_iff.1 ht).1
  rw [weakTable?, setWeakTable, Array.getElem?_setIfInBounds]
  by_cases hd : d = d'
  · subst hd
    simp [hlt]
  · have hd' : d' ≠ d := fun e ↦ hd e.symm
    simp [hd, hd', weakTable?]

/-! ### The invariant -/

end Host

/-- The registries of a host, by the numbers of their tables. -/
structure Realm where
  registry : Nat → Registry
  sound : ∀ d, (registry d).Sound

namespace Host

variable {R : Realm} {h h' h'' : Host}

/-- Anchors and occupied slots point at each other. -/
structure Anchored (R : Realm) (h : Host) : Prop where
  sound : ∀ {d t}, h.weakTable? d = some t → t.Sound
  slot_of_anchor : ∀ {c i d t}, h.memory.anchor c = ⟨some i, some d⟩ → h.weakTable? d = some t →
    ∃ n v, t.Holds i n v ∧ (R.registry d).anchorCell? v = some c
  anchor_of_slot : ∀ {d t i n v}, h.weakTable? d = some t → t.Holds i n v →
    ∃ c, (R.registry d).anchorCell? v = some c ∧ h.memory.anchor c = ⟨some i, some d⟩

/-- The tables of the second host follow those of the first. -/
def Follows (R : Realm) (h h' : Host) : Prop :=
  ∀ d t', h'.weakTable? d = some t' →
    ∃ t, h.weakTable? d = some t ∧ WeakTable.Follows (R.registry d).identity t t'

theorem Follows.refl (h : Host) : Follows R h h :=
  fun _ t ht ↦ ⟨t, ht, WeakTable.Follows.refl t⟩

theorem Follows.trans (hf : Follows R h h') (hf' : Follows R h' h'') :
    Follows R h h'' := by
  intro d t'' ht''
  obtain ⟨t', ht', hw'⟩ := hf' d t'' ht''
  obtain ⟨t, ht, hw⟩ := hf d t' ht'
  exact ⟨t, ht, hw.trans hw'⟩

/-- What the bridge does to a host: anchors stay in order, and the tables follow on. -/
structure Evolves (R : Realm) (h h' : Host) : Prop where
  anchored : h.Anchored R → h'.Anchored R
  follows : h.Anchored R → Follows R h h'
  isSome_weakTable? : ∀ d, (h.weakTable? d).isSome = true → (h'.weakTable? d).isSome = true

theorem Evolves.refl (h : Host) : Evolves R h h :=
  ⟨fun ha ↦ ha, fun _ ↦ Follows.refl h, fun _ hd ↦ hd⟩

theorem Evolves.trans (he : Evolves R h h') (he' : Evolves R h' h'') : Evolves R h h'' :=
  ⟨fun ha ↦ he'.anchored (he.anchored ha),
    fun ha ↦ (he.follows ha).trans (he'.follows (he.anchored ha)),
    fun d hd ↦ he'.isSome_weakTable? d (he.isSome_weakTable? d hd)⟩

/-- A change of the host that leaves anchors and tables alone. -/
structure SameAnchors (h h' : Host) : Prop where
  anchor : ∀ c, h'.memory.anchor c = h.memory.anchor c
  weakTables : h'.weakTables = h.weakTables

theorem SameAnchors.evolves (hs : SameAnchors h h') : Evolves R h h' := by
  have ht : ∀ d, h'.weakTable? d = h.weakTable? d := fun d ↦ by
    rw [weakTable?, weakTable?, hs.weakTables]
  refine ⟨fun ha ↦ ⟨fun h ↦ ha.sound (ht _ ▸ h), fun hc h ↦ ?_, fun h hh ↦ ?_⟩,
    fun _ d t h ↦ ⟨t, ht d ▸ h, WeakTable.Follows.refl t⟩, fun d h ↦ (ht d).symm ▸ h⟩
  · exact ha.slot_of_anchor (hs.anchor _ ▸ hc) (ht _ ▸ h)
  · obtain ⟨c, hc, hac⟩ := ha.anchor_of_slot (ht _ ▸ h) hh
    exact ⟨c, hc, (hs.anchor c).trans hac⟩

/-- Two anchors never own one slot. -/
theorem Anchored.unique (ha : h.Anchored R) {c c' : Address} {i d : Nat} {t : WeakTable}
    (ht : h.weakTable? d = some t) (hc : h.memory.anchor c = ⟨some i, some d⟩)
    (hc' : h.memory.anchor c' = ⟨some i, some d⟩) : c' = c := by
  obtain ⟨n, v, hh, hcell⟩ := ha.slot_of_anchor hc ht
  obtain ⟨n', v', hh', hcell'⟩ := ha.slot_of_anchor hc' ht
  obtain ⟨rfl, rfl⟩ := hh.unique hh'
  exact Option.some.inj (hcell'.symm.trans hcell)

/-! ### Detaching -/

/-- A detached anchor owns nothing; the other anchors are as before. -/
theorem anchor_detach (h : Host) (cell c : Address) :
    (h.detach cell).memory.anchor c =
      if c = cell ∧ (h.memory.anchor cell).slot.isSome then {} else h.memory.anchor c := by
  rw [detach]
  rcases hc : h.memory.anchor cell with ⟨_ | i, owner⟩
  · simp
  · have hw : ∀ h' : Host, h'.memory = h.memory.write cell (.anchor {}) →
        h'.memory.anchor c = if c = cell then {} else h.memory.anchor c := fun h' hm ↦ by
      rw [hm, Memory.anchor_write_anchor]
    simp only [Option.isSome_some, and_true]
    cases owner with
    | none => exact hw _ rfl
    | some d =>
      simp only
      split <;> exact hw _ rfl

theorem slot_detach (h : Host) (cell : Address) :
    ((h.detach cell).memory.anchor cell).slot = none := by
  rw [anchor_detach]
  cases hs : (h.memory.anchor cell).slot <;> simp [hs]

theorem detach_of_not_attached {cell : Address} (hc : (h.memory.anchor cell).slot = none) :
    h.detach cell = h := by
  rw [detach]
  rcases ha : h.memory.anchor cell with ⟨_ | i, owner⟩
  · rfl
  · simp [ha] at hc

/-- The tables after detaching an anchor that owns slot `i` of registry `d`: only the table of `d`
has changed, if there is one. -/
theorem weakTable?_detach {cell : Address} {i : Nat} {owner : Option Nat}
    (hc : h.memory.anchor cell = ⟨some i, owner⟩) (d : Nat) :
    (h.detach cell).weakTable? d =
      if owner = some d then (h.weakTable? d).map (·.release i) else h.weakTable? d := by
  have hw : ∀ d', ({ h with memory := h.memory.write cell (.anchor {}) } : Host).weakTable? d' =
      h.weakTable? d' := fun _ ↦ rfl
  rw [detach, hc]
  cases owner with
  | none => simp [hw]
  | some d' =>
    simp only [hw, Option.some.injEq]
    cases ht : h.weakTable? d' with
    | none =>
      simp only [hw]
      split
      · rename_i hd
        rw [← hd, ht]
        rfl
      · rfl
    | some t =>
      simp only
      rw [weakTable?_setWeakTable ((hw d').trans ht), hw]
      by_cases hd : d = d'
      · simp [hd, ht]
      · have hd' : d' ≠ d := fun e ↦ hd e.symm
        simp [hd, hd']

theorem weakTable?_detach_of_ne {cell : Address} {d : Nat}
    (howner : (h.memory.anchor cell).owner ≠ some d) :
    (h.detach cell).weakTable? d = h.weakTable? d := by
  rcases hc : h.memory.anchor cell with ⟨_ | i, owner⟩
  · rw [detach_of_not_attached (by rw [hc])]
  · rw [hc] at howner
    rw [weakTable?_detach hc, if_neg howner]

/-- **A table after an anchor has been detached** has released the slot that the anchor owned, or it is
what it was and the anchor owned no slot of it. -/
theorem weakTable?_of_detach {cell : Address} {d : Nat} {t' : WeakTable}
    (ht' : (h.detach cell).weakTable? d = some t') : ∃ t, h.weakTable? d = some t ∧
      ((∃ i, h.memory.anchor cell = ⟨some i, some d⟩ ∧ t' = t.release i) ∨
        (t' = t ∧ ∀ i, h.memory.anchor cell ≠ ⟨some i, some d⟩)) := by
  by_cases howner : (h.memory.anchor cell).owner = some d
  · rcases hc : h.memory.anchor cell with ⟨_ | i, owner⟩
    · rw [detach_of_not_attached (by rw [hc])] at ht'
      exact ⟨t', ht', .inr ⟨rfl, by simp⟩⟩
    · obtain rfl : owner = some d := by rwa [hc] at howner
      rw [weakTable?_detach hc, if_pos rfl] at ht'
      obtain ⟨t, ht, rfl⟩ := Option.map_eq_some_iff.1 ht'
      exact ⟨t, ht, .inl ⟨i, rfl, rfl⟩⟩
  · rw [weakTable?_detach_of_ne howner] at ht'
    exact ⟨t', ht', .inr ⟨rfl, fun i hc ↦ howner (by rw [hc])⟩⟩

/-- **Detaching an anchor gives back the slot it owns**, and no other. -/
theorem Anchored.detach (ha : h.Anchored R) (cell : Address) : (h.detach cell).Anchored R where
  sound {d t'} ht' := by
    obtain ⟨t, ht, ⟨i, -, rfl⟩ | ⟨rfl, -⟩⟩ := weakTable?_of_detach ht'
    · exact (ha.sound ht).release i
    · exact ha.sound ht
  slot_of_anchor {c j d t'} hcj ht' := by
    rw [anchor_detach] at hcj
    split at hcj
    · exact absurd hcj (by simp)
    rename_i hne
    obtain ⟨t, ht, ⟨i, hc, rfl⟩ | ⟨rfl, -⟩⟩ := weakTable?_of_detach ht'
    · obtain ⟨n, v, hh, hcell⟩ := ha.slot_of_anchor hcj ht
      refine ⟨n, v, WeakTable.holds_release.2 ⟨?_, hh⟩, hcell⟩
      rintro rfl
      exact hne ⟨ha.unique ht hc hcj, by rw [hc]; rfl⟩
    · exact ha.slot_of_anchor hcj ht
  anchor_of_slot {d t' j n v} ht' hh := by
    obtain ⟨t, ht, ⟨i, hc, rfl⟩ | ⟨rfl, hnot⟩⟩ := weakTable?_of_detach ht'
    · obtain ⟨hne, hh⟩ := WeakTable.holds_release.1 hh
      obtain ⟨c, hcell, hac⟩ := ha.anchor_of_slot ht hh
      refine ⟨c, hcell, ?_⟩
      rw [anchor_detach, if_neg]
      · exact hac
      · rintro ⟨rfl, -⟩
        rw [hc, Anchor.mk.injEq, Option.some.injEq] at hac
        exact hne hac.1.symm
    · obtain ⟨c, hcell, hac⟩ := ha.anchor_of_slot ht hh
      refine ⟨c, hcell, ?_⟩
      rw [anchor_detach, if_neg]
      · exact hac
      · rintro ⟨rfl, -⟩
        exact hnot j hac

theorem follows_detach (h : Host) (cell : Address) : Follows R h (h.detach cell) := by
  intro d t' ht'
  obtain ⟨t, ht, ⟨i, -, rfl⟩ | ⟨rfl, -⟩⟩ := weakTable?_of_detach ht'
  · exact ⟨t, ht, WeakTable.follows_release i⟩
  · exact ⟨t', ht, WeakTable.Follows.refl t'⟩

theorem Evolves.detach (h : Host) (cell : Address) : Evolves R h (h.detach cell) := by
  refine ⟨fun ha ↦ ha.detach cell, fun _ ↦ follows_detach h cell, fun d hd ↦ ?_⟩
  rcases hc : h.memory.anchor cell with ⟨_ | i, owner⟩
  · rwa [detach_of_not_attached (by rw [hc])]
  · rw [weakTable?_detach hc]
    split
    · rwa [Option.isSome_map]
    · exact hd

/-! ### Acquiring -/

/-- The anchor of the object seen as `v` is of that object alone: a slot that is owned by the anchor
is occupied by a view of the same object. -/
def Single (R : Realm) (h : Host) (d : Nat) (v : View) : Prop :=
  ∀ {t i n u}, h.weakTable? d = some t → t.Holds i n u →
    (R.registry d).anchorCell? u = (R.registry d).anchorCell? v →
    (R.registry d).root u = (R.registry d).root v

theorem Single.detach {d : Nat} {v : View} (hs : h.Single R d v) (cell : Address) :
    (h.detach cell).Single R d v := by
  intro t' i n u ht' hh hcell
  obtain ⟨t, ht, ⟨slot, -, rfl⟩ | ⟨rfl, -⟩⟩ := weakTable?_of_detach ht'
  · exact hs ht (WeakTable.holds_release.1 hh).2 hcell
  · exact hs ht hh hcell

/-- What is known after the object seen as `v`, with the anchor at `c`, has been given a handle in the
table of `d`. -/
structure Acquired (R : Realm) (d : Nat) (c : Address) (v : View) (h : Host)
    (result : Handle × Host) : Prop where
  evolves : Evolves R h result.2
  holds : h.Anchored R → h.Single R d v → ∃ t u, result.2.weakTable? d = some t ∧
    t.Holds result.1.index result.1.serial u ∧ (R.registry d).anchorCell? u = some c ∧
    (R.registry d).root u = (R.registry d).root v
  anchor : result.2.memory.anchor c = ⟨some result.1.index, some d⟩

/-- **One table changes**, and no anchor loses its slot. It is enough to look at the slots of the one
table and the anchors that own them. -/
private theorem evolves_of_table {d : Nat} {t t' : WeakTable} (ht : h.weakTable? d = some t)
    (htable : ∀ d', h'.weakTable? d' = if d' = d then some t' else h.weakTable? d')
    (hkeep : ∀ {c i d'}, h.memory.anchor c = ⟨some i, some d'⟩ →
      h'.memory.anchor c = ⟨some i, some d'⟩)
    (hother : ∀ {c i d'}, d' ≠ d → h'.memory.anchor c = ⟨some i, some d'⟩ →
      h.memory.anchor c = ⟨some i, some d'⟩)
    (hsound : t.Sound → t'.Sound)
    (hfollows : t.Sound → WeakTable.Follows (R.registry d).identity t t')
    (hslot : h.Anchored R → ∀ {c i}, h'.memory.anchor c = ⟨some i, some d⟩ →
      ∃ n u, t'.Holds i n u ∧ (R.registry d).anchorCell? u = some c)
    (hanchor : h.Anchored R → ∀ {i n u}, t'.Holds i n u →
      ∃ c, (R.registry d).anchorCell? u = some c ∧ h'.memory.anchor c = ⟨some i, some d⟩) :
    Evolves R h h' := by
  refine ⟨fun ha ↦ ⟨fun {d' t₁} htd ↦ ?_, fun {c j d' t₁} hcj htd ↦ ?_,
    fun {d' t₁ j n u} htd hh ↦ ?_⟩, fun ha d' t₁ htd ↦ ?_, fun d' hd' ↦ ?_⟩
  · rw [htable] at htd
    split at htd
    · obtain rfl := Option.some.inj htd
      exact hsound (ha.sound ht)
    · exact ha.sound htd
  · rw [htable] at htd
    split at htd
    · rename_i hd
      subst hd
      obtain rfl := Option.some.inj htd
      exact hslot ha hcj
    · rename_i hd
      exact ha.slot_of_anchor (hother hd hcj) htd
  · rw [htable] at htd
    split at htd
    · rename_i hd
      subst hd
      obtain rfl := Option.some.inj htd
      exact hanchor ha hh
    · obtain ⟨c, hcell, hac⟩ := ha.anchor_of_slot htd hh
      exact ⟨c, hcell, hkeep hac⟩
  · rw [htable] at htd
    split at htd
    · rename_i hd
      subst hd
      obtain rfl := Option.some.inj htd
      exact ⟨t, ht, hfollows (ha.sound ht)⟩
    · exact ⟨t₁, htd, WeakTable.Follows.refl t₁⟩
  · rw [htable]
    split
    · rfl
    · exact hd'

/-- An object whose anchor owns no slot is given a new one. -/
private theorem acquired_allocate {d : Nat} {c : Address} {v : View} {t : WeakTable}
    (ht : h.weakTable? d = some t) (hc : (R.registry d).anchorCell? v = some c)
    (hfree : (h.memory.anchor c).slot = none) :
    Acquired R d c v h (t.nextHandle, { h.setWeakTable d (t.allocate v) with
      memory := h.memory.write c (.anchor ⟨some t.nextIndex, some d⟩) }) := by
  set h' : Host := { h.setWeakTable d (t.allocate v) with
    memory := h.memory.write c (.anchor ⟨some t.nextIndex, some d⟩) } with hh'
  have htable : ∀ d', h'.weakTable? d' = if d' = d then some (t.allocate v) else h.weakTable? d' :=
    fun d' ↦ weakTable?_setWeakTable ht _ d'
  have hanchor : ∀ c', h'.memory.anchor c' =
      if c' = c then ⟨some t.nextIndex, some d⟩ else h.memory.anchor c' := fun c' ↦
    Memory.anchor_write_anchor _ _ _ _
  have hkeep : ∀ {c' i d'}, h.memory.anchor c' = ⟨some i, some d'⟩ →
      h'.memory.anchor c' = ⟨some i, some d'⟩ := fun {c' i d'} hac ↦ by
    rw [hanchor, if_neg]
    · exact hac
    · rintro rfl
      rw [hac] at hfree
      exact absurd hfree (by simp)
  refine ⟨evolves_of_table ht htable hkeep (fun {c' i d'} hd hac ↦ ?_) (·.allocate v)
    (·.follows_allocate v) (fun ha c' i hac ↦ ?_) (fun ha i n u hh ↦ ?_), fun ha _ ↦ ?_, ?_⟩
  · rw [hanchor] at hac
    split at hac
    · simp only [Anchor.mk.injEq, Option.some.injEq] at hac
      exact absurd hac.2.symm hd
    · exact hac
  · rw [hanchor] at hac
    split at hac
    · rename_i hcc
      simp only [Anchor.mk.injEq, Option.some.injEq, and_true] at hac
      subst hac
      exact ⟨_, v, (ha.sound ht).holds_allocate.2 (Or.inl ⟨rfl, rfl, rfl⟩), hcc ▸ hc⟩
    · obtain ⟨n, u, hh, hcell⟩ := ha.slot_of_anchor hac ht
      exact ⟨n, u, (ha.sound ht).holds_allocate.2 (Or.inr hh), hcell⟩
  · rcases (ha.sound ht).holds_allocate.1 hh with ⟨rfl, rfl, rfl⟩ | hh
    · exact ⟨c, hc, by rw [hanchor, if_pos rfl]⟩
    · obtain ⟨c', hcell, hac⟩ := ha.anchor_of_slot ht hh
      exact ⟨c', hcell, hkeep hac⟩
  · exact ⟨t.allocate v, v, by rw [htable, if_pos rfl],
      (ha.sound ht).holds_allocate.2 (Or.inl ⟨rfl, rfl, rfl⟩), hc, rfl⟩
  · rw [hanchor, if_pos rfl]
    rfl

/-- An object whose anchor owns a slot keeps it; the view in the slot may give way to another view
of the same object. -/
private theorem acquired_known {d i n : Nat} {c : Address} {u v : View} {t : WeakTable}
    (ht : h.weakTable? d = some t) (hh : t.Holds i n u) (hu : (R.registry d).anchorCell? u = some c)
    (hv : (R.registry d).anchorCell? v = some c) (hac : h.memory.anchor c = ⟨some i, some d⟩)
    {t' : WeakTable} (ht' : WeakTable.Alike (R.registry d).identity t t') :
    Acquired R d c v h (⟨i, n⟩, { h.setWeakTable d t' with
      memory := h.memory.write c (.anchor ⟨some i, some d⟩) }) := by
  set h' : Host := { h.setWeakTable d t' with
    memory := h.memory.write c (.anchor ⟨some i, some d⟩) } with hh'
  have htable : ∀ d', h'.weakTable? d' = if d' = d then some t' else h.weakTable? d' :=
    fun d' ↦ weakTable?_setWeakTable ht _ d'
  have hanchor : ∀ c', h'.memory.anchor c' = h.memory.anchor c' := fun c' ↦ by
    refine (Memory.anchor_write_anchor _ _ _ _).trans ?_
    split
    · rename_i hcc
      rw [hcc, hac]
    · rfl
  refine ⟨evolves_of_table ht htable (fun hac ↦ (hanchor _).trans hac)
    (fun _ hac ↦ (hanchor _).symm.trans hac) ht'.sound (fun _ ↦ ht'.follows)
    (fun ha c' j hcj ↦ ?_) (fun ha j m w hw ↦ ?_), fun ha hsingle ↦ ?_, ?_⟩
  · obtain ⟨m, w, hw, hcell⟩ := ha.slot_of_anchor ((hanchor _).symm.trans hcj) ht
    obtain ⟨w', hw', he⟩ := ht'.kept hw
    exact ⟨m, w', hw', (congrArg Prod.fst he).symm.trans hcell⟩
  · obtain ⟨w₀, hw₀, he⟩ := ht'.old hw
    obtain ⟨c', hcell, hac⟩ := ha.anchor_of_slot ht hw₀
    exact ⟨c', (congrArg Prod.fst he).symm.trans hcell, (hanchor _).trans hac⟩
  · obtain ⟨w', hw', he⟩ := ht'.kept hh
    exact ⟨t', w', by rw [htable, if_pos rfl], hw', (congrArg Prod.fst he).symm.trans hu,
      (congrArg Prod.snd he).symm.trans (hsingle ht hh (hu.trans hv.symm))⟩
  · rw [hanchor, hac]

/-- Put a handle into an anchor, and the table it comes from into the host. -/
def enter (h : Host) (d : Nat) (c : Address) (result : Handle × WeakTable) : Handle × Host :=
  (result.1, { h.setWeakTable d result.2 with
    memory := h.memory.write c (.anchor ⟨some result.1.index, some d⟩) })

theorem acquire_attached {d : Nat} {c : Address} (hc : (h.memory.anchor c).owner = some d)
    (hd : (h.weakTable? d).isSome = true) (r : Registry) (v : View) :
    h.acquire r d c v =
      h.enter d c (weakAcquire r (h.weakTable d) (h.memory.anchor c).slot v) := by
  rw [acquire, if_pos ⟨hc, hd⟩]
  rfl

theorem acquire_not_attached {d : Nat} {c : Address} (hc : (h.memory.anchor c).owner ≠ some d)
    (r : Registry) (v : View) :
    h.acquire r d c v = (h.detach c).enter d c
      (weakAcquire r ((h.detach c).weakTable d) ((h.detach c).memory.anchor c).slot v) := by
  rw [acquire, if_neg fun hn ↦ hc hn.1]
  rfl

/-- **The ways in which a weak object is given its handle**: its slot comes to record the view, if that is
the more derived one, or stays as it is; or the object is given a new slot. -/
inductive Acquires (r : Registry) (t : WeakTable) (slot : Option Nat) (v : View) :
    Handle × WeakTable → Prop
  | upgraded {handle : Handle} {u : View} (owned : slot = some handle.index)
      (holds : t.Holds handle.index handle.serial u) (ne : u.type ≠ v.type)
      (base : r.isBaseOf u.type v.type = true) :
      Acquires r t slot v (handle, t.upgrade handle.index v)
  | kept {handle : Handle} {u : View} (owned : slot = some handle.index)
      (holds : t.Holds handle.index handle.serial u)
      (settled : ¬ (u.type ≠ v.type ∧ r.isBaseOf u.type v.type = true)) :
      Acquires r t slot v (handle, t)
  | allocated (unowned : slot.bind t.current = none) :
      Acquires r t slot v (t.nextHandle, t.allocate v)

theorem acquires_weakAcquire (r : Registry) (t : WeakTable) (slot : Option Nat) (v : View) :
    Acquires r t slot v (weakAcquire r t slot v) := by
  rw [weakAcquire]
  split
  · rename_i handle hcurrent
    obtain ⟨i, hslot, hi⟩ := Option.bind_eq_some_iff.1 hcurrent
    obtain ⟨rfl, known, hknown⟩ := t.current_eq_some_iff.1 hi
    rw [t.view?_eq_some_iff.2 ⟨_, hknown⟩]
    simp only
    split
    · rename_i hmore
      exact .upgraded hslot hknown hmore.1 hmore.2
    · rename_i hless
      exact .kept hslot hknown hless
  · rename_i hcurrent
    exact .allocated hcurrent

/-- **An object is given the slot it owns, or else a new one.** -/
theorem Anchored.acquired (ha : h.Anchored R) {d : Nat} {c : Address} {v : View}
    (hd : (h.weakTable? d).isSome = true) (hc : (R.registry d).anchorCell? v = some c) :
    Acquired R d c v h (h.acquire (R.registry d) d c v) := by
  by_cases hattached : (h.memory.anchor c).owner = some d
  · obtain ⟨t, ht⟩ := Option.isSome_iff_exists.1 hd
    have hanchor {i : Nat} (hslot : (h.memory.anchor c).slot = some i) :
        h.memory.anchor c = ⟨some i, some d⟩ := by
      rw [← hslot, ← hattached]
    -- the slot of the anchor holds a view of its object
    have hcell {handle : Handle} {u : View} (hac : h.memory.anchor c = ⟨some handle.index, some d⟩)
        (hh : t.Holds handle.index handle.serial u) : (R.registry d).anchorCell? u = some c := by
      obtain ⟨n, u', hh', hu⟩ := ha.slot_of_anchor hac ht
      rwa [(hh.unique hh').2]
    rw [acquire_attached hattached hd, weakTable_of_some ht]
    have hacquires := acquires_weakAcquire (R.registry d) t (h.memory.anchor c).slot v
    generalize weakAcquire (R.registry d) t (h.memory.anchor c).slot v = result at hacquires ⊢
    cases hacquires with
    | upgraded owned holds ne base =>
      have hac := hanchor owned
      have hu := hcell hac holds
      have hroot := (R.sound d).root_eq_of_anchorCell? base hc hu
      exact acquired_known ht holds hu hc hac
        (WeakTable.alike_upgrade holds (Prod.ext (hu.trans hc.symm) hroot))
    | kept owned holds settled =>
      have hac := hanchor owned
      exact acquired_known ht holds (hcell hac holds) hc hac (.refl t)
    | allocated unowned =>
      refine acquired_allocate ht hc (Option.eq_none_iff_forall_ne_some.2 fun i hslot ↦ ?_)
      obtain ⟨n, u, hh, -⟩ := ha.slot_of_anchor (hanchor hslot) ht
      have hcur : t.current i = some ⟨i, n⟩ := t.current_eq_some_iff.2 ⟨rfl, u, hh⟩
      rw [hslot, Option.bind_some, hcur] at unowned
      exact absurd unowned (by simp)
  · rw [acquire_not_attached hattached]
    have hevolves : Evolves R h (h.detach c) := Evolves.detach h c
    obtain ⟨t, ht⟩ := Option.isSome_iff_exists.1 (hevolves.isSome_weakTable? d hd)
    have hslot := slot_detach h c
    have hnew := acquired_allocate ht hc hslot
    rw [weakTable_of_some ht, hslot]
    exact ⟨hevolves.trans hnew.evolves,
      fun ha hsingle ↦ hnew.holds (ha.detach c) (hsingle.detach c), hnew.anchor⟩

/-- An object whose slot is occupied under a serial is given the handle of that serial. -/
theorem Anchored.acquire_of_holds (ha : h.Anchored R) {d i n : Nat} {c : Address} {u v : View}
    {t : WeakTable} (ht : h.weakTable? d = some t) (hh : t.Holds i n u)
    (hu : (R.registry d).anchorCell? u = some c) (r : Registry) :
    (h.acquire r d c v).1 = ⟨i, n⟩ := by
  obtain ⟨c', hc', hac⟩ := ha.anchor_of_slot ht hh
  obtain rfl := Option.some.inj (hu.symm.trans hc')
  have hcur : t.current i = some ⟨i, n⟩ := t.current_eq_some_iff.2 ⟨rfl, u, hh⟩
  have hsame {handle : Handle} {u' : View} (hi : some i = some handle.index)
      (hh' : t.Holds handle.index handle.serial u') : handle = ⟨i, n⟩ := by
    obtain ⟨index, serial⟩ := handle
    obtain rfl := Option.some.inj hi
    rw [(hh.unique hh').1]
  rw [acquire_attached (by rw [hac]) (by rw [ht]; rfl), weakTable_of_some ht, hac]
  have hacquires := acquires_weakAcquire r t (some i) v
  generalize weakAcquire r t (some i) v = result at hacquires ⊢
  cases hacquires with
  | upgraded owned holds ne base => exact hsame owned holds
  | kept owned holds settled => exact hsame owned holds
  | allocated unowned =>
    rw [Option.bind_some, hcur] at unowned
    exact absurd unowned (by simp)

/-! ### Destruction -/

/-- A relation of hosts that lasts through the changes that the destruction of objects is made of. -/
structure Lasting (T : Host → Host → Prop) : Prop where
  refl : ∀ h, T h h
  trans : ∀ {h h' h''}, T h h' → T h' h'' → T h h''
  detach : ∀ h cell, T h (h.detach cell)
  note : ∀ (h : Host) (notes : List Datum), T h { h with farewells := notes }
  disown : ∀ (h : Host) (block : Nat), T h { h with
    blocks := h.blocks.modify block fun b ↦ { b with owners := b.owners - 1 } }

variable {T : Host → Host → Prop}

/-- The anchor of a level, if it has one, gives its slot back. -/
private theorem Lasting.detachAnchor (hT : Lasting T) (h : Host) (a : Address) (offset? : Option Nat) :
    T h (match offset? with
      | some offset => h.detach (a.up offset)
      | none => h) := by
  cases offset? with
  | some offset => exact hT.detach h _
  | none => exact hT.refl h

theorem Lasting.destroyLevel (hT : Lasting T) (h : Host) (t : TypeKey) (a : Address) :
    T h (h.destroyLevel t a) := by
  have hdetach := hT.detachAnchor h a (h.catalogue.declaration t).anchor
  rw [Host.destroyLevel]
  split
  · exact hT.trans hdetach (hT.note _ _)
  · exact hdetach

theorem Lasting.destroy (hT : Lasting T) (h : Host) (t : TypeKey) (a : Address) :
    T h (h.destroy t a) := by
  rw [Host.destroy]
  generalize h.catalogue.lineage t = line
  induction line generalizing h with
  | nil => exact hT.refl h
  | cons level line ih => exact hT.trans (hT.destroyLevel h _ _) (ih _)

theorem Lasting.dropOwner (hT : Lasting T) (h : Host) (block : Nat) : T h (h.dropOwner block) := by
  rw [Host.dropOwner]
  split
  · simp only
    split
    · exact hT.trans (hT.disown h block) (hT.destroy _ _ _)
    · exact hT.disown h block
  · exact hT.refl h

theorem Lasting.dropPayload (hT : Lasting T) (h : Host) (p : Payload) : T h (h.dropPayload p) := by
  cases p with
  | object t a => exact hT.destroy h t a
  | share block => exact hT.dropOwner h block
  | container _ _ => exact hT.refl h

theorem Lasting.dropUserdata (hT : Lasting T) (h : Host) (u : Userdata) :
    T h (h.dropUserdata u) := by
  rw [Host.dropUserdata]
  split
  · exact hT.dropPayload h _
  · exact hT.refl h

/-- Destroying what removed userdata own gives back the slots of the objects that go. -/
theorem Lasting.dropAll (hT : Lasting T) (h : Host) (us : List Userdata) :
    T h (us.foldl Host.dropUserdata h) := by
  induction us generalizing h with
  | nil => exact hT.refl h
  | cons u us ih => exact hT.trans (hT.dropUserdata h u) (ih _)

/-- **Destroying objects only gives slots back.** -/
theorem Evolves.lasting : Lasting (Evolves R) where
  refl := Evolves.refl
  trans h h' := h.trans h'
  detach := Evolves.detach
  note _ _ := SameAnchors.evolves ⟨fun _ ↦ rfl, rfl⟩
  disown _ _ := SameAnchors.evolves ⟨fun _ ↦ rfl, rfl⟩

end Host

end ObjectBridge
