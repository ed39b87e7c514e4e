import ObjectBridge.Proofs.Anchors

/-!
# Slots and blocks over time

The slot of a weak object records the most derived view under which the object has been seen. So
whatever the bridge does to a host, a slot that keeps its serial comes to record the same type or
one derived from it (`WeakTable.Climbs`), and the blocks of shared objects stay where they are, of
the type they are of (`Host.Grows`).

`WeakTable.Seats` tells more about the one slot that an object is given when it is seen again: the
slot never records a type of which the seen one is a more derived view.
-/

namespace ObjectBridge

namespace WeakTable

variable {r : Registry} {t t' t'' : WeakTable}

/-- The slots of the later of two tables record the types that the earlier one recorded under the
same serials, or types derived from them. -/
structure Climbs (r : Registry) (t t' : WeakTable) : Prop where
  nextSerial_le : t.nextSerial ≤ t'.nextSerial
  holds : ∀ {i n v'}, t'.Holds i n v' → n < t.nextSerial →
    ∃ v, t.Holds i n v ∧ r.isBaseOf v.type v'.type = true

/-- A table that holds nothing but what was held. -/
theorem Climbs.of_holds (hs : r.Sound) (hle : t.nextSerial ≤ t'.nextSerial)
    (hholds : ∀ {i n v}, t'.Holds i n v → n < t.nextSerial → t.Holds i n v) : Climbs r t t' :=
  ⟨hle, fun {_ _ v} hv hn ↦ ⟨v, hholds hv hn, hs.isBaseOf_refl _⟩⟩

theorem Climbs.refl (hs : r.Sound) (t : WeakTable) : Climbs r t t :=
  .of_holds hs (Nat.le_refl _) fun h _ ↦ h

theorem Climbs.trans (hs : r.Sound) (h : Climbs r t t') (h' : Climbs r t' t'') :
    Climbs r t t'' := by
  refine ⟨Nat.le_trans h.nextSerial_le h'.nextSerial_le, fun {i n v''} hv'' hn ↦ ?_⟩
  obtain ⟨v', hv', hb'⟩ := h'.holds hv'' (Nat.lt_of_lt_of_le hn h.nextSerial_le)
  obtain ⟨v, hv, hb⟩ := h.holds hv' hn
  exact ⟨v, hv, hs.isBaseOf_trans hb hb'⟩

theorem climbs_release (hs : r.Sound) (k : Nat) : Climbs r t (t.release k) :=
  .of_holds hs (by simp) fun h _ ↦ (holds_release.1 h).2

theorem Sound.climbs_allocate (ht : t.Sound) (hs : r.Sound) (v : View) :
    Climbs r t (t.allocate v) := by
  refine .of_holds hs (by simp) fun h hn ↦ ?_
  rcases ht.holds_allocate.1 h with ⟨-, rfl, -⟩ | h
  · exact absurd hn (Nat.lt_irrefl _)
  · exact h

theorem climbs_upgrade (hs : r.Sound) {k m : Nat} {u v : View} (hk : t.Holds k m u)
    (hbase : r.isBaseOf u.type v.type = true) : Climbs r t (t.upgrade k v) := by
  refine ⟨Nat.le_refl _, fun {i n v'} h _ ↦ ?_⟩
  rcases (holds_upgrade hk).1 h with ⟨rfl, rfl, rfl⟩ | ⟨-, h⟩
  · exact ⟨u, hk, hbase⟩
  · exact ⟨v', h, hs.isBaseOf_refl _⟩

/-- What the slot of a handle holds after the object seen as `v` has been given the handle: the view
that it held or `v`, and no view of which `v` is a more derived one. -/
structure Seats (r : Registry) (t : WeakTable) (v : View) (h : Handle) (t' : WeakTable) : Prop where
  derived : ∀ {u}, t'.Holds h.index h.serial u → r.isBaseOf u.type v.type = true → u.type = v.type
  slot : ∀ {u}, t'.Holds h.index h.serial u → t.Holds h.index h.serial u ∨
    u = v ∧ ∀ {u₀}, t.Holds h.index h.serial u₀ → r.isBaseOf u₀.type v.type = true

/-- A slot that the object takes holds the view under which it is seen. -/
theorem Sound.seats_allocate (ht : t.Sound) (v : View) :
    Seats r t v t.nextHandle (t.allocate v) := by
  have hslot : ∀ {u}, (t.allocate v).Holds t.nextIndex t.nextSerial u → u = v := fun hu ↦ by
    rcases ht.holds_allocate.1 hu with ⟨-, -, rfl⟩ | hu
    · rfl
    · exact absurd hu ht.not_holds_nextIndex
  exact ⟨fun hu _ ↦ by rw [hslot hu], fun hu ↦ Or.inr ⟨hslot hu, fun hu₀ ↦
    absurd hu₀ ht.not_holds_nextIndex⟩⟩

end WeakTable

namespace Host

variable {R : Realm} {h h' h'' : Host}

/-- A handle is given by a table that follows on, and the slot of the handle is in order. -/
theorem climbs_weakAcquire {r : Registry} {t : WeakTable} (hs : r.Sound) (ht : t.Sound)
    (slot : Option Nat) (v : View) :
    t.Climbs r (weakAcquire r t slot v).2 ∧
      t.Seats r v (weakAcquire r t slot v).1 (weakAcquire r t slot v).2 := by
  have hacquires := acquires_weakAcquire r t slot v
  generalize weakAcquire r t slot v = result at hacquires ⊢
  cases hacquires with
  | @upgraded handle u owned holds ne base =>
    have hslot {u : View} (hu : (t.upgrade handle.index v).Holds handle.index handle.serial u) :
        u = v := by
      rcases (WeakTable.holds_upgrade holds).1 hu with ⟨-, -, rfl⟩ | ⟨hne, -⟩
      · rfl
      · exact absurd rfl hne
    refine ⟨WeakTable.climbs_upgrade hs holds base, fun hu _ ↦ by rw [hslot hu],
      fun hu ↦ Or.inr ⟨hslot hu, fun hu₀ ↦ ?_⟩⟩
    obtain ⟨-, rfl⟩ := hu₀.unique holds
    exact base
  | kept owned holds settled =>
    refine ⟨.refl hs t, fun hu hbase ↦ ?_, fun hu ↦ Or.inl hu⟩
    obtain ⟨-, rfl⟩ := hu.unique holds
    exact not_not.1 fun hne ↦ settled ⟨hne, hbase⟩
  | allocated => exact ⟨ht.climbs_allocate hs v, ht.seats_allocate v⟩

/-! ### Hosts -/

/-- **What the bridge does to a host lets slots record more derived types only**, and leaves the
blocks of shared objects where they are. -/
structure Grows (R : Realm) (h h' : Host) : Prop where
  climbs : ∀ {d t'}, h'.weakTable? d = some t' →
    ∃ t, h.weakTable? d = some t ∧ t.Climbs (R.registry d) t'
  blocks : ∀ {i : Nat} {b : Block}, h.blocks[i]? = some b →
    ∃ b', h'.blocks[i]? = some b' ∧ b'.type = b.type ∧ b'.address = b.address

theorem Grows.refl (h : Host) : Grows R h h :=
  ⟨fun {d t} ht ↦ ⟨t, ht, .refl (R.sound d) t⟩, fun {_ b} hb ↦ ⟨b, hb, rfl, rfl⟩⟩

theorem Grows.trans (hg : Grows R h h') (hg' : Grows R h' h'') : Grows R h h'' where
  climbs {d t''} ht'' := by
    obtain ⟨t', ht', hc'⟩ := hg'.climbs ht''
    obtain ⟨t, ht, hc⟩ := hg.climbs ht'
    exact ⟨t, ht, hc.trans (R.sound d) hc'⟩
  blocks hb := by
    obtain ⟨b', hb', ht', ha'⟩ := hg.blocks hb
    obtain ⟨b'', hb'', ht'', ha''⟩ := hg'.blocks hb'
    exact ⟨b'', hb'', ht''.trans ht', ha''.trans ha'⟩

/-- A change that leaves the tables alone. -/
theorem Grows.of_weakTables (ht : h'.weakTables = h.weakTables)
    (hblocks : ∀ {i : Nat} {b : Block}, h.blocks[i]? = some b →
      ∃ b', h'.blocks[i]? = some b' ∧ b'.type = b.type ∧ b'.address = b.address) :
    Grows R h h' where
  climbs {d t} htd := by
    rw [weakTable?, ht] at htd
    exact ⟨t, htd, .refl (R.sound d) t⟩
  blocks := hblocks

theorem blocks_detach (h : Host) (cell : Address) : (h.detach cell).blocks = h.blocks := by
  rw [detach]
  split
  · rfl
  · simp only
    split
    · rfl
    · split <;> rfl

theorem Grows.detach (h : Host) (cell : Address) : Grows R h (h.detach cell) where
  climbs {d t'} ht' := by
    obtain ⟨t, ht, ⟨i, -, rfl⟩ | ⟨rfl, -⟩⟩ := weakTable?_of_detach ht'
    · exact ⟨t, ht, WeakTable.climbs_release (R.sound d) i⟩
    · exact ⟨t', ht, .refl (R.sound d) t'⟩
  blocks {i b} hb := ⟨b, by rwa [blocks_detach], rfl, rfl⟩

/-- A handle is entered into an anchor, and its table into the host. -/
theorem Grows.enter {d : Nat} {t : WeakTable} (ht : h.weakTable? d = some t) {c : Address}
    {result : Handle × WeakTable} (hc : t.Climbs (R.registry d) result.2) :
    Grows R h (h.enter d c result).2 where
  climbs {d' t'} ht' := by
    have htable : (h.enter d c result).2.weakTable? d' =
        (h.setWeakTable d result.2).weakTable? d' :=
      rfl
    rw [htable, weakTable?_setWeakTable ht] at ht'
    split at ht'
    · rename_i hd
      subst hd
      obtain rfl := Option.some.inj ht'
      exact ⟨t, ht, hc⟩
    · exact ⟨t', ht', .refl (R.sound d') t'⟩
  blocks {i b} hb := ⟨b, hb, rfl, rfl⟩

/-- **Seeing a weak object again.** The slots follow on, and the slot of the object is in order. -/
theorem Anchored.grows_acquire (ha : h.Anchored R) {d : Nat} {t : WeakTable}
    (ht : h.weakTable? d = some t) (c : Address) (v : View) :
    Grows R h (h.acquire (R.registry d) d c v).2 ∧
      ∃ t', (h.acquire (R.registry d) d c v).2.weakTable? d = some t' ∧
        t.Seats (R.registry d) v (h.acquire (R.registry d) d c v).1 t' := by
  have hentered : ∀ {h₁ : Host} {t₁ : WeakTable} (result : Handle × WeakTable),
      h₁.weakTable? d = some t₁ → (h₁.enter d c result).2.weakTable? d = some result.2 :=
    fun {h₁ t₁} result ht₁ ↦ (weakTable?_setWeakTable ht₁ _ _).trans (if_pos rfl)
  by_cases hattached : (h.memory.anchor c).owner = some d
  · rw [acquire_attached hattached (by rw [ht]; rfl), weakTable_of_some ht]
    obtain ⟨hclimbs, hseats⟩ := climbs_weakAcquire (R.sound d) (ha.sound ht)
      (h.memory.anchor c).slot v
    exact ⟨.enter ht hclimbs, _, hentered _ ht, hseats⟩
  · rw [acquire_not_attached hattached]
    have hdetach : Grows R h (h.detach c) := .detach h c
    obtain ⟨t₁, ht₁⟩ := Option.isSome_iff_exists.1
      ((Evolves.detach (R := R) h c).isSome_weakTable? d (by rw [ht]; rfl))
    obtain ⟨t₀, ht₀, hclimbs₁⟩ := hdetach.climbs ht₁
    obtain rfl := Option.some.inj (ht.symm.trans ht₀)
    have hslot := slot_detach h c
    have hsound₁ := (ha.detach c).sound ht₁
    rw [weakTable_of_some ht₁, hslot]
    obtain ⟨hclimbs, hseats⟩ := climbs_weakAcquire (R.sound d) hsound₁ none v
    refine ⟨hdetach.trans (.enter ht₁ hclimbs), _, hentered _ ht₁, hseats.derived, fun hu ↦ ?_⟩
    -- the serial is a new one, so neither table has held anything under it
    have hnew : ∀ {u}, ¬ t.Holds t₁.nextHandle.index t₁.nextHandle.serial u := fun hu ↦
      absurd ((ha.sound ht).lt_of_holds hu) (Nat.not_lt.2 hclimbs₁.nextSerial_le)
    rcases hseats.slot hu with hold | ⟨rfl, -⟩
    · exact absurd (hsound₁.lt_of_holds hold) (Nat.lt_irrefl _)
    · exact Or.inr ⟨rfl, fun hu₀ ↦ absurd hu₀ hnew⟩

/-- **Destroying objects lets no slot record another type.** -/
theorem Grows.lasting : Lasting (Grows R) where
  refl := Grows.refl
  trans h h' := h.trans h'
  detach := Grows.detach
  note _ _ := .of_weakTables rfl fun {_ b} hb ↦ ⟨b, hb, rfl, rfl⟩
  disown h block := .of_weakTables rfl fun {i b} hb ↦ by
    simp only [Array.getElem?_modify, hb]
    split
    · exact ⟨_, rfl, rfl, rfl⟩
    · exact ⟨b, rfl, rfl, rfl⟩

end Host

end ObjectBridge
