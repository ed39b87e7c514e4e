import ObjectBridge.Proofs.Decoding
import ObjectBridge.Proofs.SlotOwners

/-!
# The handles that a table has given

A table of weak objects is told by its history (`WeakTable.grants_tell`). A handle resolves if and only if
it has been given to an object and its slot has not been released since; it leads to the view that it was
given for, or to the one that its slot has latest been upgraded to. Slots are used again, in whatever order
they are released, and a slot that is released forgets its serial; but the serials of the handles increase,
so no handle is given twice.

Any slots may be released, occupied or not, and any number of times. An upgrade, however, does not ask
whether its slot is occupied: in one that has been released, it would put a view on a slot that is free. It
belongs to slots that are occupied, and does nothing to slots that have never been (`WeakTable.Careful`).
The host upgrades a slot only when it has found it occupied, so whatever slots it asks for and releases, its
uses of a table are careful (`WeakTable.Run.exists_careful`).
-/

namespace ObjectBridge

/-! ### Histories -/

/-- A use of a table of weak objects. -/
inductive WeakUse where
  | allocate (v : View)
  | upgrade (i : Nat) (v : View)
  | release (i : Nat)
  deriving DecidableEq

namespace WeakUse

/-- What a use makes of a table. -/
def perform (t : WeakTable) : WeakUse → WeakTable
  | allocate v => t.allocate v
  | upgrade i v => t.upgrade i v
  | release i => t.release i

/-- The view of the object in slot `i` after a use, which has been `v` before. -/
def shown (i : Nat) (v : View) : WeakUse → View
  | upgrade j w => if j = i then w else v
  | allocate _ | release _ => v

end WeakUse

/-- A handle that is given in a history. -/
structure Grant where
  handle : Handle
  /-- The view of the object that the handle was given for. -/
  view : View
  /-- The uses of the table since then. -/
  since : List WeakUse

namespace Grant

/-- The slot of the handle has not been released since. -/
def Stands (g : Grant) : Prop :=
  .release g.handle.index ∉ g.since

instance (g : Grant) : Decidable g.Stands :=
  inferInstanceAs (Decidable (¬ _))

/-- The latest view of the object. -/
def latest (g : Grant) : View :=
  g.since.foldl (WeakUse.shown g.handle.index) g.view

theorem stands_cons {h : Handle} {v : View} {use : WeakUse} {uses : List WeakUse} :
    Stands ⟨h, v, use :: uses⟩ ↔ use ≠ .release h.index ∧ Stands ⟨h, v, uses⟩ := by
  simp only [Stands, List.mem_cons, not_or, ne_eq, @eq_comm _ use]

end Grant

namespace WeakTable

variable {t t' : WeakTable} {uses more : List WeakUse} {h : Handle} {i : Nat} {r : Registry}

/-- A table after some uses. -/
def after (t : WeakTable) (uses : List WeakUse) : WeakTable :=
  uses.foldl WeakUse.perform t

/-- The handles that are given in some uses of a table, the earliest first. -/
def grants (t : WeakTable) : List WeakUse → List Grant
  | [] => []
  | .allocate v :: uses => ⟨t.nextHandle, v, uses⟩ :: (t.allocate v).grants uses
  | .upgrade i v :: uses => (t.upgrade i v).grants uses
  | .release i :: uses => (t.release i).grants uses

/-- The slot is occupied, or has never been. -/
def Upgradable (t : WeakTable) (i : Nat) : Prop :=
  (t.view? i).isSome = true ∨ t.slots.size ≤ i

instance (t : WeakTable) (i : Nat) : Decidable (t.Upgradable i) :=
  inferInstanceAs (Decidable (_ ∨ _))

/-- No slot is upgraded while it is free. -/
def Careful (t : WeakTable) : List WeakUse → Prop
  | [] => True
  | .allocate v :: uses => (t.allocate v).Careful uses
  | .upgrade i v :: uses => t.Upgradable i ∧ (t.upgrade i v).Careful uses
  | .release i :: uses => (t.release i).Careful uses

instance decidableCareful : (t : WeakTable) → (uses : List WeakUse) → Decidable (t.Careful uses)
  | _, [] => inferInstanceAs (Decidable True)
  | t, .allocate v :: uses => decidableCareful (t.allocate v) uses
  | t, .upgrade i v :: uses =>
    have := decidableCareful (t.upgrade i v) uses
    inferInstanceAs (Decidable (_ ∧ _))
  | t, .release i :: uses => decidableCareful (t.release i) uses

theorem Sound.resolve_allocate (hs : t.Sound) (w : View) (h : Handle) :
    (t.allocate w).resolve h = if h = t.nextHandle then some w else t.resolve h := by
  refine Option.ext fun v ↦ ?_
  rw [resolve_eq_some_iff, hs.holds_allocate]
  split
  · rename_i hnext
    subst hnext
    have hnot : ¬ t.Holds t.nextIndex t.nextSerial v := hs.not_holds_nextIndex
    simp [nextHandle, hnot, eq_comm]
  · rename_i hnext
    have hne : ¬ (h.index = t.nextIndex ∧ h.serial = t.nextSerial ∧ v = w) := fun he ↦
      hnext (congr_arg₂ Handle.mk he.1 he.2.1)
    rw [or_iff_right hne, resolve_eq_some_iff]

/-- An upgrade shows the objects of its slot as `w`. -/
theorem Upgradable.resolve_upgrade (hi : t.Upgradable i) (w : View) (h : Handle) :
    (t.upgrade i w).resolve h = (t.resolve h).map fun v ↦ if i = h.index then w else v := by
  simp only [resolve, upgrade, Array.getElem?_modify]
  by_cases hindex : i = h.index
  · subst hindex
    rw [Upgradable, view?] at hi
    cases hslot : t.slots[h.index]? with
    | none => simp
    | some s =>
      have hlt : h.index < t.slots.size := (Array.getElem?_eq_some_iff.1 hslot).1
      have hsome : s.view.isSome = true := by
        simpa [hslot] using hi.resolve_right (Nat.not_le.2 hlt)
      obtain ⟨u, hu⟩ := Option.isSome_iff_exists.1 hsome
      by_cases hserial : s.serial = h.serial <;> simp [hserial, hu]
  · simp [hindex]

theorem upgrade_of_size_le (hi : t.slots.size ≤ i) (w : View) : t.upgrade i w = t := by
  have hslots : (t.slots.modify i fun s ↦ { s with view := some w }) = t.slots := by
    refine Array.ext_getElem? fun j ↦ ?_
    rw [Array.getElem?_modify]
    split
    · rename_i hj
      rw [← hj, Array.getElem?_eq_none_iff.2 hi]
      rfl
    · rfl
  rw [upgrade, hslots]

theorem Upgradable.sound (hi : t.Upgradable i) (hs : t.Sound) (w : View) : (t.upgrade i w).Sound := by
  rcases hi with hsome | hsize
  · obtain ⟨u, hu⟩ := Option.isSome_iff_exists.1 hsome
    obtain ⟨n, hn⟩ := t.view?_eq_some_iff.1 hu
    exact hs.upgrade hn w
  · rwa [upgrade_of_size_le hsize]

/-- The release of a slot that is not occupied changes nothing. -/
theorem release_of_view?_eq_none (hi : t.view? i = none) : t.release i = t := by
  rw [release, hi]

/-! ### Runs -/

theorem Sound.after (hs : t.Sound) (hc : t.Careful uses) : (t.after uses).Sound := by
  induction uses generalizing t with
  | nil => exact hs
  | cons use uses ih =>
    cases use with
    | allocate v => exact ih (hs.allocate v) hc
    | upgrade i v => exact ih (hc.1.sound hs v) hc.2
    | release i => exact ih (hs.release i) hc

/-- **A handle resolves if it stands**: if it resolved before or has been given, and its slot has not been
released since. It leads to the latest view of its object. -/
theorem Sound.resolve_after (hs : t.Sound) (hc : t.Careful uses) {v : View} :
    (t.after uses).resolve h = some v ↔
      (∃ u, t.resolve h = some u ∧ Grant.Stands ⟨h, u, uses⟩ ∧ Grant.latest ⟨h, u, uses⟩ = v) ∨
        ∃ g ∈ t.grants uses, g.handle = h ∧ g.Stands ∧ g.latest = v := by
  induction uses generalizing t with
  | nil => simp [WeakTable.after, grants, Grant.Stands, Grant.latest]
  | cons use uses ih =>
    cases use with
    | allocate w =>
      refine (ih (hs.allocate w) hc).trans ?_
      rw [hs.resolve_allocate, grants, List.exists_mem_cons_iff, ← or_assoc]
      refine or_congr_left ?_
      simp only [Grant.stands_cons, ne_eq, reduceCtorEq, not_false_eq_true, true_and]
      by_cases hnext : h = t.nextHandle
      · have hnone : t.resolve t.nextHandle = none := Option.eq_none_iff_forall_ne_some.2 fun u hu ↦
          hs.not_holds_nextIndex (t.resolve_eq_some_iff.1 hu)
        subst hnext
        simp [hnone]
      · have hne : t.nextHandle ≠ h := fun e ↦ hnext e.symm
        simp only [if_neg hnext, hne, false_and, or_false]
        rfl
    | upgrade k w =>
      refine (ih (hc.1.sound hs w) hc.2).trans ?_
      rw [hc.1.resolve_upgrade, grants]
      refine or_congr_left ?_
      simp only [Grant.stands_cons, ne_eq, reduceCtorEq, not_false_eq_true, true_and,
        Option.map_eq_some_iff]
      constructor
      · rintro ⟨_, ⟨u, hu, rfl⟩, hstands, hlatest⟩
        exact ⟨u, hu, hstands, hlatest⟩
      · rintro ⟨u, hu, hstands, hlatest⟩
        exact ⟨_, ⟨u, hu, rfl⟩, hstands, hlatest⟩
    | release k =>
      refine (ih (hs.release k) hc).trans ?_
      rw [resolve_release, grants]
      refine or_congr_left ?_
      simp only [Grant.stands_cons, ne_eq, WeakUse.release.injEq, @eq_comm _ k]
      by_cases hk : h.index = k
      · simp [hk]
      · simp only [hk, if_false, not_false_eq_true, true_and]
        rfl

/-- **The serials of the handles are handed out one after the other.** -/
theorem serials_grants (t : WeakTable) (uses : List WeakUse) :
    (t.grants uses).map (·.handle.serial) = List.range' t.nextSerial (t.grants uses).length := by
  induction uses generalizing t with
  | nil => rfl
  | cons use uses ih =>
    cases use with
    | allocate v =>
      rw [grants, List.map_cons, ih, nextSerial_allocate, List.length_cons, List.range'_succ]
      rfl
    | upgrade i v => exact ih _
    | release i => rw [grants, ih, nextSerial_release]

theorem pairwise_grants (t : WeakTable) (uses : List WeakUse) :
    (t.grants uses).Pairwise fun g g' ↦ g.handle.serial < g'.handle.serial := by
  have hserials : ((t.grants uses).map (·.handle.serial)).Pairwise (· < ·) := by
    rw [serials_grants]
    exact List.pairwise_lt_range'
  exact List.pairwise_map.1 hserials

/-! ### The host -/

/-- What some uses of a new table tell of the table that they lead to. -/
structure Recorded (t : WeakTable) (uses : List WeakUse) : Prop where
  /-- A handle resolves if it has been given and its slot has not been released since, to the latest view
  of its object. -/
  resolve_iff : ∀ h v, t.resolve h = some v ↔
    ∃ g ∈ grants {} uses, g.handle = h ∧ g.Stands ∧ g.latest = v
  /-- Every handle has a greater serial than those before, and the serials are no more than the handles. -/
  serial_lt : (grants {} uses).Pairwise fun g g' ↦ g.handle.serial < g'.handle.serial
  serial_le : ∀ g ∈ grants {} uses, g.handle.serial ≤ (grants {} uses).length
  /-- The free slots are those that are not occupied, each listed once. -/
  nodup_free : t.free.Nodup
  mem_free_iff : ∀ i, i ∈ t.free ↔ i < t.slots.size ∧ t.view? i = none
  /-- As many slots are occupied as handles stand. -/
  liveCount_eq : t.liveCount = ((grants {} uses).filter fun g ↦ g.Stands).length
  /-- The release of a slot for which no handle stands changes nothing. -/
  release_eq : ∀ i, (∀ g ∈ grants {} uses, g.Stands → g.handle.index ≠ i) → t.release i = t

/-- A slot is occupied if a handle stands for it. -/
theorem exists_holds_iff (hc : Careful {} uses) :
    (∃ n v, (after {} uses).Holds i n v) ↔ ∃ g ∈ grants {} uses, g.Stands ∧ g.handle.index = i := by
  have hresolve (n : Nat) (v : View) := sound_empty.resolve_after (h := ⟨i, n⟩) hc (v := v)
  have hempty (n : Nat) : resolve {} ⟨i, n⟩ = none := rfl
  simp only [resolve_eq_some_iff, hempty, reduceCtorEq, false_and, exists_false, false_or] at hresolve
  simp only [hresolve]
  constructor
  · rintro ⟨n, v, g, hg, hhandle, hstands, -⟩
    exact ⟨g, hg, hstands, by rw [hhandle]⟩
  · rintro ⟨g, hg, hstands, rfl⟩
    exact ⟨g.handle.serial, g.latest, g, hg, rfl, hstands, rfl⟩

/-- No two handles stand for one slot. -/
theorem pairwise_index_grants (hc : Careful {} uses) :
    ((grants {} uses).filter fun g ↦ g.Stands).Pairwise fun g g' ↦ g.handle.index ≠ g'.handle.index := by
  refine ((pairwise_grants {} uses).filter _).imp_of_mem fun {g g'} hg hg' hlt hindex ↦ ?_
  have hholds {g : Grant} (hg : g ∈ (grants {} uses).filter fun g ↦ g.Stands) :
      (after {} uses).Holds g.handle.index g.handle.serial g.latest := by
    obtain ⟨hmem, hstands⟩ := List.mem_filter.1 hg
    exact (resolve_eq_some_iff _).1
      ((sound_empty.resolve_after hc).2 (Or.inr ⟨g, hmem, rfl, of_decide_eq_true hstands, rfl⟩))
  obtain ⟨hserial, -⟩ := (hholds hg).unique (hindex ▸ hholds hg')
  omega

theorem Careful.recorded (hc : Careful {} uses) : (after {} uses).Recorded uses := by
  have hs : (after {} uses).Sound := sound_empty.after hc
  exact
    { resolve_iff := fun h v ↦ by
        have hempty : resolve {} h = none := rfl
        simp [sound_empty.resolve_after hc, hempty]
      serial_lt := pairwise_grants _ _
      serial_le := fun g hg ↦ by
        have hserial := List.mem_map_of_mem (f := fun g : Grant ↦ g.handle.serial) hg
        rw [serials_grants, List.mem_range'_1] at hserial
        have hone : nextSerial {} = 1 := rfl
        omega
      nodup_free := hs.nodup_free
      mem_free_iff := fun i ↦ by
        rw [hs.mem_free_iff, view?]
        rcases hslot : (after {} uses).slots[i]? with _ | ⟨_ | v, n⟩
        · simpa using Array.getElem?_eq_none_iff.1 hslot
        · simpa using (Array.getElem?_eq_some_iff.1 hslot).1
        · simp
      liveCount_eq := by
        rw [← List.length_map (fun g : Grant ↦ g.handle.index)]
        refine hs.liveCount_eq ?_ fun i ↦ ?_
        · exact List.pairwise_map.2 (pairwise_index_grants hc)
        · rw [exists_holds_iff hc]
          simp [and_assoc]
      release_eq := fun i hi ↦ by
        refine release_of_view?_eq_none (Option.eq_none_iff_forall_ne_some.2 fun v hv ↦ ?_)
        obtain ⟨n, hn⟩ := (view?_eq_some_iff _).1 hv
        obtain ⟨g, hg, hstands, hindex⟩ := (exists_holds_iff hc).1 ⟨n, v, hn⟩
        exact hi g hg hstands hindex }

/-- An upgrade of a slot that is free would have a handle resolve that has never been given. -/
example : (after {} [.allocate ⟨0x1000, 0⟩, .release 0, .upgrade 0 ⟨0x1000, 0⟩]).resolve ⟨0, 0⟩ =
    some ⟨0x1000, 0⟩ := by
  decide

end WeakTable

end ObjectBridge
