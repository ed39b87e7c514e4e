import Mathlib.Data.List.Sort
import ObjectBridge.Proofs.Interning

/-!
# The order in which finalizers are due

A cycle of the collector lists the userdata whose finalizers are due by increasing number. Numbers are
used again, the one freed last first, so this is not the order in which the userdata were made: of two
userdata that get numbers freed by one cycle, the one made first gets the greater number.

To compare the two orders, the userdata of a machine are listed as they were made (`Machine.History`),
each with whether its number had been used before. A number that had not lies beyond those of all
userdata that were there, and every use of a machine preserves this (`Machine.Births.perform`). So the
finalizers that are due are in the order of creation if no number among them has been used again, and in
general just if the numbers happen to increase in that order (`Machine.History.due_order`).
-/

namespace ObjectBridge

/-! ### Storage of which the numbers stay -/

namespace SlotStore

variable {α : Type} {s s' s'' : SlotStore α}

/-- The numbers in use are the same. -/
structure SameIds (s s' : SlotStore α) : Prop where
  live : ∀ id, s'.live id = s.live id
  sound : s.Sound → s'.Sound

theorem SameIds.refl (s : SlotStore α) : s.SameIds s :=
  ⟨fun _ ↦ rfl, fun hs ↦ hs⟩

theorem SameIds.trans (h : s.SameIds s') (h' : s'.SameIds s'') : s.SameIds s'' :=
  ⟨fun id ↦ (h'.live id).trans (h.live id), fun hs ↦ h'.sound (h.sound hs)⟩

theorem sameIds_modify (s : SlotStore α) (id : Nat) (f : α → α) : s.SameIds (s.modify id f) :=
  ⟨fun _ ↦ s.live_modify id _ f, fun hs ↦ hs.modify id f⟩

end SlotStore

namespace Heap

variable {h : Heap} {roots : List Value}

theorem sameIds_flagFinalized (h : Heap) (ids : List Nat) :
    h.userdata.SameIds (h.flagFinalized ids).userdata := by
  induction ids generalizing h with
  | nil => exact .refl _
  | cons id ids ih =>
    exact (h.userdata.sameIds_modify id _).trans
      (ih (h.modifyUserdata id fun u ↦ { u with finalized := true }))

/-- A cycle that meets a stray reference removes no userdata. -/
theorem sameIds_of_collect_error {i : Interruption} (hi : h.collect roots = .error i) :
    h.userdata.SameIds i.heap.userdata := by
  rcases exists_of_collect_error hi with heq | ⟨m, bound, ids, -, heq⟩
  · rw [heq]
    exact .refl _
  · rw [heq]
    exact sameIds_flagFinalized (h.clearWeak m bound) ids

/-- A cycle brings about no userdata, and what it removes can be used again. -/
theorem userdata_of_collect {c : Collection} (hc : h.collect roots = .ok c) :
    (∀ id, c.heap.userdata.live id = true → h.userdata.live id = true) ∧
      (h.userdata.Sound → c.heap.userdata.Sound) := by
  refine ⟨fun id hid ↦ (((collects_of_collect hc).live_iff (.userdata id)).1 hid).1, fun hs ↦ ?_⟩
  obtain ⟨m, kept, -, -, -, hheap, -⟩ := exists_of_collect hc
  have hsettled := sameIds_flagFinalized (h.clearWeak m h.tables.capacity) c.due
  rw [hheap]
  exact (hsettled.sound hs).foldl_erase _

/-- The userdata that are due are listed by increasing number. -/
theorem pairwise_due {c : Collection} (hc : h.collect roots = .ok c) : c.due.Pairwise (· < ·) := by
  obtain ⟨m, -, -, -, hdue, -⟩ := exists_of_collect hc
  rw [hdue]
  exact (List.pairwise_lt_range.filter _).filter _

end Heap

/-! ### Userdata in the order of their creation -/

/-- A userdata among those of a machine: its number, and whether that had been used before. -/
structure Birth where
  id : Nat
  reused : Bool
  deriving DecidableEq

namespace MachineUse

/-- The userdata after a use, as they were made, if they are `l` before it: a new one comes last, and what
a cycle removes is struck off. -/
def births (m : Machine) (l : List Birth) : MachineUse → List Birth
  | createUserdata _ =>
    l ++ [⟨m.heap.userdata.nextId, decide (m.heap.userdata.nextId < m.heap.userdata.capacity)⟩]
  | collect => l.filter fun b ↦ (collect.perform m).heap.userdata.live b.id
  | _ => l

end MachineUse

/-- The machines that a new machine becomes by whatever use, with their userdata as they were made. -/
inductive Machine.History : Machine → List Birth → Prop
  | initial : History .initial []
  | use {m : Machine} {l : List Birth} (u : MachineUse) (history : m.History l) :
    History (u.perform m) (u.births m l)

/-- **What is preserved of the numbers of userdata**: each has one, and a number that had not been used
before lies beyond those of all userdata made earlier. -/
structure Machine.Births (m : Machine) (l : List Birth) : Prop where
  sound : m.heap.userdata.Sound
  live_iff : ∀ id, m.heap.userdata.live id = true ↔ id ∈ l.map Birth.id
  nodup : (l.map Birth.id).Nodup
  ordered : l.Pairwise fun a b ↦ b.reused = false → a.id < b.id

namespace Machine.Births

variable {m m' : Machine} {l : List Birth}

/-- Uses that neither make nor remove userdata. -/
theorem of_sameIds (hb : m.Births l) (h : m.heap.userdata.SameIds m'.heap.userdata) : m'.Births l where
  sound := h.sound hb.sound
  live_iff id := by rw [h.live, hb.live_iff]
  nodup := hb.nodup
  ordered := hb.ordered

/-- A new userdata gets a number that no userdata has. -/
theorem createUserdata (hb : m.Births l) (u : Userdata) :
    (m.createUserdata u).2.Births ((MachineUse.createUserdata u).births m l) where
  sound := hb.sound.insert u
  live_iff id := by
    have hlive : (m.createUserdata u).2.heap.userdata.live id = true ↔
        id = m.heap.userdata.nextId ∨ m.heap.userdata.live id = true := by
      show (m.heap.userdata.insert u).live id = true ↔ _
      rw [SlotStore.live, hb.sound.get?_insert]
      by_cases hid : id = m.heap.userdata.nextId <;> simp [hid, SlotStore.live]
    rw [hlive, hb.live_iff, MachineUse.births, List.map_append, List.mem_append, or_comm]
    simp
  nodup := by
    have hfresh : m.heap.userdata.nextId ∉ l.map Birth.id := by
      rw [← hb.live_iff, SlotStore.live, hb.sound.get?_nextId]
      simp
    rw [MachineUse.births, List.map_append]
    refine List.nodup_append.2 ⟨hb.nodup, List.nodup_singleton _, ?_⟩
    rintro id hid _ hnew rfl
    obtain rfl : id = m.heap.userdata.nextId := List.mem_singleton.1 hnew
    exact hfresh hid
  ordered := by
    refine List.pairwise_append.2 ⟨hb.ordered, List.pairwise_singleton _ _, fun a ha b hnew hreused ↦ ?_⟩
    obtain rfl := List.mem_singleton.1 hnew
    -- the numbers in use lie below the capacity, and a new number does not
    have hlive : m.heap.userdata.live a.id = true := (hb.live_iff _).2 (List.mem_map.2 ⟨a, ha, rfl⟩)
    obtain ⟨x, hx⟩ := m.heap.userdata.live_iff.1 hlive
    have hlt := m.heap.userdata.lt_capacity_of_get? hx
    have hge : ¬ m.heap.userdata.nextId < m.heap.userdata.capacity := of_decide_eq_false hreused
    show a.id < m.heap.userdata.nextId
    omega

/-- A cycle strikes off what it removes. -/
theorem collect (hb : m.Births l) :
    (MachineUse.collect.perform m).Births (MachineUse.collect.births m l) := by
  have hcycle : (∀ id, (MachineUse.collect.perform m).heap.userdata.live id = true →
      m.heap.userdata.live id = true) ∧ (MachineUse.collect.perform m).heap.userdata.Sound := by
    rw [MachineUse.perform]
    cases hc : m.heap.collect m.roots with
    | ok c =>
      obtain ⟨hlive, hsound⟩ := Heap.userdata_of_collect hc
      exact ⟨hlive, hsound hb.sound⟩
    | error i =>
      have hsame := Heap.sameIds_of_collect_error hc
      exact ⟨fun id hid ↦ (hsame.live id).symm.trans hid, hsame.sound hb.sound⟩
  refine ⟨hcycle.2, fun id ↦ ?_, hb.nodup.sublist (List.filter_sublist.map _), hb.ordered.filter _⟩
  rw [MachineUse.births, List.mem_map]
  constructor
  · intro hid
    obtain ⟨b, hmem, rfl⟩ := List.mem_map.1 ((hb.live_iff id).1 (hcycle.1 id hid))
    exact ⟨b, List.mem_filter.2 ⟨hmem, hid⟩, rfl⟩
  · rintro ⟨b, hmem, rfl⟩
    exact (List.mem_filter.1 hmem).2

end Machine.Births

namespace TableUse

/-- The uses of a table leave userdata alone. -/
theorem userdata_perform (table : Nat) (m : Machine) (use : TableUse) :
    (use.perform table m).heap.userdata = m.heap.userdata := by
  cases use with
  | write k v =>
    rw [perform, Machine.rawSet]
    split
    · split <;> rfl
    · rfl
  | writePosition n v => rfl
  | reference v =>
    rw [perform, Machine.reference]
    split
    · rfl
    · split <;> rfl
  | unreference r => rfl

end TableUse

/-- A metatable is given to a userdata that is there. -/
theorem Machine.sameIds_of_setMetatable {m m' : Machine} {v : Value} {mt : Option Nat}
    (h : m.setMetatable v mt = .ok m') : m.heap.userdata.SameIds m'.heap.userdata := by
  cases v with
  | table id =>
    rw [setMetatable] at h
    split at h
    · obtain rfl := Except.ok.inj h
      exact .refl _
    · cases h
  | userdata id =>
    rw [setMetatable] at h
    split at h
    · obtain rfl := Except.ok.inj h
      exact m.heap.userdata.sameIds_modify id _
    · cases h
  | word w =>
    obtain rfl := Except.ok.inj h
    exact .refl _
  | nil | boolean | integer | number | string | function => cases h

/-- **Each use preserves what is known of the numbers of userdata.** -/
theorem Machine.Births.perform {m : Machine} {l : List Birth} (hb : m.Births l) (u : MachineUse) :
    (u.perform m).Births (u.births m l) := by
  cases u with
  | createUserdata u => exact hb.createUserdata u
  | collect => exact hb.collect
  | intern s => exact hb.of_sameIds (.refl _)
  | createTable => exact hb.of_sameIds (.refl _)
  | createFunction c name => exact hb.of_sameIds (.refl _)
  | restack stack frames => exact hb.of_sameIds (.refl _)
  | modifyUserdata id f => exact hb.of_sameIds (m.heap.userdata.sameIds_modify id f)
  | table id use =>
    refine hb.of_sameIds ?_
    rw [MachineUse.perform, use.userdata_perform]
    exact .refl _
  | writeField id name v =>
    refine hb.of_sameIds ?_
    have hwrite := (TableUse.write (m.intern name).1 v).userdata_perform id (m.intern name).2
    exact hwrite ▸ .refl _
  | setMetatable v mt =>
    refine hb.of_sameIds ?_
    rw [MachineUse.perform]
    cases hset : m.setMetatable v mt with
    | error _ => exact .refl _
    | ok m' => exact Machine.sameIds_of_setMetatable hset

/-- The userdata that are due, as they were made. -/
def dueByAge (l : List Birth) (due : List Nat) : List Nat :=
  (l.map Birth.id).filter fun id ↦ id ∈ due

namespace Machine

variable {m : Machine} {l : List Birth} {c : Collection}

theorem History.births (hm : m.History l) : m.Births l := by
  induction hm with
  | initial =>
    refine ⟨orderly_initial.userdata, fun id ↦ ?_, List.nodup_nil, .nil⟩
    have hdead : Machine.initial.heap.userdata.live id = false := rfl
    simp [hdead]
  | use u _ ih => exact ih.perform u

/-- The userdata that are due are among those that were made and are still there. -/
theorem Births.perm_dueByAge (hb : m.Births l) (hc : m.heap.collect m.roots = .ok c) :
    c.due.Perm (dueByAge l c.due) := by
  have hnodup : (dueByAge l c.due).Nodup := hb.nodup.filter _
  refine (List.perm_ext_iff_of_nodup (Heap.collects_of_collect hc).nodup_due hnodup).2 fun id ↦ ?_
  rw [dueByAge, List.mem_filter, decide_eq_true_iff]
  refine ⟨fun hid ↦ ⟨?_, hid⟩, And.right⟩
  obtain ⟨u, hu, -⟩ := (((Heap.collects_of_collect hc).mem_due_iff id).1 hid).pending
  exact (hb.live_iff id).1 (m.heap.userdata.live_iff.2 ⟨u, hu⟩)

/-- Numbers that had not been used before increase as the userdata were made. -/
theorem Births.pairwise_dueByAge (hb : m.Births l) {due : List Nat}
    (hreused : ∀ b ∈ l, b.id ∈ due → b.reused = false) : (dueByAge l due).Pairwise (· < ·) := by
  rw [dueByAge, List.filter_map, List.pairwise_map]
  refine (hb.ordered.filter _).imp_of_mem fun {a b} _ hb' hlt ↦ hlt ?_
  obtain ⟨hmem, hdue⟩ := List.mem_filter.1 hb'
  exact hreused b hmem (of_decide_eq_true hdue)

/-- **The order in which finalizers are due.** However a new machine has been used, a cycle lists the
userdata that are due by increasing number. These are the same as those that are due by age; the order is
that of age if and only if the numbers increase with it, and so it is if none of the numbers had been used
before. -/
theorem History.due_order (hm : m.History l) (hc : m.heap.collect m.roots = .ok c) :
    (∀ id, id ∈ c.due ↔ m.heap.Due m.roots id) ∧ c.due.Pairwise (· < ·) ∧
      c.due.Perm (dueByAge l c.due) ∧
      (c.due = dueByAge l c.due ↔ (dueByAge l c.due).Pairwise (· < ·)) ∧
      ((∀ b ∈ l, b.id ∈ c.due → b.reused = false) → c.due = dueByAge l c.due) := by
  have hincreasing := Heap.pairwise_due hc
  have hperm := hm.births.perm_dueByAge hc
  have heq (h : (dueByAge l c.due).Pairwise (· < ·)) : c.due = dueByAge l c.due :=
    hperm.eq_of_pairwise (fun a b _ _ hab hba ↦ absurd hab (Nat.lt_asymm hba)) hincreasing h
  exact ⟨(Heap.collects_of_collect hc).mem_due_iff, hincreasing, hperm,
    ⟨fun h ↦ h ▸ hincreasing, heq⟩, fun h ↦ heq (hm.births.pairwise_dueByAge h)⟩

/-- A machine after some uses, and its userdata as they were made. -/
def aged (uses : List MachineUse) : Machine × List Birth :=
  uses.foldl (fun s u ↦ (u.perform s.1, u.births s.1 s.2)) (.initial, [])

theorem history_aged (uses : List MachineUse) : (aged uses).1.History (aged uses).2 := by
  rw [aged]
  suffices h : ∀ s : Machine × List Birth, s.1.History s.2 →
      (uses.foldl (fun s u ↦ (u.perform s.1, u.births s.1 s.2)) s).1.History
        (uses.foldl (fun s u ↦ (u.perform s.1, u.births s.1 s.2)) s).2 from h _ .initial
  induction uses with
  | nil => exact fun _ hs ↦ hs
  | cons u uses ih => exact fun s hs ↦ ih _ (.use u hs)

end Machine

/-- What is told of the userdata that are due is told of a collection. -/
theorem Heap.exists_of_due {h : Heap} {roots : List Value} {due : List Nat}
    (hdue : (h.collect roots).toOption.map (·.due) = some due) :
    ∃ c, h.collect roots = .ok c ∧ c.due = due := by
  obtain ⟨c, hc, hlist⟩ := Option.map_eq_some_iff.1 hdue
  cases hcollect : h.collect roots with
  | error i =>
    rw [hcollect] at hc
    cases hc
  | ok c' =>
    rw [hcollect] at hc
    obtain rfl := Option.some.inj hc
    exact ⟨c', rfl, hlist⟩

namespace MachineUse

/-- A userdata is made that has a finalizer, among the globals. -/
def finalizable : MachineUse :=
  .createUserdata { content := .foreign 0, metatable := some 0 }

/-- Two userdata with finalizers are made, which nothing refers to. -/
def twoNew : List MachineUse :=
  [.writeField 0 "__gc" (.boolean true), finalizable, finalizable]

/-- Two such userdata are made that get the numbers of two others. -/
def twoAgain : List MachineUse :=
  [.writeField 0 "__gc" (.boolean true), .createUserdata { content := .foreign 0 },
    .createUserdata { content := .foreign 0 }, .collect, finalizable, finalizable]

end MachineUse

namespace Machine

/-- The numbers had not been used before, and finalizers are due as the userdata were made. -/
theorem History.due_order_twoNew : ∃ c, (aged MachineUse.twoNew).1.History (aged MachineUse.twoNew).2 ∧
    (aged MachineUse.twoNew).1.heap.collect (aged MachineUse.twoNew).1.roots = .ok c ∧
    c.due = [0, 1] ∧ dueByAge (aged MachineUse.twoNew).2 c.due = [0, 1] := by
  have hhistory := history_aged MachineUse.twoNew
  have hlisted : ((aged MachineUse.twoNew).1.heap.collect (aged MachineUse.twoNew).1.roots).toOption.map
      (·.due) = some [0, 1] := by decide +kernel
  obtain ⟨c, hc, hdue⟩ := Heap.exists_of_due hlisted
  have hnew : ∀ b ∈ (aged MachineUse.twoNew).2, b.reused = false := by decide +kernel
  obtain ⟨-, -, -, -, hage⟩ := hhistory.due_order hc
  exact ⟨c, hhistory, hc, hdue, (hage fun b hb _ ↦ hnew b hb).symm.trans hdue⟩

/-- **Finalizers are not always due in the order of creation.** -/
theorem not_due_eq_dueByAge : ¬ ∀ (m : Machine) (l : List Birth) (c : Collection), m.History l →
    m.heap.collect m.roots = .ok c → c.due = dueByAge l c.due := by
  intro hall
  have hlisted : ((aged MachineUse.twoAgain).1.heap.collect (aged MachineUse.twoAgain).1.roots).toOption.map
      (·.due) = some [0, 1] := by decide +kernel
  obtain ⟨c, hc, hdue⟩ := Heap.exists_of_due hlisted
  have hage : dueByAge (aged MachineUse.twoAgain).2 [0, 1] = [1, 0] := by decide +kernel
  have hsame := hall _ _ c (history_aged MachineUse.twoAgain) hc
  rw [hdue, hage] at hsame
  exact absurd hsame (by decide)

end Machine

end ObjectBridge
