import Mathlib.Data.Finset.Basic
import ObjectBridge.Proofs.Ordering

/-!
# References next to ordinary entries

References and ordinary writes share the integer keys of a table, and neither looks out for the
other. A ledger (`Ledger`) takes down what the uses of a table answer: which references are held,
and which integers are squatted, that is, hold a value that was written there while no such
reference was held. Nothing of the table is in it but that, and it is enough to foretell what
references do (`World.Reached.references_kept`):

* a value gets a reference that is not held, and no entry is overwritten unless it is squatted;
* releasing a reference that is not held changes nothing.

A squatted entry is overwritten when its number comes up (`Ledger.not_reference_absent`).
-/

namespace ObjectBridge

/-! ### Uses of a table -/

/-- A use of a table without metamethods. -/
inductive TableUse where
  | write (k v : Value)
  | writePosition (n : Int) (v : Value)
  | reference (v : Value)
  | unreference (r : Int)

namespace TableUse

/-- What a use makes of a machine. A write under what is no key fails, and changes nothing. -/
def perform (table : Nat) (m : Machine) : TableUse → Machine
  | write k v => (m.rawSet table k v).toOption.getD m
  | writePosition n v => m.rawSetPosition table n v
  | reference v => (m.reference table v).2
  | unreference r => m.unreference table r

/-- What a use makes of the table. -/
def on (t : Table) : TableUse → Table
  | write k v =>
    match k.key? with
    | some key => t.set key v
    | none => t
  | writePosition n v => t.set (.integer n) v
  | reference v => if v.isNil then t else t.reference v
  | unreference r => t.unreference r

variable {table : Nat} {m : Machine} {t : Table}

theorem get?_perform (ht : m.heap.tables.get? table = some t) (use : TableUse) :
    (use.perform table m).heap.tables.get? table = some (use.on t) := by
  have hmodify (f : Table → Table) :
      (m.heap.modifyTable table f).tables.get? table = some (f t) := by
    rw [Heap.modifyTable, SlotStore.get?_modify, if_pos rfl, ht, Option.map_some]
  cases use with
  | write k v =>
    have hlive : m.heap.tables.live table = true := m.heap.tables.live_iff.2 ⟨t, ht⟩
    simp only [perform, Machine.rawSet, hlive, if_true, on]
    cases k.key? with
    | some key => exact hmodify _
    | none => exact ht
  | writePosition n v => exact hmodify _
  | reference v =>
    simp only [perform, Machine.reference, on]
    split
    · exact ht
    · rw [ht]
      exact hmodify _
  | unreference r => exact hmodify _

theorem references_on (hr : t.References) (use : TableUse) : (use.on t).References := by
  cases use with
  | write k v =>
    simp only [on]
    split
    · exact hr.set _ v
    · exact hr
  | writePosition n v => exact hr.set _ v
  | reference v =>
    simp only [on]
    split
    · exact hr
    · exact hr.reference v
  | unreference r => exact hr.unreference r

end TableUse

/-! ### Ledgers -/

/-- What the uses of a table have come to. -/
structure Ledger where
  /-- The references that have been handed out and are not released. -/
  held : Finset Int := ∅
  /-- The integers that hold a value which was written there while no such reference was held. -/
  squatted : Finset Int := ∅
  deriving DecidableEq

instance (t : Table) (r : Int) : Decidable (t.Allocated r) :=
  inferInstanceAs (Decidable (_ ∧ _))

/-- The integer that a key is. -/
def Key.integer? : Key → Option Int
  | .integer n => some n
  | _ => none

/-- The ledger of a table as it is. -/
def Table.ledger (t : Table) : Ledger where
  held := ((List.range t.nextRef).map Int.ofNat).toFinset.filter t.Allocated
  squatted := (t.entries.keys.filterMap Key.integer?).toFinset.filter fun n ↦ ¬ t.Allocated n

/-- The ledger of a new table is empty. -/
example : ({} : Table).ledger = {} := by
  decide

namespace Ledger

/-- Take down that a value has been written at an integer. -/
def written (ℓ : Ledger) (n : Int) (v : Value) : Ledger :=
  if n ∈ ℓ.held then ℓ
  else { ℓ with squatted := if v.isNil then ℓ.squatted.erase n else insert n ℓ.squatted }

/-- Take down a use of a table of a machine, with what the machine answers to it. -/
def note (table : Nat) (ℓ : Ledger) (m : Machine) : TableUse → Ledger
  | .write k v =>
    match k.key? with
    | some (.integer n) => ℓ.written n v
    | _ => ℓ
  | .writePosition n v => ℓ.written n v
  | .reference v =>
    if v.isNil then ℓ
    else
      let r := (m.reference table v).1
      { held := insert r ℓ.held, squatted := ℓ.squatted.erase r }
  | .unreference r => { ℓ with held := ℓ.held.erase r }

/-- The machine after some uses of a table, and the ledger that was kept meanwhile. -/
def keep (table : Nat) (ℓ : Ledger) (m : Machine) (uses : List TableUse) : Machine × Ledger :=
  uses.foldl (fun s use ↦ (use.perform table s.1, s.2.note table s.1 use)) (m, ℓ)

/-- A ledger is right about a table. -/
structure Matches (ℓ : Ledger) (t : Table) : Prop where
  held_iff (r : Int) : r ∈ ℓ.held ↔ t.Allocated r
  squatted_iff (n : Int) :
    n ∈ ℓ.squatted ↔ ¬ t.Allocated n ∧ (t.entries.find? (.integer n)).isSome = true

theorem matches_ledger (t : Table) : t.ledger.Matches t where
  held_iff r := by
    simp only [Table.ledger, Finset.mem_filter, List.mem_toFinset, List.mem_map, List.mem_range,
      and_iff_right_iff_imp]
    rintro ⟨hpos, hlt, -⟩
    exact ⟨r.toNat, by omega, Int.toNat_of_nonneg (by omega)⟩
  squatted_iff n := by
    have hkey : n ∈ t.entries.keys.filterMap Key.integer? ↔
        (t.entries.find? (.integer n)).isSome = true := by
      rw [List.mem_filterMap]
      constructor
      · rintro ⟨k, hk, hn⟩
        cases k with
        | integer n' =>
          obtain rfl := Option.some.inj hn
          exact (t.entries.mem_keys_iff _).1 hk
        | _ => cases hn
      · exact fun h ↦ ⟨.integer n, (t.entries.mem_keys_iff _).2 h, rfl⟩
    rw [Table.ledger, Finset.mem_filter, List.mem_toFinset, hkey, and_comm]

namespace Matches

variable {ℓ : Ledger} {t : Table}

/-- A ledger stays right when a value is written at an integer. -/
theorem written (h : ℓ.Matches t) (n : Int) (v : Value) :
    (ℓ.written n v).Matches (t.set (.integer n) v) := by
  have hallocated (r : Int) : (t.set (.integer n) v).Allocated r ↔ t.Allocated r := .rfl
  rw [Ledger.written]
  split
  · rename_i hheld
    -- The reference is held, so the number is not squatted, whatever is written there.
    refine ⟨h.held_iff, fun n' ↦ ?_⟩
    rw [h.squatted_iff, hallocated, Table.find?_set]
    by_cases hn : n' = n
    · simp [hn, (h.held_iff n).1 hheld]
    · simp [hn]
  · rename_i hheld
    have hnot : ¬ t.Allocated n := fun ha ↦ hheld ((h.held_iff n).2 ha)
    refine ⟨h.held_iff, fun n' ↦ ?_⟩
    rw [hallocated, Table.find?_set]
    by_cases hn : n' = n
    · subst hn
      cases v <;> simp [Value.isNil, hnot]
    · cases v <;> simp [Value.isNil, hn, h.squatted_iff]

/-- A ledger stays right when a value is written under any other key. -/
theorem set_of_ne (h : ℓ.Matches t) {k : Key} (hk : ∀ n, k ≠ .integer n) (v : Value) :
    ℓ.Matches (t.set k v) where
  held_iff := h.held_iff
  squatted_iff n := by
    rw [h.squatted_iff, Table.find?_set, if_neg (Ne.symm (hk n))]
    exact .rfl

theorem reference (h : ℓ.Matches t) (hr : t.References) {v : Value} (hv : v ≠ .nil) :
    Matches ⟨insert (t.nextReference : Int) ℓ.held, ℓ.squatted.erase t.nextReference⟩
      (t.reference v) where
  held_iff r := by rw [Finset.mem_insert, h.held_iff, hr.allocated_reference]
  squatted_iff n := by
    rw [Finset.mem_erase, h.squatted_iff, hr.allocated_reference, Table.find?_reference hv]
    by_cases hn : n = t.nextReference
    · simp [hn]
    · simp [hn]

theorem unreference (h : ℓ.Matches t) (r : Int) :
    Matches { ℓ with held := ℓ.held.erase r } (t.unreference r) where
  held_iff r' := by rw [Finset.mem_erase, h.held_iff, Table.allocated_unreference, and_comm]
  squatted_iff n := by
    rw [h.squatted_iff, Table.allocated_unreference]
    by_cases ha : t.Allocated r
    · rw [Table.find?_unreference ha]
      by_cases hn : n = r
      · simp [hn, ha]
      · simp [hn]
    · rw [Table.unreference_of_not_allocated ha]
      by_cases hn : n = r
      · simp [hn, ha]
      · simp [hn]

end Matches

variable {ℓ : Ledger} {table : Nat} {m : Machine} {t : Table}

/-- **One use leaves the ledger right.** -/
theorem Matches.note (h : ℓ.Matches t) (hr : t.References)
    (ht : m.heap.tables.get? table = some t) (use : TableUse) :
    (ℓ.note table m use).Matches (use.on t) := by
  cases use with
  | write k v =>
    simp only [Ledger.note, TableUse.on]
    cases k.key? with
    | none => exact h
    | some key =>
      cases key with
      | integer n => exact h.written n v
      | _ => exact h.set_of_ne (fun n hn ↦ by cases hn) v
  | writePosition n v => exact h.written n v
  | reference v =>
    simp only [Ledger.note, TableUse.on, Machine.reference, ht]
    split
    · exact h
    · rename_i hv
      exact h.reference hr fun e ↦ hv (e ▸ rfl)
  | unreference r => exact h.unreference r

/-- **A ledger that is kept stays right**: the table is there after any number of uses, and what the
ledger says about it is so. -/
theorem Matches.keep (h : ℓ.Matches t) (hr : t.References)
    (ht : m.heap.tables.get? table = some t) (uses : List TableUse) :
    ∃ t', (ℓ.keep table m uses).1.heap.tables.get? table = some t' ∧ t'.References ∧
      (ℓ.keep table m uses).2.Matches t' := by
  induction uses generalizing ℓ m t with
  | nil => exact ⟨t, ht, hr, h⟩
  | cons use uses ih =>
    exact ih (h.note hr ht use) (TableUse.references_on hr use) (TableUse.get?_perform ht use)

end Ledger

/-! ### What a ledger foretells -/

namespace Machine

/-- The entry of a key in a table. -/
def stored? (m : Machine) (table : Nat) (k : Key) : Option Value :=
  (m.heap.tables.get? table).bind (·.entries.find? k)

/-- A value has become the entry of a key, and that is all that has changed. -/
structure Enters (m : Machine) (table : Nat) (k : Key) (v : Value) (m' : Machine) : Prop where
  entry (table' : Nat) (k' : Key) :
    m'.stored? table' k' = if table' = table ∧ k' = k then some v else m.stored? table' k'
  rest : ∃ f : Table → Table, m' = { m with heap := m.heap.modifyTable table f } ∧
    ∀ t, (f t).metatable = t.metatable ∧ (f t).weakValues = t.weakValues

variable {m : Machine} {table : Nat} {t : Table}

/-- A value gets the next reference of the table. -/
theorem enters_reference (ht : m.heap.tables.get? table = some t) {v : Value} (hv : v ≠ .nil) :
    (m.reference table v).1 = t.nextReference ∧
      m.Enters table (.integer t.nextReference) v (m.reference table v).2 := by
  have hnil : ¬ v.isNil = true := by cases v <;> simp_all [Value.isNil]
  have hreference : m.reference table v = ((t.nextReference : Int),
      { m with heap := m.heap.modifyTable table fun t ↦ t.reference v }) := by
    rw [reference, if_neg hnil, ht]
  rw [hreference]
  refine ⟨rfl, fun table' k' ↦ ?_, _, rfl, fun t ↦ ⟨?_, t.weakValues_reference v⟩⟩
  · simp only [stored?, Heap.modifyTable, SlotStore.get?_modify]
    by_cases htable : table = table'
    · subst htable
      simp [ht, Table.find?_reference hv]
    · have hne : table' ≠ table := Ne.symm htable
      simp [htable, hne]
  · rw [Table.reference]
    cases t.freeRefs <;> rfl

theorem unreference_of_not_allocated (ht : m.heap.tables.get? table = some t) {r : Int}
    (hr : ¬ t.Allocated r) : m.unreference table r = m := by
  have hmodify : m.heap.tables.modify table (·.unreference r) = m.heap.tables := by
    refine congrArg (SlotStore.mk · m.heap.tables.free m.heap.tables.count) (Array.ext_getElem? fun i ↦ ?_)
    rw [Array.getElem?_modify]
    split
    · rename_i hi
      subst hi
      rw [(m.heap.tables.get?_eq_some_iff).1 ht, Option.map_some, Option.map_some,
        Table.unreference_of_not_allocated hr]
    · rfl
  rw [unreference, Heap.modifyTable, hmodify]

end Machine

/-- What a ledger foretells about the references of a table. -/
structure Ledger.Foretells (ℓ : Ledger) (m : Machine) (table : Nat) : Prop where
  /-- A value gets a positive reference that is not held, and nothing but the entry of that is
  changed. There was no entry unless the number is squatted. -/
  reference : ∀ v : Value, v ≠ .nil → ∃ (r : Int) (m' : Machine), m.reference table v = (r, m') ∧
    0 < r ∧ r ∉ ℓ.held ∧ (m.stored? table (.integer r) = none ↔ r ∉ ℓ.squatted) ∧
    m.Enters table (.integer r) v m'
  /-- To release what is not held changes nothing, be it released already or never handed out. -/
  unreference : ∀ r : Int, r ∉ ℓ.held → m.unreference table r = m

theorem Ledger.Matches.foretells {ℓ : Ledger} {m : Machine} {table : Nat} {t : Table}
    (h : ℓ.Matches t) (hr : t.References) (ht : m.heap.tables.get? table = some t) :
    ℓ.Foretells m table where
  reference v hv := by
    obtain ⟨hanswer, henters⟩ := Machine.enters_reference ht hv
    have hfresh := t.not_allocated_nextReference
    have hentry : m.stored? table (.integer t.nextReference) =
        t.entries.find? (.integer t.nextReference) := by
      rw [Machine.stored?, ht, Option.bind_some]
    refine ⟨t.nextReference, (m.reference table v).2, Prod.ext hanswer rfl, ?_, ?_, ?_, henters⟩
    · -- The next reference was released, or has never been handed out.
      have hpos := hr.pos
      have hfree := hr.pos_of_mem_free
      rw [Table.nextReference]
      cases hrefs : t.freeRefs with
      | nil => exact_mod_cast hpos
      | cons r rest => exact_mod_cast hfree r (by simp [hrefs])
    · rwa [h.held_iff]
    · rw [h.squatted_iff, hentry]
      simp [hfresh]
  unreference r hnot := Machine.unreference_of_not_allocated ht (mt (h.held_iff r).2 hnot)

/-- **References are kept.** Take any table of a world that is reached, and use it any number of
times. A value gets a reference that is not held, and its entry is new unless a value was written at
that number while it was not held; it is stored there, and no other entry of any table is changed.
Releasing a reference twice, or one that was never handed out, changes nothing. -/
theorem World.Reached.references_kept {w : World} (hw : w.Reached) {table : Nat} {t : Table}
    (ht : w.binding.machine.heap.tables.get? table = some t) (uses : List TableUse) :
    let after := t.ledger.keep table w.binding.machine uses
    after.2.Foretells after.1 table := by
  obtain ⟨t', ht', hr', hmatches⟩ :=
    (Ledger.matches_ledger t).keep (hw.orderly.references table t ht) ht uses
  exact hmatches.foretells hr' ht'

/-- A table has just been made. -/
@[irreducible]
def World.furnished : World :=
  (Session.lobby.run [.act (.table .create)]).world

theorem World.reached_furnished : furnished.Reached := by
  rw [furnished]
  exact .session Session.start_lobby _

/-- The first reference is held, and a value is written where the second one will be. -/
theorem World.references_kept_furnished : ∃ t,
    furnished.binding.machine.heap.tables.get? 10 = some t ∧
      let after := t.ledger.keep 10 furnished.binding.machine
        [.reference (.integer 7), .writePosition 2 (.integer 5)]
      after.2 = { held := {1}, squatted := {2} } ∧ after.2.Foretells after.1 10 := by
  have hledger : (furnished.binding.machine.heap.tables.get? 10).map (fun t ↦
      (t.ledger.keep 10 furnished.binding.machine
        [.reference (.integer 7), .writePosition 2 (.integer 5)]).2) =
      some { held := {1}, squatted := {2} } := by decide +kernel
  obtain ⟨t, ht, hafter⟩ := Option.map_eq_some_iff.1 hledger
  exact ⟨t, ht, hafter, reached_furnished.references_kept ht _⟩

/-- **A reference can overwrite an entry**: one that was written at a number before the number comes
up. -/
theorem Ledger.not_reference_absent :
    ¬ ∀ (w : World) (table : Nat) (uses : List TableUse) (v : Value),
      w.Reached → w.binding.machine.heap.tables.live table = true → v ≠ .nil →
        let m := uses.foldl (TableUse.perform table) w.binding.machine
        m.stored? table (.integer (m.reference table v).1) = none := by
  intro hall
  have habsent := hall .furnished 10 [.writePosition 1 (.integer 5)] (.integer 7)
    World.reached_furnished (by decide +kernel) (by decide)
  exact absurd habsent (by decide +kernel)

end ObjectBridge
