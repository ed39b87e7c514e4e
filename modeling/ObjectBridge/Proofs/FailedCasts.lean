import ObjectBridge.Exhibit
import ObjectBridge.Proofs.Casting
import ObjectBridge.Proofs.Outcome
import ObjectBridge.Registry.Plan

/-!
# Casts that fail

A cast that fails leaves the world as it was, with one exception (`Exec.failed_cast_leaves`). A
packed object that is to be seen as a weak type gets its slot in the table of weak objects first, or
has the type recorded there, and only then is its handle packed. If there is no room for the handle
in a word then the cast fails, but the slot stays taken (`World.Strands`): the object has become a
weak one that no script has seen as such (`Exec.not_cast_undone`).

There is no room if the family of the type has no slot of packed words, since others took them all,
or if the slot of the object is beyond the largest index that a word can hold. A userdata has room
for any handle, so what is in a userdata is not concerned.
-/

namespace ObjectBridge

namespace World

/-- **A cast strands an object**: the object of a packed word gets a slot as the target, or has its
slot record that, and then has no room in a word. Nothing else is changed. -/
inductive Strands (w : World) (x : Value) (target : Nat) : World → Prop
  | strands {word : UInt64} {v : View} {a : Address} {handle : Handle} {h : Host}
      (packed : x = .word word) (live : w.resolve x = .live v)
      (other : w.binding.registry.isBaseOf target v.type = false)
      (down : w.binding.registry.toDerived? w.host.memory v target = some a)
      (weak : w.binding.registry.isWeak target = true)
      (acquired : w.host.weakHandle? w.binding.registry w.binding.domain ⟨a, target⟩ =
        some (handle, h))
      (noRoom : w.binding.registry.packWeak? handle target = none) :
      Strands w x target { w with host := h }

end World

namespace Exec

variable {w : World}

/-- Switching a userdata to another view does not fail. -/
theorem ends_upgradeView_ok (id type : Nat) (target : Target) :
    Ends (upgradeView id type target) (fun _ _ ↦ True) (fun _ _ ↦ False) w := by
  simp only [upgradeView, ends_bind, ends_machine]
  cases (w.binding.machine.record? id).bind Record.type? with
  | none => trivial
  | some shown =>
    simp only [ends_bind, ends_registry]
    split
    · trivial
    · trivial

/-- A cast of an object that has been found fails only where there is no room for it in a word. -/
theorem ends_castDown_fails {x : Value} {v : View} {target : Nat} {a : Address}
    (hlive : w.resolve x = .live v) (hother : w.binding.registry.isBaseOf target v.type = false)
    (hdown : w.binding.registry.toDerived? w.host.memory v target = some a) :
    Ends (castDown x v target a) (fun _ _ ↦ True)
      (fun i w' ↦ i = .failure (.invalidCast (w.binding.registry.nameOf v.type)
        (w.binding.registry.nameOf target)) ∧ (w' = w ∨ w.Strands x target w')) w := by
  cases x with
  | word word =>
    simp only [castDown, ends_bind, ends_registry]
    cases hweak : w.binding.registry.isWeak target with
    | false =>
      simp only [Bool.false_eq_true, if_false]
      cases w.binding.registry.packPointer? ⟨a, target⟩ with
      | none => exact ⟨rfl, .inl rfl⟩
      | some packed => trivial
    | true =>
      simp only [if_true, ends_bind, ends_weakHandle_iff]
      cases hacquired : w.host.weakHandle? w.binding.registry w.binding.domain ⟨a, target⟩ with
      | none => exact ⟨rfl, .inl rfl⟩
      | some acquired =>
        obtain ⟨handle, h⟩ := acquired
        simp only
        cases hroom : w.binding.registry.packWeak? handle target with
        | none => exact ⟨rfl, .inr (.strands rfl hlive hother hdown hweak hacquired hroom)⟩
        | some packed => trivial
  | userdata id =>
    simp only [castDown, ends_bind, ends_registry]
    have hswitch (t : Target) (w₁ : World) : Ends (upgradeView id target t)
        (fun _ _ ↦ True) (fun i w' ↦ i = .failure (.invalidCast (w.binding.registry.nameOf v.type)
          (w.binding.registry.nameOf target)) ∧ (w' = w ∨ w.Strands (.userdata id) target w')) w₁ :=
      (ends_upgradeView_ok id target t).imp (fun _ _ h ↦ h) fun _ _ h ↦ h.elim
    cases w.binding.registry.isWeak target with
    | false =>
      simp only [Bool.false_eq_true, if_false, ends_bind]
      exact (hswitch _ w).imp (fun _ _ _ ↦ trivial) fun _ _ h ↦ h
    | true =>
      simp only [if_true, ends_bind, ends_weakHandle_iff]
      cases w.host.weakHandle? w.binding.registry w.binding.domain ⟨a, target⟩ with
      | none => exact ⟨rfl, .inl rfl⟩
      | some acquired => exact (hswitch _ _).imp (fun _ _ _ ↦ trivial) fun _ _ h ↦ h
  | nil | boolean | integer | number | string | table | function =>
    exact absurd hlive (by simp [World.resolve])

/-- A cast fails as an invalid cast, and what it leaves is the world as it was, or a stranded
object. -/
theorem ends_castValue_fails (x : Value) (target : Nat) :
    Ends (castValue x target) (fun _ _ ↦ True)
      (fun i w' ↦ (∃ shown, i = .failure (.invalidCast shown (w.binding.registry.nameOf target))) ∧
        (w' = w ∨ w.Strands x target w')) w := by
  refine ends_castValue_cases (fun _ ↦ trivial) (fun _ ↦ ⟨⟨_, rfl⟩, .inl rfl⟩) (fun _ _ _ ↦ trivial)
    (fun v a hlive _ hother hdown ↦ ?_) fun _ _ _ _ ↦ ⟨⟨_, rfl⟩, .inl rfl⟩
  exact (ends_castDown_fails hlive hother hdown).imp (fun _ _ h ↦ h) fun i w' h ↦ ⟨⟨_, h.1⟩, h.2⟩

/-- The cast that strands an object fails. -/
theorem castValue_of_strands {x : Value} {target : Nat} {w' : World} (h : w.Strands x target w') :
    ∃ shown, (castValue x target).outcome w =
      (.error (.failure (.invalidCast shown (w.binding.registry.nameOf target))), w') := by
  obtain ⟨packed, live, other, down, weak, acquired, noRoom⟩ := h
  rename_i word v a handle h
  have hfails : Ends (castValue x target) (fun _ _ ↦ False) (fun i w' ↦
      i = .failure (.invalidCast (w.binding.registry.nameOf v.type)
        (w.binding.registry.nameOf target)) ∧ w' = { w with host := h }) w := by
    subst packed
    simp [castValue, castDown, ends_resolve, ends_weakHandle_iff, Value.userdata?, live, other,
      down, weak, acquired, noRoom]
  refine ⟨w.binding.registry.nameOf v.type, ?_⟩
  rcases hx : (castValue x target).outcome w with ⟨i | r, w'⟩
  · obtain ⟨rfl, rfl⟩ := hfails.error hx
    rfl
  · exact (hfails.ok hx).elim

/-- **What a failed cast leaves**: the world as it was, or else a stranded object. Every cast that
strands an object does fail. -/
theorem failed_cast_leaves (w : World) (idx : Int) (target : Nat) :
    (∀ i w', (cast idx target).outcome w = (.error i, w') →
      (∃ shown, i = .failure (.invalidCast shown (w.binding.registry.nameOf target))) ∧
        (w' = w ∨ w.Strands (w.binding.machine.valueAt idx) target w')) ∧
    ∀ w', w.Strands (w.binding.machine.valueAt idx) target w' →
      ∃ shown, (cast idx target).outcome w =
        (.error (.failure (.invalidCast shown (w.binding.registry.nameOf target))), w') := by
  constructor
  · intro i w' hfails
    have hcast : Ends (cast idx target) (fun _ _ ↦ True) (fun i w' ↦
        (∃ shown, i = .failure (.invalidCast shown (w.binding.registry.nameOf target))) ∧
          (w' = w ∨ w.Strands (w.binding.machine.valueAt idx) target w')) w := by
      simp only [cast, ends_bind, ends_valueAt]
      exact (ends_castValue_fails _ target).imp (fun _ _ _ ↦ trivial) fun _ _ h ↦ h
    exact hcast.error hfails
  · intro w' hstrands
    obtain ⟨shown, hvalue⟩ := castValue_of_strands hstrands
    refine ⟨shown, ?_⟩
    have hcast : Ends (cast idx target) (fun _ _ ↦ False) (fun i w'' ↦
        i = .failure (.invalidCast shown (w.binding.registry.nameOf target)) ∧ w'' = w') w := by
      simp only [cast, ends_bind, ends_valueAt]
      rw [Ends, hvalue]
      exact ⟨rfl, rfl⟩
    rcases hx : (cast idx target).outcome w with ⟨i | r, w''⟩
    · obtain ⟨rfl, rfl⟩ := hcast.error hx
      rfl
    · exact (hcast.ok hx).elim

end Exec

/-! ### An object that is stranded -/

/-- A type that is not weak, and a weak type that derives from it. -/
def Catalogue.haunted : Catalogue where
  types := #[{ name := "Base" },
    { name := "Ghost", base := some ⟨0, 0⟩, size := 16, anchor := some 8 }]
  bases_first := by decide

/-- Both types are exported, at the end of a registration in which other types took all slots of
packed words but one: the weak type gets none. -/
def Registry.crowded : Registry :=
  let b := (Builder.runPlan .haunted [.create 0, .create 1]).1
  let taken : Builder.Slots := { owners := .replicate 254 (.declared 2) }
  let (b, s) := (List.range b.types.size).foldl Builder.settle (b, taken)
  { types := b.types, byKey := b.byKey, byName := b.byName, lightSlots := s.owners }

/-- The address of an object of the weak type has been pushed as a packed word of its base. -/
@[irreducible]
def World.crowded : World :=
  let (a, host) := ({ catalogue := .haunted, weakTables := #[some {}] } : Host).create 1 []
  let word := (Registry.crowded.packPointer? ⟨a, 0⟩).getD 0
  { host := host
    binding := { registry := .crowded, machine := Machine.initial.push (.word word) } }

namespace Exec

/-- There is no room for the object as the weak type. -/
theorem cast_crowded : ((cast (-1) 1).outcome .crowded).1 =
    .error (.failure (.invalidCast "Base" "Ghost")) := by
  decide +kernel

/-- The object has a slot in the table of weak objects now. -/
theorem slots_cast_crowded :
    (World.crowded.weakTable.slots.size, ((cast (-1) 1).outcome .crowded).2.weakTable.slots.size) =
      (0, 1) := by
  decide +kernel

/-- The object of a word is stranded where no slot of packed words is left for the weak type. -/
theorem failed_cast_leaves_crowded :
    ∃ w', (cast (-1) 1).outcome .crowded =
        (.error (.failure (.invalidCast "Base" "Ghost")), w') ∧
      World.crowded.Strands (World.crowded.binding.machine.valueAt (-1)) 1 w' := by
  have hcast := outcome_eq_of_fst cast_crowded
  refine ⟨_, hcast, ?_⟩
  obtain hsame | hstrands := ((failed_cast_leaves .crowded (-1) 1).1 _ _ hcast).2
  · have hslots := slots_cast_crowded
    rw [hsame, Prod.mk.injEq] at hslots
    exact absurd (hslots.1.symm.trans hslots.2) (by decide)
  · exact hstrands

/-- **A failed cast can change the table of weak objects.** -/
theorem not_cast_undone : ¬ ∀ (w : World) (idx : Int) (target : Nat) (i : Interrupt) (w' : World),
    (cast idx target).outcome w = (.error i, w') → w'.weakTable.slots = w.weakTable.slots := by
  intro hall
  have hsame := hall .crowded (-1) 1 _ _ (outcome_eq_of_fst cast_crowded)
  have hslots := slots_cast_crowded
  rw [hsame, Prod.mk.injEq] at hslots
  exact absurd (hslots.1.symm.trans hslots.2) (by decide)

end Exec

end ObjectBridge
