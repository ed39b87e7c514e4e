import ObjectBridge.Proofs.Reached
import ObjectBridge.Proofs.Relating

/-!
# Heaps stay orderly

Nothing that a session does gets the storage of a heap out of order: that heaps stay orderly is a
law (`Exec.ordering`), and so the heap of every world that is reached is orderly
(`World.Reached.orderly`).
-/

namespace ObjectBridge

namespace World

/-- If the heap was orderly before then it is afterwards. -/
def KeepsOrder (w w' : World) : Prop :=
  w.binding.machine.heap.Orderly → w'.binding.machine.heap.Orderly

theorem lawful_keepsOrder : Lawful KeepsOrder where
  trans h h' ho := h' (h ho)
  edits h := h.machine.orderly
  restacked h := by
    obtain ⟨stack, frames, rfl⟩ := h
    exact fun ho ↦ ho
  collected hc _ ho := ho.collect hc
  interrupted hi ho := ho.collect_error hi

end World

/-- **That heaps stay orderly is a law.** -/
def Exec.ordering : Exec.Law :=
  .ofLawful World.lawful_keepsOrder

/-- The heap of a binding is orderly. -/
def Binding.Orderly (b : Binding) : Prop :=
  b.machine.heap.Orderly

theorem Binding.invariant_orderly : Binding.Invariant Binding.Orderly where
  initial {b} h := by
    rw [Orderly, h]
    exact Machine.orderly_initial
  setup {w _ fuel} hw h := by
    have hsetup := Exec.governs_setup (L := Exec.ordering) (Exec.governs_runner fuel) w
    exact hsetup.ok h hw
  entered {w _ nargs _} hw h := (Exec.relates_enter World.lawful_keepsOrder nargs w).ok h hw
  performed {w} hw fuel a :=
    Exec.Ends.world (a.governs_perform (L := Exec.ordering) (Exec.governs_runner fuel) w) hw
  ran {w} hw fuel c := Exec.Ends.world (Exec.governs_runner (L := Exec.ordering) fuel c w) hw

/-- **In every world that is reached the heap is orderly.** -/
theorem World.Reached.orderly {w : World} (h : w.Reached) : w.binding.machine.heap.Orderly :=
  h.invariant Binding.invariant_orderly

end ObjectBridge
