import ObjectBridge.Proofs.Relating

/-!
# Losses are counted

The collector counts what it removes, and nothing else removes objects. So as long as the count of a
kind of objects stays where it is, all objects of this kind that are there stay there, whatever
programs do meanwhile: this is a law, `Exec.accounting`.
-/

namespace ObjectBridge

namespace Tally

/-- How many objects of the kind of a reference have been removed. -/
def removed (t : Tally) : Ref → Nat
  | .string _ => t.strings
  | .table _ => t.tables
  | .function _ => t.functions
  | .userdata _ => t.userdata

theorem removed_add (a b : Tally) (r : Ref) : (a.add b).removed r = a.removed r + b.removed r := by
  cases r <;> rfl

end Tally

namespace Heap

variable {h : Heap} {roots : List Value} {r : Ref}

/-- A cycle removes no object of a kind of which it counts none. -/
theorem live_of_collect {c : Collection} (hc : h.collect roots = .ok c) (hr : h.live r = true)
    (hnone : c.tally.removed r = 0) : c.heap.live r = true := by
  rw [collect] at hc
  dsimp only at hc
  split at hc
  · cases hc
  · rename_i m hm
    split at hc
    · cases hc
    · split at hc
      · cases hc
      · rename_i kept hkept
        obtain rfl := Except.ok.inj hc
        rw [← live_flagFinalized_clearWeak m h.tables.capacity (h.dueFinalizers m)] at hr
        cases r with
        | string id | table id | function id | userdata id =>
          have hdead := List.eq_nil_of_length_eq_zero hnone
          rw [sweep, live, hdead]
          exact hr

/-- A cycle that ends at a stray reference removes nothing. -/
theorem live_of_collect_error {i : Interruption} (hi : h.collect roots = .error i)
    (hr : h.live r = true) : i.heap.live r = true := by
  rw [collect] at hi
  dsimp only at hi
  split at hi
  · obtain rfl := Except.error.inj hi
    exact hr
  · split at hi
    · obtain rfl := Except.error.inj hi
      exact (live_flagFinalized_clearWeak _ _ []).trans hr
    · split at hi
      · obtain rfl := Except.error.inj hi
        exact (live_flagFinalized_clearWeak _ _ _).trans hr
      · cases hi

end Heap

namespace World

/-- An object is there. -/
def Contains (w : World) (r : Ref) : Prop :=
  w.binding.machine.heap.live r = true

instance (w : World) (r : Ref) : Decidable (w.Contains r) :=
  inferInstanceAs (Decidable (_ = true))

/-- How many objects of the kind of a reference the collector has removed. -/
def removed (w : World) (r : Ref) : Nat :=
  w.binding.machine.tally.removed r

/-- **Losses are counted**: the counts do not go back, and of a kind of which nothing more is
counted nothing is lost. -/
structure Accounts (w w' : World) : Prop where
  removed_le (r : Ref) : w.removed r ≤ w'.removed r
  contains {r : Ref} : w'.removed r = w.removed r → w.Contains r → w'.Contains r

variable {w w' w'' : World}

theorem Accounts.trans (h : w.Accounts w') (h' : w'.Accounts w'') : w.Accounts w'' where
  removed_le r := Nat.le_trans (h.removed_le r) (h'.removed_le r)
  contains {r} hr hw := by
    -- The count in between lies between two that are the same.
    have hle := h.removed_le r
    have hle' := h'.removed_le r
    exact h'.contains (by omega) (h.contains (by omega) hw)

/-- What neither removes nor counts. -/
theorem Accounts.of_tally (ht : w'.binding.machine.tally = w.binding.machine.tally)
    (h : ∀ r, w.Contains r → w'.Contains r) : w.Accounts w' where
  removed_le r := Nat.le_of_eq (congrArg (·.removed r) ht).symm
  contains {r} _ hr := h r hr

theorem Edits.accounts (h : w.Edits w') : w.Accounts w' :=
  .of_tally h.machine.tally h.machine.live

theorem Restacked.accounts (h : w.Restacked w') : w.Accounts w' := by
  obtain ⟨stack, frames, rfl⟩ := h
  exact .of_tally rfl fun _ hr ↦ hr

/-- A cycle counts what it removes, and one that ends at a stray reference removes nothing. -/
theorem lawful_accounts : Lawful Accounts where
  trans := .trans
  edits h := h.accounts
  restacked h := h.accounts
  collected {w c} hc host := by
    constructor
    · intro r
      show _ ≤ (Tally.add _ _).removed r
      rw [Tally.removed_add]
      exact Nat.le_add_right ..
    · intro r hsame
      have hsum : (Tally.add _ _).removed r = _ := hsame
      rw [Tally.removed_add] at hsum
      exact fun hr ↦ Heap.live_of_collect hc hr (Nat.add_eq_left.1 hsum)
  interrupted hi := .of_tally rfl fun _ ↦ Heap.live_of_collect_error hi

end World

namespace Exec

/-- A computation counts its losses. -/
def Counting {α : Type} (x : Exec α) : Prop :=
  ∀ w : World, Ends x (fun _ w' ↦ w.Accounts w') (fun _ w' ↦ w.Accounts w') w

/-- **That losses are counted is a law.** -/
def accounting : Law where
  __ := Law.ofLawful World.lawful_accounts
  Governs := Counting

end Exec

end ObjectBridge
