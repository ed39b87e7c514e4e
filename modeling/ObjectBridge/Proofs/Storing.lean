import ObjectBridge.Proofs.Accounting
import ObjectBridge.Proofs.References

/-!
# Values that are stored at global paths

A value that is stored at a global path is taken off the stack before the path is walked, and walking it
can run handlers. What is stored is the value all the same (`Exec.setGlobal_stores`). But while handlers
run, nothing holds the object that the value refers to, and a cycle may remove it; the value that is
stored then refers to an object that is gone, and before long to another one in its place
(`Exec.not_setGlobal_stores`). That is the only way to lose it: as long as the collector counts no
further object of its kind, the object is there.
-/

namespace ObjectBridge

namespace World

/-- The world without the value on top of the frame. -/
def popped (w : World) : World :=
  { w with binding.machine := w.binding.machine.popValue.2 }

/-- The value on top is stored under a text in a table, at the end of a walk that begins without the
value and ends in `w₁`. -/
structure Stores (w w₁ : World) (table key : Nat) (name : String) (w' : World) : Prop where
  entry : w'.binding.machine.heap.rawGetField table name = w.binding.machine.valueAt (-1)
  /-- Nothing but the entry is changed after the walk. -/
  rest : w' = { w₁ with
    binding.machine.heap := w₁.binding.machine.heap.modifyTable table fun t ↦
      t.set (.string key) (w.binding.machine.valueAt (-1)) }
  /-- The walk leaves the stack as it is, which is without the value. -/
  stack : w.Framed → w'.binding.machine.stack = w.popped.binding.machine.stack
  /-- The object is there unless the collector has removed one of its kind meanwhile. -/
  contains {r : Ref} : (w.binding.machine.valueAt (-1)).ref? = some r → w.Contains r →
    w'.removed r = w.removed r → w'.Contains r

end World

theorem StringPool.lookup_intern (p : StringPool) (s : String) :
    (p.intern s).2.lookup s = some (p.intern s).1 := by
  rw [intern]
  split
  · exact ‹_›
  · exact p.index.find?_insert_self s _

/-- What is stored in a table under a text is found there. -/
theorem Heap.rawGetField_modifyTable_set {h : Heap} {table key : Nat} {name : String}
    (hthere : h.tables.live table = true) (hkey : h.strings.lookup name = some key) (v : Value) :
    (h.modifyTable table fun t ↦ t.set (.string key) v).rawGetField table name = v := by
  obtain ⟨t, ht⟩ := h.tables.live_iff.1 hthere
  have hget : (h.modifyTable table fun t ↦ t.set (.string key) v).tables.get? table =
      some (t.set (.string key) v) := by
    rw [modifyTable, SlotStore.get?_modify, if_pos rfl, ht, Option.map_some]
  have hlookup : (h.modifyTable table fun t ↦ t.set (.string key) v).strings.lookup name = some key :=
    hkey
  rw [rawGetField, hlookup]
  dsimp only
  rw [rawGet, hget]
  exact (Table.get_set _ _ _ _).trans (if_pos rfl)

namespace Machine

theorem fst_popValue (m : Machine) : m.popValue.1 = m.valueAt (-1) := by
  have hback : (- (-1) : Int).toNat = 1 := rfl
  have hposition : m.position? (-1) = if m.top = 0 then none else some (m.stack.size - 1) := by
    rw [position?, if_neg (by decide), if_pos (by decide), hback, top]
    split
    · rw [if_neg (by omega)]
    · rw [if_pos (by omega)]
  rw [popValue, valueAt, hposition]
  split
  · rfl
  · rfl

end Machine

namespace Exec

variable {run : Runner} {w w' : World}

/-- The value that a global path leads to before its last name. -/
def parent (run : Runner) : Option String → Exec Value
  | some above => loadGlobal run above *> popValue
  | none => return .table (← machine).globals

/-- Where a global path leads: the value that its last name is a member of, and the name. -/
def destination (run : Runner) (path : String) : Exec (Value × Value) := do
  let obj ← parent run (splitGlobal path).1
  if obj.isNil then fail (.missingGlobal path)
  return (obj, ← intern (splitGlobal path).2)

/-- A value is taken off, the path is walked, and the value is stored where it leads. -/
theorem setGlobal_eq (run : Runner) (path : String) : setGlobal run path = (do
    let v ← popValue
    let (obj, k) ← destination run path
    newIndex run obj k v) := by
  have hmachine (x : Exec Unit) : (machine >>= fun _ ↦ x) = x := rfl
  have hmember (obj v : Value) : (do
      if obj.isNil then fail (.missingGlobal path)
      newIndex run obj (← intern (splitGlobal path).2) v) = (do
        let (obj, k) ← (do
          if obj.isNil then fail (.missingGlobal path)
          return (obj, ← intern (splitGlobal path).2))
        newIndex run obj k v) := by
    split
    · simp only [bind_assoc, pure_bind]
    · simp only [bind_assoc, pure_bind]
  rw [setGlobal]
  refine bind_congr fun v ↦ ?_
  rw [destination]
  dsimp only
  cases (splitGlobal path).1 with
  | some above =>
    simp only [parent, bind_assoc] at hmember ⊢
    rw [hmachine]
    exact bind_congr fun obj ↦ hmember obj v
  | none =>
    simp only [parent, bind_assoc, pure_bind] at hmember ⊢
    exact bind_congr fun m ↦ hmember _ v

/-- The last name of a path has become a string when the walk is over. -/
theorem ends_destination (run : Runner) (path : String) (w : World) :
    Ends (destination run path)
      (fun r w₁ ↦ ∃ key, r.2 = .string key ∧
        w₁.binding.machine.heap.strings.lookup (splitGlobal path).2 = some key)
      (fun _ _ ↦ True) w := by
  have hany {α : Type} (x : Exec α) (w : World) : Ends x (fun _ _ ↦ True) (fun _ _ ↦ True) w :=
    ends_iff.2 ⟨fun _ _ _ ↦ trivial, fun _ _ _ ↦ trivial⟩
  rw [destination, ends_bind]
  refine (hany _ _).imp (fun obj w₁ _ ↦ ?_) fun _ _ h ↦ h
  split
  · trivial
  · exact ⟨_, rfl, StringPool.lookup_intern _ _⟩

theorem balanced_destination (hrun : ∀ c, Disciplined (run c)) (path : String) :
    Balanced (destination run path) := by
  have hparent (above : Option String) : Balanced (parent run above) := by
    cases above with
    | some above =>
      rw [parent, seqRight_eq_bind]
      exact balanced_loadGlobal_popValue hrun above
    | none => exact balanced_machine.bind fun _ ↦ .pure _
  exact (hparent _).bind fun obj ↦ .ite (fun _ ↦ .throw _) fun _ ↦
    (balanced_intern _).bind fun _ ↦ .pure _

/-- A member of a table without a handler for new members is stored in the table. -/
theorem ends_newIndex_table {id : Nat} {k v : Value} {key : Key} (hk : k.key? = some key)
    (hnone : (w.binding.machine.metafield (.table id) "__newindex").isNil = true) :
    Ends (newIndex run (.table id) k v)
      (fun _ w' ↦ w.Contains (.table id) ∧ w' = { w with
        binding.machine.heap := w.binding.machine.heap.modifyTable id fun t ↦ t.set key v })
      (fun _ _ ↦ True) w := by
  have hfuel : maxChain = 1999 + 1 := rfl
  rw [newIndex, hfuel, newIndexFrom, ends_bind, ends_machine]
  dsimp only
  rw [hnone, Bool.true_or, if_pos rfl, ends_bind, rawSet, ends_bind, ends_machine, Machine.rawSet, hk,
    ends_bind]
  split
  · exact ⟨‹_›, rfl⟩
  · trivial

/-- What a global path leads to is found without the value, which is stored there afterwards. -/
theorem ends_setGlobal (run : Runner) (path : String) (w : World) :
    Ends (setGlobal run path)
      (fun _ w' ↦ ∃ obj key w₁, (destination run path).outcome w.popped = (.ok (obj, .string key), w₁) ∧
        w₁.binding.machine.heap.strings.lookup (splitGlobal path).2 = some key ∧
        ∀ table, obj = .table table →
          (w₁.binding.machine.metafield obj "__newindex").isNil = true →
            w₁.Contains (.table table) ∧ w' = { w₁ with
              binding.machine.heap := w₁.binding.machine.heap.modifyTable table fun t ↦
                t.set (.string key) (w.binding.machine.valueAt (-1)) })
      (fun _ _ ↦ True) w := by
  rw [setGlobal_eq, ends_bind, popValue, ends_updateMachine, Machine.fst_popValue, ends_bind]
  refine ends_iff.2 ⟨fun r w₁ hr ↦ ?_, fun _ _ _ ↦ trivial⟩
  obtain ⟨obj, k⟩ := r
  obtain ⟨key, rfl, hkey⟩ := (ends_destination _ _ _).ok hr
  refine ends_iff.2 ⟨fun _ w' hnew ↦ ⟨obj, key, w₁, hr, hkey, ?_⟩, fun _ _ _ ↦ trivial⟩
  rintro table rfl hnone
  exact (ends_newIndex_table rfl hnone).ok hnew

/-- **What is stored is the value that was on top**, whatever handlers do on the way, if the path leads
to a table without a handler for new members. The object that it refers to is still there if the
collector has removed none of its kind meanwhile. -/
theorem setGlobal_stores (fuel : Nat) (path : String) {w w' : World}
    (h : (setGlobal (runner fuel) path).outcome w = (.ok (), w')) :
    ∃ obj key w₁,
      (destination (runner fuel) path).outcome w.popped = (.ok (obj, .string key), w₁) ∧
      ∀ table, obj = .table table →
        (w₁.binding.machine.metafield obj "__newindex").isNil = true →
          w.Stores w₁ table key (splitGlobal path).2 w' := by
  have haccounts : w.Accounts w' :=
    (governs_setGlobal (L := accounting) (governs_runner fuel) path w).ok h
  obtain ⟨obj, key, w₁, hwalk, hkey, hstored⟩ := (ends_setGlobal _ path w).ok h
  refine ⟨obj, key, w₁, hwalk, fun table hobj hnone ↦ ?_⟩
  obtain ⟨hthere, hw'⟩ := hstored table hobj hnone
  constructor
  · rw [hw']
    exact Heap.rawGetField_modifyTable_set hthere hkey _
  · exact hw'
  · intro hw
    have hpopped : w.Returns w.popped := ⟨Machine.keeps_popValue hw.base_le, rfl⟩
    have hbalanced := (balanced_destination (disciplined_runner fuel) path _ (hpopped.framed hw)).ok hwalk
    rw [hw']
    exact hbalanced.stack
  · exact fun _ hr hsame ↦ haccounts.contains hsame hr

end Exec

/-- On the stack is a table that is to be stored at the path `a.b.c`. The global `a` has no member `b`,
and its handler does something and then gives the table that is the global `parent`. -/
@[irreducible]
def World.handled (body : List Action) : World :=
  (Session.lobby.run [.act (.table .create), .act (.table .create), .act (.table .create),
    .act (.call (.setGlobal "parent")),
    .act (.closure (body ++ [.call (.loadGlobal "parent"), .finish (.exactly 1)]) "handler"),
    .act (.table (.rawSetField (.slot 2) "__index" (.slot 3))),
    .act (.table (.setMetatable (.slot 1) (.slot 2))), .act (.stack (.setTop 1)),
    .act (.call (.setGlobal "a")), .act (.table .create)]).world

namespace Exec

/-- A handler may make tables. -/
theorem setGlobal_stores_handled : ∃ key w₁ w',
    (setGlobal (runner 1) "a.b.c").outcome (.handled [.table .create, .table .create]) =
      (.ok (), w') ∧
    (World.handled [.table .create, .table .create]).Stores w₁ 12 key "c" w' ∧
    (World.handled [.table .create, .table .create]).binding.machine.valueAt (-1) = .table 13 ∧
    w'.Contains (.table 13) := by
  let w := World.handled [.table .create, .table .create]
  let w₁ := ((destination (runner 1) "a.b.c").outcome w.popped).2
  let w' := ((setGlobal (runner 1) "a.b.c").outcome w).2
  have hrun : ((destination (runner 1) "a.b.c").outcome w.popped).1 =
        .ok (.table 12, .string 29) ∧
      (w₁.binding.machine.metafield (.table 12) "__newindex").isNil = true ∧
      ((setGlobal (runner 1) "a.b.c").outcome w).1 = .ok () ∧
      w.binding.machine.valueAt (-1) = .table 13 ∧ w.Contains (.table 13) ∧
      w'.removed (.table 13) = w.removed (.table 13) := by decide +kernel
  obtain ⟨hwalk, hnone, hok, hvalue, hthere, hsame⟩ := hrun
  have hout : (setGlobal (runner 1) "a.b.c").outcome w = (.ok (), w') := outcome_eq_of_fst hok
  obtain ⟨obj, key, w₂, hwalk', hstores⟩ := setGlobal_stores 1 "a.b.c" hout
  obtain ⟨hr, rfl⟩ := Prod.mk.inj ((outcome_eq_of_fst hwalk).symm.trans hwalk')
  obtain ⟨rfl, -⟩ := Prod.mk.inj (Except.ok.inj hr)
  have hstored := hstores 12 rfl hnone
  exact ⟨key, w₁, w', hout, hstored, hvalue, hstored.contains (congrArg Value.ref? hvalue) hthere hsame⟩

/-- **What is stored can be gone.** The handler runs a cycle while nothing holds the table that is to be
stored. It is stored all the same, and the next table that is made takes its place. -/
theorem not_setGlobal_stores : ∃ key w₁ w',
    (destination (runner 1) "a.b.c").outcome (World.handled [.collect .collect]).popped =
      (.ok (.table 12, .string key), w₁) ∧
    (w₁.binding.machine.metafield (.table 12) "__newindex").isNil = true ∧
    (setGlobal (runner 1) "a.b.c").outcome (.handled [.collect .collect]) = (.ok (), w') ∧
    (World.handled [.collect .collect]).binding.machine.valueAt (-1) = .table 13 ∧
    (World.handled [.collect .collect]).Contains (.table 13) ∧
    w'.binding.machine.heap.rawGetField 12 "c" = .table 13 ∧
    ¬ w'.Contains (.table 13) ∧ w'.binding.machine.createTable.1 = 13 := by
  let w := World.handled [.collect .collect]
  let w₁ := ((destination (runner 1) "a.b.c").outcome w.popped).2
  let w' := ((setGlobal (runner 1) "a.b.c").outcome w).2
  have hrun : ((destination (runner 1) "a.b.c").outcome w.popped).1 =
        .ok (.table 12, .string 29) ∧
      (w₁.binding.machine.metafield (.table 12) "__newindex").isNil = true ∧
      ((setGlobal (runner 1) "a.b.c").outcome w).1 = .ok () ∧
      w.binding.machine.valueAt (-1) = .table 13 ∧ w.Contains (.table 13) ∧
      w'.binding.machine.heap.rawGetField 12 "c" = .table 13 ∧
      ¬ w'.Contains (.table 13) ∧ w'.binding.machine.createTable.1 = 13 := by decide +kernel
  obtain ⟨hwalk, hnone, hok, hrest⟩ := hrun
  exact ⟨29, w₁, w', outcome_eq_of_fst hwalk, hnone, outcome_eq_of_fst hok, hrest⟩

end Exec

end ObjectBridge
