import ObjectBridge.Proofs.Frames
import ObjectBridge.Proofs.Orderly
import ObjectBridge.Program.Run
import ObjectBridge.Setup

/-!
# Laws that computations keep

Some things are true of whatever the bridge computes, and are shown in the same way: part by part. An
`Exec.Law` is such a thing. It comes with one rule for each way of putting computations together, one
for the changes that computations make (`World.Edits`), and one for each of the things in which laws
differ: calls, cycles of the collector, and what looks at an interruption on its way.

What follows from these rules is shown here once for all laws, and in the modules after this one for
everything that the bridge and its programs do.
-/

namespace ObjectBridge

/-! ### Edits -/

namespace Heap

variable (h : Heap) {r : Ref}

theorem live_intern (s : String) (hr : h.live r = true) : (h.intern s).2.live r = true := by
  cases r with
  | string id =>
    show ((h.strings.intern s).2.text? id).isSome = true
    rw [StringPool.intern]
    split
    · exact hr
    · exact h.strings.texts.live_insert s hr
  | _ => exact hr

theorem live_addTable (t : Table) (hr : h.live r = true) : (h.addTable t).2.live r = true := by
  cases r with
  | table id => exact h.tables.live_insert t hr
  | _ => exact hr

theorem live_addFunction (f : Function) (hr : h.live r = true) :
    (h.addFunction f).2.live r = true := by
  cases r with
  | function id => exact h.functions.live_insert f hr
  | _ => exact hr

theorem live_addUserdata (u : Userdata) (hr : h.live r = true) :
    (h.addUserdata u).2.live r = true := by
  cases r with
  | userdata id => exact h.userdata.live_insert u hr
  | _ => exact hr

@[simp]
theorem live_modifyTable (id : Nat) (f : Table → Table) : (h.modifyTable id f).live r = h.live r := by
  cases r with
  | table id' => exact h.tables.live_modify id id' f
  | _ => rfl

@[simp]
theorem live_modifyUserdata (id : Nat) (f : Userdata → Userdata) :
    (h.modifyUserdata id f).live r = h.live r := by
  cases r with
  | userdata id' => exact h.userdata.live_modify id id' f
  | _ => rfl

end Heap

namespace Machine

/-- An edit of a machine keeps to the current frame, removes no object, and leaves the heap orderly. -/
structure Edits (m m' : Machine) : Prop where
  keeps : m.base ≤ m.stack.size → m.Keeps m'
  live : ∀ r, m.heap.live r = true → m'.heap.live r = true
  tally : m'.tally = m.tally
  orderly : m.heap.Orderly → m'.heap.Orderly

variable {m m' m'' : Machine}

theorem Edits.refl (m : Machine) : m.Edits m :=
  ⟨.refl, fun _ h ↦ h, rfl, fun h ↦ h⟩

theorem Edits.trans (h : m.Edits m') (h' : m'.Edits m'') : m.Edits m'' where
  keeps hm := by
    have hkeeps := h.keeps hm
    exact hkeeps.trans (h'.keeps (hkeeps.base ▸ hkeeps.base_le))
  live r hr := h'.live r (h.live r hr)
  tally := h'.tally.trans h.tally
  orderly ho := h'.orderly (h.orderly ho)

/-- An edit of the heap. -/
theorem Edits.of_live (hf : m'.frames = m.frames) (hs : m'.stack = m.stack)
    (hlive : ∀ r, m.heap.live r = true → m'.heap.live r = true) (ht : m'.tally = m.tally)
    (horderly : m.heap.Orderly → m'.heap.Orderly) : m.Edits m' :=
  ⟨fun hm ↦ .of_stack hm hf hs, hlive, ht, horderly⟩

/-- An edit of the stack. -/
theorem Edits.of_keeps (hkeeps : m.base ≤ m.stack.size → m.Keeps m') (hh : m'.heap = m.heap)
    (ht : m'.tally = m.tally) : m.Edits m' :=
  ⟨hkeeps, fun _ hr ↦ hh ▸ hr, ht, fun ho ↦ hh ▸ ho⟩

variable (m)

theorem edits_push (v : Value) : m.Edits (m.push v) :=
  .of_keeps (keeps_push · v) rfl rfl

theorem edits_pushAll (vs : List Value) : m.Edits (m.pushAll vs) := by
  induction vs generalizing m with
  | nil => exact .refl m
  | cons v vs ih => exact (m.edits_push v).trans (ih (m.push v))

theorem edits_setTop (n : Nat) : m.Edits (m.setTop n) :=
  .of_keeps (keeps_setTop · n) rfl rfl

theorem edits_pop (n : Nat) : m.Edits (m.pop n) :=
  m.edits_setTop _

theorem edits_popValue : m.Edits m.popValue.2 := by
  refine .of_keeps keeps_popValue ?_ ?_
  · rw [popValue]
    split <;> rfl
  · rw [popValue]
    split <;> rfl

theorem edits_remove (idx : Int) : m.Edits (m.remove idx) := by
  refine .of_keeps (keeps_remove · idx) ?_ ?_
  · rw [remove]
    split <;> rfl
  · rw [remove]
    split <;> rfl

theorem edits_replace (idx : Int) (v : Value) : m.Edits (m.replace idx v) := by
  refine .of_keeps (keeps_replace · idx v) ?_ ?_
  · rw [replace]
    split <;> rfl
  · rw [replace]
    split <;> rfl

theorem edits_intern (s : String) : m.Edits (m.intern s).2 :=
  .of_live rfl rfl (fun _ ↦ m.heap.live_intern s) rfl (·.intern s)

theorem edits_pushPlain (p : Plain) : m.Edits (m.pushPlain p) := by
  cases p with
  | text s => exact (m.edits_intern s).trans (edits_push _ _)
  | _ => exact m.edits_push _

theorem edits_createTable : m.Edits m.createTable.2 :=
  .of_live rfl rfl (fun _ ↦ m.heap.live_addTable {}) rfl (·.addTable Table.references_empty)

theorem edits_createFunction (c : Callable) (name : String) :
    m.Edits (m.createFunction c name).2 :=
  .of_live rfl rfl (fun _ ↦ m.heap.live_addFunction ⟨c, name⟩) rfl (·.addFunction _)

theorem edits_createUserdata (u : Userdata) : m.Edits (m.createUserdata u).2 :=
  .of_live rfl rfl (fun _ ↦ m.heap.live_addUserdata u) rfl (·.addUserdata u)

theorem edits_modifyTable (id : Nat) {f : Table → Table}
    (hf : ∀ t, t.References → (f t).References) :
    m.Edits { m with heap := m.heap.modifyTable id f } :=
  .of_live rfl rfl (fun _ hr ↦ (m.heap.live_modifyTable id f).trans hr) rfl (·.modifyTable id hf)

theorem edits_rawSetPosition (table : Nat) (n : Int) (v : Value) :
    m.Edits (m.rawSetPosition table n v) :=
  m.edits_modifyTable table fun _ ht ↦ ht.set _ v

theorem edits_unreference (table : Nat) (r : Int) : m.Edits (m.unreference table r) :=
  m.edits_modifyTable table fun _ ht ↦ ht.unreference r

theorem edits_modifyUserdata (id : Nat) (f : Userdata → Userdata) :
    m.Edits { m with heap := m.heap.modifyUserdata id f } :=
  .of_live rfl rfl (fun _ hr ↦ (m.heap.live_modifyUserdata id f).trans hr) rfl
    (·.modifyUserdata id f)

theorem edits_modifyRecord (id : Nat) (f : Record → Record) : m.Edits (m.modifyRecord id f) :=
  m.edits_modifyUserdata id _

theorem edits_reference (table : Nat) (v : Value) : m.Edits (m.reference table v).2 := by
  rw [reference]
  split
  · exact .refl m
  · split
    · exact m.edits_modifyTable _ fun _ ht ↦ ht.reference v
    · exact .refl m

theorem edits_foldl_unreference (table : Nat) (refs : List Int) :
    m.Edits (refs.foldl (fun m r ↦ m.unreference table r) m) := by
  induction refs generalizing m with
  | nil => exact .refl m
  | cons r refs ih => exact (m.edits_unreference table r).trans (ih (m.unreference table r))

variable {m}

theorem edits_of_rawSet {table : Nat} {k v : Value} (h : m.rawSet table k v = .ok m') :
    m.Edits m' := by
  rw [rawSet] at h
  split at h
  · split at h
    · cases h
      exact m.edits_modifyTable _ fun _ ht ↦ ht.set _ v
    · cases h
  · cases h

theorem edits_of_setMetatable {v : Value} {mt : Option Nat} (h : m.setMetatable v mt = .ok m') :
    m.Edits m' := by
  cases v with
  | table id =>
    simp only [setMetatable] at h
    split at h
    · cases h
      exact m.edits_modifyTable _ fun _ ht ↦
        ⟨ht.nodup_free, ht.pos_of_mem_free, ht.lt_of_mem_free, ht.pos⟩
    · cases h
  | userdata id =>
    simp only [setMetatable] at h
    split at h
    · cases h
      exact m.edits_modifyUserdata _ _
    · cases h
  | word word =>
    cases h
    exact .of_live rfl rfl (fun _ hr ↦ hr) rfl fun ho ↦ ho
  | _ => cases h

end Machine

/-- An edit of a world is one of its machine. It may change whatever lies outside the machine but the
settings. -/
structure World.Edits (w w' : World) : Prop where
  machine : w.binding.machine.Edits w'.binding.machine
  settings : w'.binding.settings = w.binding.settings

theorem World.Edits.refl (w : World) : w.Edits w :=
  ⟨.refl _, rfl⟩

/-- What does not concern the machine is an edit. -/
theorem World.Edits.of_machine {w w' : World} (h : w'.binding.machine = w.binding.machine)
    (hs : w'.binding.settings = w.binding.settings) : w.Edits w' :=
  ⟨h ▸ .refl _, hs⟩

namespace Exec

/-! ### Laws -/

@[simp]
theorem ends_muted {α : Type} (body : Exec α) {Q : α → World → Prop} {E : Interrupt → World → Prop}
    {w : World} : Ends (muted body) Q E w ↔
      Ends body (fun a w' ↦ Q a { w' with desk.reports := w.desk.reports })
        (fun i w' ↦ E i { w' with desk.reports := w.desk.reports }) w := by
  have hrun : (muted body).outcome w =
    ((body.outcome w).1, { (body.outcome w).2 with desk.reports := w.desk.reports }) := rfl
  rw [Ends, Ends, hrun]
  rcases body.outcome w with ⟨i | a, w'⟩ <;> rfl

@[simp]
theorem ends_deeper {α : Type} (body : Exec α) {Q : α → World → Prop}
    {E : Interrupt → World → Prop} {w : World} : Ends (deeper body) Q E w ↔
      Ends body (fun a w' ↦ Q a { w' with desk.depth := w.desk.depth })
        (fun i w' ↦ E i { w' with desk.depth := w.desk.depth })
        { w with desk.depth := w.desk.depth + 1 } := by
  have hrun : (deeper body).outcome w =
    ((body.outcome { w with desk.depth := w.desk.depth + 1 }).1,
      { (body.outcome { w with desk.depth := w.desk.depth + 1 }).2 with
        desk.depth := w.desk.depth }) := rfl
  rw [Ends, Ends, hrun]
  rcases body.outcome _ with ⟨i | a, w'⟩ <;> rfl

/-- **A law for computations**, which governs what is put together from computations that it
governs. -/
structure Law where
  Governs {α : Type} (x : Exec α) : Prop
  bind {α β : Type} {x : Exec α} {f : α → Exec β} :
    Governs x → (∀ a, Governs (f a)) → Governs (x >>= f)
  /-- A computation may look at the world as it begins. -/
  reading {α : Type} {f : World → Exec α} : (∀ w, Governs (f w)) → Governs (get >>= f)
  edit {α : Type} {x : Exec α} :
    (∀ w : World, Ends x (fun _ w' ↦ w.Edits w') (fun _ w' ↦ w.Edits w') w) → Governs x
  attempt {α : Type} {x : Exec α} : Governs x → Governs (attempt x)
  guarded {α : Type} {x : Exec α} : Governs x → Governs (guarded x)
  /-- Something may be done to the host before an interruption goes on. -/
  onInterrupt {α : Type} {x : Exec α} (f : Host → Host) : Governs x →
    Governs (tryCatch x fun i ↦ do modifyHost f; MonadExcept.throw i)
  call {run : Runner} (nargs : Nat) (nresults : Option Nat) :
    (∀ c, Governs (run c)) → Governs (call run nargs nresults)
  tryCall {run : Runner} (nargs : Nat) (nresults : Option Nat) :
    (∀ c, Governs (run c)) → Governs (tryCall run nargs nresults)
  sweep : Governs sweep
  muted {α : Type} {x : Exec α} : Governs x → Governs (muted x)
  deeper {α : Type} {x : Exec α} : Governs x → Governs (deeper x)

variable {L : Law} {α β : Type}

/-! #### Putting computations together -/

namespace Law.Governs

variable {x : Exec α} {f : α → Exec β}

theorem pure (a : α) : L.Governs (pure a : Exec α) :=
  L.edit fun w ↦ .refl w

theorem throw (i : Interrupt) : L.Governs (throw i : Exec α) :=
  L.edit fun w ↦ .refl w

theorem bind (hx : L.Governs x) (hf : ∀ a, L.Governs (f a)) : L.Governs (x >>= f) :=
  L.bind hx hf

theorem reading {g : World → Exec α} (h : ∀ w, L.Governs (g w)) : L.Governs (get >>= g) :=
  L.reading h

theorem attempt (hx : L.Governs x) : L.Governs (Exec.attempt x) :=
  L.attempt hx

theorem guarded (hx : L.Governs x) : L.Governs (Exec.guarded x) :=
  L.guarded hx

theorem map (g : α → β) (hx : L.Governs x) : L.Governs (g <$> x) := by
  rw [← bind_pure_comp]
  exact hx.bind fun _ ↦ pure _

theorem seqRight {y : Exec β} (hx : L.Governs x) (hy : L.Governs y) : L.Governs (x *> y) := by
  rw [seqRight_eq_bind]
  exact hx.bind fun _ ↦ hy

theorem ite {c : Prop} [Decidable c] {y : Exec α} (hx : c → L.Governs x) (hy : ¬c → L.Governs y) :
    L.Governs (if c then x else y) := by
  split
  · exact hx ‹_›
  · exact hy ‹_›

theorem mapM {l : List β} {g : β → Exec α} (h : ∀ b ∈ l, L.Governs (g b)) :
    L.Governs (l.mapM g) := by
  induction l with
  | nil => exact pure _
  | cons b l ih =>
    rw [List.mapM_cons]
    have hl := ih fun c hc ↦ h c (List.mem_cons_of_mem _ hc)
    exact (h b List.mem_cons_self).bind fun _ ↦ hl.bind fun _ ↦ pure _

theorem forM {l : List β} {g : β → Exec Unit} (h : ∀ b ∈ l, L.Governs (g b)) :
    L.Governs (l.forM g) := by
  induction l with
  | nil => exact pure _
  | cons b l ih =>
    show L.Governs (g b >>= fun _ ↦ l.forM g)
    exact (h b List.mem_cons_self).bind fun _ ↦ ih fun c hc ↦ h c (List.mem_cons_of_mem _ hc)

end Law.Governs

/-! #### Primitives -/

theorem governs_modify {f : World → World} (h : ∀ w : World, w.Edits (f w)) :
    L.Governs (modify f : Exec Unit) :=
  L.edit h

theorem governs_modifyMachine {f : Machine → Machine} (h : ∀ m : Machine, m.Edits (f m)) :
    L.Governs (modifyMachine f) :=
  L.edit fun w ↦ ⟨h w.binding.machine, rfl⟩

theorem governs_updateMachine {f : Machine → α × Machine} (h : ∀ m : Machine, m.Edits (f m).2) :
    L.Governs (updateMachine f) :=
  L.edit fun w ↦ ⟨h w.binding.machine, rfl⟩

theorem governs_modifyCache (f : IdentityCache → IdentityCache) : L.Governs (modifyCache f) :=
  L.edit fun _ ↦ .of_machine rfl rfl

theorem governs_modifyHost (f : Host → Host) : L.Governs (modifyHost f) :=
  L.edit fun _ ↦ .of_machine rfl rfl

theorem governs_updateHost (f : Host → α × Host) : L.Governs (updateHost f) :=
  L.edit fun _ ↦ .of_machine rfl rfl

theorem governs_modifyDesk (f : Desk → Desk) : L.Governs (modifyDesk f) :=
  L.edit fun _ ↦ .of_machine rfl rfl

theorem governs_modifyPins (owner : Nat) (f : PinTable → PinTable) :
    L.Governs (modifyPins owner f) :=
  L.edit fun _ ↦ .of_machine rfl rfl

theorem governs_fail (f : Failure) : L.Governs (fail f : Exec α) :=
  .throw _

theorem governs_panic (text : Option String) : L.Governs (panic text : Exec α) :=
  .throw _

theorem governs_reserve (count bytes : Nat) : L.Governs (reserve count bytes) :=
  .ite (fun _ ↦ .pure _) fun _ ↦ governs_panic _

theorem governs_ofExcept (e : Except Failure α) : L.Governs (ofExcept e) := by
  cases e with
  | ok a => exact .pure a
  | error f => exact governs_fail f

theorem governs_binding : L.Governs binding :=
  .reading fun _ ↦ .pure _

theorem governs_machine : L.Governs machine :=
  .reading fun _ ↦ .pure _

theorem governs_registry : L.Governs registry :=
  .reading fun _ ↦ .pure _

theorem governs_host : L.Governs host :=
  .reading fun _ ↦ .pure _

theorem governs_desk : L.Governs desk :=
  .reading fun _ ↦ .pure _

theorem governs_weakTable : L.Governs weakTable :=
  .reading fun _ ↦ .pure _

theorem governs_top : L.Governs top :=
  governs_machine.bind fun _ ↦ .pure _

theorem governs_valueAt (idx : Int) : L.Governs (valueAt idx) :=
  governs_machine.bind fun _ ↦ .pure _

/-- A change of the machine that may fail, and the rest of a computation. -/
theorem governs_replaceMachine {f : Machine → Except Failure Machine}
    (h : ∀ m m', f m = .ok m' → m.Edits m') {rest : Exec α} (hrest : L.Governs rest) :
    L.Governs (do
      let m ← machine
      let m ← ofExcept (f m)
      modifyMachine fun _ ↦ m
      rest) := by
  have hreplace : L.Governs (machine >>= fun m ↦ ofExcept (f m) >>= fun m' ↦
      modifyMachine fun _ ↦ m') := by
    refine L.edit fun w ↦ ?_
    rw [ends_bind, ends_machine, ends_bind]
    cases hf : f w.binding.machine with
    | ok m' => exact ⟨h _ _ hf, rfl⟩
    | error e => exact .refl w
  have hbind := hreplace.bind fun _ ↦ hrest
  simp only [bind_assoc] at hbind
  exact hbind

theorem governs_setTop (n : Nat) : L.Governs (setTop n) := by
  refine L.edit fun w ↦ ?_
  simp only [setTop, resizeStack, ends_bind, ends_machine]
  exact ends_reserve _ _ ⟨w.binding.machine.edits_setTop n, rfl⟩ fun _ ↦ .refl w

theorem governs_push (v : Value) : L.Governs (push v) :=
  governs_modifyMachine (·.edits_push v)

theorem governs_pushAll (vs : List Value) : L.Governs (modifyMachine (·.pushAll vs)) :=
  governs_modifyMachine (·.edits_pushAll vs)

theorem governs_popValue : L.Governs popValue :=
  governs_updateMachine (·.edits_popValue)

theorem governs_intern (s : String) : L.Governs (intern s) :=
  governs_updateMachine (·.edits_intern s)

theorem governs_createTable : L.Governs (updateMachine Machine.createTable) :=
  governs_updateMachine (·.edits_createTable)

theorem governs_createFunction (c : Callable) (name : String) :
    L.Governs (updateMachine (·.createFunction c name)) :=
  governs_updateMachine (·.edits_createFunction c name)

theorem governs_createUserdata (u : Userdata) : L.Governs (updateMachine (·.createUserdata u)) :=
  governs_updateMachine (·.edits_createUserdata u)

theorem governs_pushPlain (p : Plain) : L.Governs (modifyMachine (·.pushPlain p)) :=
  governs_modifyMachine (·.edits_pushPlain p)

theorem governs_pushText (s : String) : L.Governs (pushText s) :=
  governs_pushPlain _

theorem governs_pushScalar (t : ScalarType) (d : Datum) : L.Governs (pushScalar t d) := by
  rw [pushScalar]
  split
  · exact (governs_pushPlain _).bind fun _ ↦ .pure _
  · exact governs_fail _

theorem governs_rawSet (table : Nat) (k v : Value) : L.Governs (rawSet table k v) :=
  governs_replaceMachine (fun _ _ ↦ Machine.edits_of_rawSet) (.pure _)

theorem governs_rawSetField (table : Nat) (name : String) (v : Value) :
    L.Governs (rawSetField table name v) :=
  (governs_intern name).bind fun _ ↦ governs_rawSet _ _ _

end Exec

end ObjectBridge
