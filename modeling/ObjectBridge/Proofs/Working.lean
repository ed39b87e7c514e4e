import ObjectBridge.Proofs.Anchors
import ObjectBridge.Proofs.Outcome
import ObjectBridge.Finalizer
import ObjectBridge.Push

/-!
# What the bridge works on

Pushing an object, casting a value and taking a userdata apart change few things. Of the machine these
are the stack, the userdata, of which none goes, and the weak valued table of the identity cache
(`Machine.Works`); of the host they are what it takes to give a weak object a handle and to destroy
objects. A condition on hosts that these changes keep up (`Host.Upheld`) is kept up by whatever the bridge
does, and all that concerns scripts and pins stays as it is (`Exec.Working`).

Nothing is said about records and entries here, and nothing needs to be known about them.
-/

namespace ObjectBridge

namespace Machine

/-- A change of the machine that only one table takes part in, apart from the stack and the
userdata. -/
structure Works (table : Nat) (m m' : Machine) : Prop where
  registry : m'.registry = m.registry
  strings : m'.heap.strings = m.heap.strings
  functions : m'.heap.functions = m.heap.functions
  tables : ∀ {id}, id ≠ table → m'.heap.tables.get? id = m.heap.tables.get? id
  there : m.heap.tables.live table = true → m'.heap.tables.live table = true
  userdata : ∀ {id}, m.heap.userdata.live id = true → m'.heap.userdata.live id = true

variable {table : Nat} {m m' m'' : Machine}

theorem Works.of_heap (hheap : m'.heap = m.heap) (hregistry : m'.registry = m.registry) :
    m.Works table m' := by
  refine ⟨hregistry, ?_, ?_, fun {_} _ ↦ ?_, fun hid ↦ ?_, fun {_} hid ↦ ?_⟩ <;> rw [hheap] <;> exact hid

theorem Works.trans (h : m.Works table m') (h' : m'.Works table m'') : m.Works table m'' where
  registry := h'.registry.trans h.registry
  strings := h'.strings.trans h.strings
  functions := h'.functions.trans h.functions
  tables hid := (h'.tables hid).trans (h.tables hid)
  there hid := h'.there (h.there hid)
  userdata hid := h'.userdata (h.userdata hid)

/-- A change of one userdata. -/
theorem works_modifyUserdata (m : Machine) (id : Nat) (f : Userdata → Userdata) :
    m.Works table { m with heap := m.heap.modifyUserdata id f } where
  registry := rfl
  strings := rfl
  functions := rfl
  tables _ := rfl
  there hid := hid
  userdata hid := (m.heap.userdata.live_modify id _ f).trans hid

/-- One userdata more. -/
theorem works_createUserdata (m : Machine) (u : Userdata) : m.Works table (m.createUserdata u).2 where
  registry := rfl
  strings := rfl
  functions := rfl
  tables _ := rfl
  there hid := hid
  userdata hid := SlotStore.live_insert _ u hid

/-- A change of the one table. -/
theorem works_modifyTable (m : Machine) (f : Table → Table) :
    m.Works table { m with heap := m.heap.modifyTable table f } where
  registry := rfl
  strings := rfl
  functions := rfl
  tables {id} hid := by
    show (m.heap.tables.modify table f).get? id = _
    rw [SlotStore.get?_modify, if_neg fun heq ↦ hid heq.symm]
  there hid := (m.heap.tables.live_modify table _ f).trans hid
  userdata hid := hid

theorem works_reference (m : Machine) (v : Value) : m.Works table (m.reference table v).2 := by
  rw [reference]
  split
  · exact .of_heap rfl rfl
  · split
    · exact works_modifyTable m _
    · exact .of_heap rfl rfl

end Machine

namespace World

/-- A change of the world that leaves alone what the bridge does not work on. -/
structure Works (w w' : World) : Prop where
  registry : w'.binding.registry = w.binding.registry
  domain : w'.binding.domain = w.binding.domain
  number : w'.binding.number = w.binding.number
  tables : w'.binding.tables = w.binding.tables
  pins : w'.pins = w.pins
  machine : w.binding.machine.Works w.binding.tables.cache w'.binding.machine

variable {w w₁ w' : World}

theorem Works.refl (w : World) : w.Works w :=
  ⟨rfl, rfl, rfl, rfl, rfl, .of_heap rfl rfl⟩

theorem Works.trans (h : w.Works w₁) (h' : w₁.Works w') : w.Works w' where
  registry := h'.registry.trans h.registry
  domain := h'.domain.trans h.domain
  number := h'.number.trans h.number
  tables := h'.tables.trans h.tables
  pins := h'.pins.trans h.pins
  machine := h.machine.trans (h.tables ▸ h'.machine)

end World

namespace Host

/-- A condition on hosts that is kept up by what a binding to the registry `r`, with the number `d`, does
to its host. -/
structure Upheld (r : Registry) (d : Nat) (I : Host → Prop) : Prop where
  acquire : ∀ {h v handle h'}, I h → h.weakHandle? r d v = some (handle, h') → I h'
  detach : ∀ {h} (cell : Address), I h → I (h.detach cell)
  note : ∀ {h} (notes : List Datum), I h → I { h with farewells := notes }
  disown : ∀ {h} (block : Nat), I h → I { h with
    blocks := h.blocks.modify block fun b ↦ { b with owners := b.owners - 1 } }

variable {r : Registry} {d : Nat} {I : Host → Prop}

/-- Such a condition outlasts the destruction of objects. -/
theorem Upheld.lasting (hI : Upheld r d I) : Lasting fun h h' ↦ I h → I h' where
  refl _ hh := hh
  trans h h' hh := h' (h hh)
  detach _ cell := hI.detach cell
  note _ notes := hI.note notes
  disown _ block := hI.disown block

/-- No condition is kept up by everything. -/
theorem upheld_true (r : Registry) (d : Nat) : Upheld r d fun _ ↦ True :=
  ⟨fun _ _ ↦ trivial, fun _ _ ↦ trivial, fun _ _ ↦ trivial, fun _ _ ↦ trivial⟩

end Host

namespace Exec

variable {α β : Type} {r : Registry} {d : Nat} {I : Host → Prop} {x : Exec α} {f : α → Exec β}

/-- **A computation works as the bridge does**, in the worlds of bindings to the registry `r` with the
number `d`: it keeps up a condition on hosts and leaves alone what the bridge does not work on. -/
def Working (r : Registry) (d : Nat) (I : Host → Prop) (x : Exec α) : Prop :=
  ∀ w : World, w.binding.registry = r → w.binding.domain = d → I w.host →
    Ends x (fun _ w' ↦ w.Works w' ∧ I w'.host) (fun _ w' ↦ w.Works w' ∧ I w'.host) w

namespace Working

theorem pure (a : α) : Working r d I (pure a : Exec α) :=
  fun w _ _ hI ↦ ⟨.refl w, hI⟩

theorem throw (i : Interrupt) : Working r d I (throw i : Exec α) :=
  fun w _ _ hI ↦ ⟨.refl w, hI⟩

theorem reading {f : World → Exec β} (hf : ∀ w, Working r d I (f w)) : Working r d I (get >>= f) :=
  fun w ↦ hf w w

theorem bind (hx : Working r d I x) (hf : ∀ a, Working r d I (f a)) : Working r d I (x >>= f) := by
  intro w hr hd hI
  rw [ends_bind]
  refine (hx w hr hd hI).imp (fun a w₁ h ↦ ?_) fun _ _ h ↦ h
  have hnext := hf a w₁ (h.1.registry.trans hr) (h.1.domain.trans hd) h.2
  exact hnext.imp (fun _ _ h' ↦ ⟨h.1.trans h'.1, h'.2⟩) fun _ _ h' ↦ ⟨h.1.trans h'.1, h'.2⟩

theorem ite {c : Prop} [Decidable c] {y : Exec α} (hx : Working r d I x) (hy : Working r d I y) :
    Working r d I (if c then x else y) := by
  split
  · exact hx
  · exact hy

end Working

theorem working_fail (f : Failure) : Working r d I (fail f : Exec α) :=
  .throw _

theorem working_binding : Working r d I binding :=
  .reading fun _ ↦ .pure _

theorem working_machine : Working r d I machine :=
  .reading fun _ ↦ .pure _

theorem working_registry : Working r d I registry :=
  .reading fun _ ↦ .pure _

theorem working_host : Working r d I host :=
  .reading fun _ ↦ .pure _

theorem working_modifyMachine {f : Machine → Machine} (hf : ∀ table (m : Machine), m.Works table (f m)) :
    Working r d I (modifyMachine f) :=
  fun _ _ _ hI ↦ ⟨⟨rfl, rfl, rfl, rfl, rfl, hf _ _⟩, hI⟩

/-- A change of the machine that leaves its heap alone. -/
theorem working_modifyMachine_of_heap {f : Machine → Machine} (hheap : ∀ m, (f m).heap = m.heap)
    (hregistry : ∀ m, (f m).registry = m.registry) : Working r d I (modifyMachine f) :=
  working_modifyMachine fun _ m ↦ .of_heap (hheap m) (hregistry m)

theorem working_modifyRecord (id : Nat) (f : Record → Record) :
    Working r d I (modifyMachine (·.modifyRecord id f)) :=
  working_modifyMachine fun _ m ↦ m.works_modifyUserdata id _

theorem working_modifyCache (f : IdentityCache → IdentityCache) : Working r d I (modifyCache f) :=
  fun _ _ _ hI ↦ ⟨⟨rfl, rfl, rfl, rfl, rfl, .of_heap rfl rfl⟩, hI⟩

theorem working_modifyHost {f : Host → Host} (hf : ∀ h, I h → I (f h)) :
    Working r d I (modifyHost f) :=
  fun _ _ _ hI ↦ ⟨⟨rfl, rfl, rfl, rfl, rfl, .of_heap rfl rfl⟩, hf _ hI⟩

theorem working_push (v : Value) : Working r d I (push v) :=
  working_modifyMachine_of_heap (fun _ ↦ rfl) fun _ ↦ rfl

theorem working_reserve (count bytes : Nat) : Working r d I (reserve count bytes) := by
  rw [reserve]
  split
  · exact .pure _
  · exact .throw _

theorem working_typeMetatable (type : Nat) : Working r d I (typeMetatable type) :=
  working_binding.bind fun _ ↦ .pure _

/-! ### Userdata that are remembered -/

theorem working_pushRecord (record : Record) (metatable : Option Nat) :
    Working r d I (pushRecord record metatable) := by
  refine .bind (fun w _ _ hI ↦ ?_) fun id ↦ (working_push _).bind fun _ ↦ .pure _
  exact ⟨⟨rfl, rfl, rfl, rfl, rfl, w.binding.machine.works_createUserdata _⟩, hI⟩

theorem working_remember (id : Nat) : Working r d I (remember id) := by
  intro w _ _ hI
  simp only [remember, ends_bind, ends_binding, ends_updateMachine, ends_pure]
  exact ⟨⟨rfl, rfl, rfl, rfl, rfl, w.binding.machine.works_reference _⟩, hI⟩

theorem working_forget (e : CacheEntry) : Working r d I (forget e) := by
  intro w _ _ hI
  simp only [forget, ends_bind, ends_binding, ends_modifyMachine]
  exact ⟨⟨rfl, rfl, rfl, rfl, rfl, w.binding.machine.works_modifyTable _⟩, hI⟩

theorem working_pushRemembered (e : CacheEntry) : Working r d I (pushRemembered e) := by
  refine working_binding.bind fun b ↦ .ite ((working_push _).bind fun _ ↦ .pure _) ?_
  split
  · exact (working_forget e).bind fun _ ↦ .pure _
  · exact .pure _

theorem working_dismiss (e : CacheEntry) : Working r d I (dismiss e) := by
  refine .bind (working_modifyMachine_of_heap (fun _ ↦ rfl) fun _ ↦ rfl) fun _ ↦ working_forget e

theorem working_retrieve (k : CacheKey) {fits : Nat → Exec Bool}
    (hfits : ∀ id, Working r d I (fits id)) : Working r d I (retrieve k fits) := by
  have hlost : Working r d I (do modifyCache (·.erase k); return false) :=
    (working_modifyCache _).bind fun _ ↦ .pure _
  refine working_binding.bind fun b ↦ ?_
  split
  · exact .pure _
  · refine (working_pushRemembered _).bind fun found ↦ .ite ((hfits _).bind fun ok ↦ ?_) hlost
    exact .ite (.pure _) ((working_dismiss _).bind fun _ ↦ hlost)

theorem working_makeRoom (k : CacheKey) : Working r d I (makeRoom k) := by
  cases k with
  | weak index => exact working_binding.bind fun _ ↦ working_reserve _ _
  | _ => exact .pure _

theorem working_enrol (k : CacheKey) (id : Nat) : Working r d I (enrol k id) := by
  refine (working_remember id).bind fun e ↦ (working_makeRoom k).bind fun _ ↦
    working_binding.bind fun b ↦ (working_modifyCache _).bind fun _ ↦ ?_
  split
  · exact working_forget _
  · exact .pure _

theorem working_pushNew (k : CacheKey) (record : Record) (metatable : Option Nat) :
    Working r d I (pushNew k record metatable) :=
  (working_pushRecord record metatable).bind fun id ↦ working_enrol k id

/-! ### Views of a userdata -/

theorem working_exportedType (t : TypeKey) : Working r d I (exportedType t) := by
  refine working_registry.bind fun _ ↦ ?_
  split
  · exact .pure _
  · exact (working_host.bind fun _ ↦ .pure _).bind fun _ ↦ working_fail _

theorem working_upgradeView (id type : Nat) (target : Target) :
    Working r d I (upgradeView id type target) := by
  refine working_machine.bind fun _ ↦ ?_
  split
  · refine working_registry.bind fun _ ↦ .ite ((working_typeMetatable type).bind fun metatable ↦
      working_modifyMachine fun _ m ↦ ?_) (.pure _)
    exact (m.works_modifyUserdata id _).trans (Machine.works_modifyUserdata _ id _)
  · exact .pure _

theorem working_reuse (id : Nat) (v : View) : Working r d I (reuse id v) := by
  refine working_registry.bind fun _ ↦ working_machine.bind fun _ ↦ ?_
  split
  · exact .pure _
  · refine .ite (.pure _) (.ite ((working_upgradeView _ _ _).bind fun _ ↦ .pure _) ?_)
    exact (working_modifyRecord _ _).bind fun _ ↦ .pure _

theorem working_rejoin (id : Nat) (h : Handle) (type : Nat) : Working r d I (rejoin id h type) :=
  working_machine.bind fun _ ↦ .ite (.pure _) ((working_upgradeView _ _ _).bind fun _ ↦ .pure _)

theorem working_ownsLike (id block : Nat) : Working r d I (ownsLike id block) := by
  refine working_host.bind fun _ ↦ working_machine.bind fun _ ↦ ?_
  split
  · exact .pure _
  · exact .pure _

section Upheld

variable (hI : Host.Upheld r d I)

include hI

/-- **Giving a weak object a handle** is what a condition on hosts has to outlast. -/
theorem working_weakHandle (v : View) : Working r d I (weakHandle v) := by
  rintro w rfl rfl hw
  simp only [weakHandle, ends_bind, ends_binding, ends_host]
  cases hacquire : w.host.weakHandle? w.binding.registry w.binding.domain v with
  | none => exact ⟨.refl w, hw⟩
  | some result =>
    simp only [ends_bind, ends_modifyHost, ends_pure]
    exact ⟨⟨rfl, rfl, rfl, rfl, rfl, .of_heap rfl rfl⟩, hI.acquire hw hacquire⟩

/-! ### Pushes -/

theorem working_pushWeak (v : View) : Working r d I (pushWeak v) := by
  refine working_binding.bind fun b ↦ (working_weakHandle hI v).bind fun h? ↦ ?_
  split
  · exact working_fail _
  · split
    · exact working_push _
    · refine (working_retrieve _ fun id ↦ working_rejoin id _ _).bind fun _ ↦ .ite (.pure _) ?_
      exact (working_typeMetatable _).bind fun _ ↦ working_pushNew _ _ _

omit hI in
theorem working_pushBorrowed (v : View) (key : Address) : Working r d I (pushBorrowed v key) := by
  refine working_binding.bind fun b ↦ ?_
  split
  · exact working_push _
  · refine (working_retrieve _ fun id ↦ working_reuse id v).bind fun _ ↦ .ite (.pure _) ?_
    exact (working_typeMetatable _).bind fun _ ↦ working_pushNew _ _ _

theorem working_pushView (v : View) : Working r d I (pushView v) :=
  working_registry.bind fun _ ↦ (working_retrieve _ fun _ ↦ .pure _).bind fun _ ↦
    .ite (.pure _) (.ite (working_pushWeak hI v) (working_pushBorrowed v _))

theorem working_pushPointer (a : Option Address) (t : TypeKey) : Working r d I (pushPointer a t) := by
  cases a with
  | none => exact working_push _
  | some a => exact (working_exportedType t).bind fun _ ↦ working_pushView hI _

omit hI in
theorem working_pushOwned (t : TypeKey) (a : Address) : Working r d I (pushOwned t a) :=
  (working_exportedType t).bind fun _ ↦ working_binding.bind fun _ ↦
    (working_typeMetatable _).bind fun _ ↦ (working_pushRecord _ _).bind fun _ ↦
      working_host.bind fun _ ↦ .ite (working_enrol _ _) (.pure _)

omit hI in
theorem working_pushShare (block : Nat) : Working r d I (pushShare block) :=
  working_host.bind fun _ ↦ (working_exportedType _).bind fun _ ↦ working_registry.bind fun _ ↦
    (working_retrieve _ fun id ↦ working_ownsLike id block).bind fun _ ↦ .ite (.pure _)
      ((working_typeMetatable _).bind fun _ ↦ (working_pushNew _ _ _).bind fun _ ↦ .pure _)

omit hI in
theorem working_pushOwnedContainer (kind : ContainerKind) (a : Address) :
    Working r d I (pushOwnedContainer kind a) :=
  working_binding.bind fun _ ↦ working_pushNew _ _ _

omit hI in
theorem working_pushContainer (kind : ContainerKind) (a : Option Address) :
    Working r d I (pushContainer kind a) := by
  cases a with
  | none => exact working_push _
  | some a =>
    exact (working_retrieve _ fun _ ↦ .pure _).bind fun _ ↦ .ite (.pure _)
      (working_binding.bind fun _ ↦ working_pushNew _ _ _)

/-! ### Casts -/

theorem working_castDown (v : Value) (view : View) (target : Nat) (a : Address) :
    Working r d I (castDown v view target a) := by
  refine working_registry.bind fun g ↦ ?_
  split
  · refine .ite ((working_weakHandle hI _).bind fun h? ↦ ?_) ((Working.pure _).bind fun word? ↦ ?_)
    · split
      all_goals
        refine (Working.pure _).bind fun word? ↦ ?_
        cases word? with
        | some word => exact .pure _
        | none => exact working_fail _
    · cases word? with
      | some word => exact .pure _
      | none => exact working_fail _
  · refine .ite ((working_weakHandle hI _).bind fun h? ↦ ?_)
      ((working_upgradeView _ _ _).bind fun _ ↦ .pure _)
    split
    · exact (working_upgradeView _ _ _).bind fun _ ↦ .pure _
    · exact (working_fail _).bind fun _ ↦ .pure _
  · exact working_fail _

/-- A cast towards an object that may not have been found. -/
private theorem working_castFound (g : Registry) (v : Value) (view : View) (target : Nat)
    (a? : Option Address) : Working r d I (match a? with
      | some a => castDown v view target a
      | none => fail (.invalidCast (g.nameOf view.type) (g.nameOf target))) := by
  cases a? with
  | some a => exact working_castDown hI _ _ _ _
  | none => exact working_fail _

theorem working_castValue (v : Value) (target : Nat) : Working r d I (castValue v target) := by
  refine working_registry.bind fun _ ↦ (Working.reading fun _ ↦ .pure _).bind fun resolved ↦ ?_
  split
  · exact .pure _
  · exact .ite (.pure _) (working_fail _)
  · exact .ite (.pure _) (working_machine.bind fun _ ↦ working_host.bind fun _ ↦
      working_castFound hI _ _ _ _ _)

theorem working_cast (idx : Int) (target : Nat) : Working r d I (cast idx target) :=
  (working_machine.bind fun _ ↦ .pure _).bind fun _ ↦ (working_castValue hI _ _).bind fun _ ↦
    working_push _

/-! ### The finalizer of the bridge -/

theorem working_finalizeRecord (id : Nat) (record : Record) :
    Working r d I (finalizeRecord id record) := by
  have hdrop (p : Payload) : Working r d I (modifyHost (·.dropPayload p)) :=
    working_modifyHost fun h ↦ hI.lasting.dropPayload h p
  refine working_binding.bind fun b ↦ (working_modifyRecord _ _).bind fun _ ↦ ?_
  dsimp only
  cases record.payload with
  | some p =>
    split
    · exact (working_modifyCache _).bind fun _ ↦ (working_forget _).bind fun _ ↦ hdrop p
    · exact hdrop p
  | none =>
    split
    · exact (working_modifyCache _).bind fun _ ↦ (working_forget _).bind fun _ ↦ .pure _
    · exact .pure _

theorem working_finalize : Working r d I finalize := by
  refine working_machine.bind fun m ↦ ?_
  dsimp only
  split
  · split
    · exact (working_finalizeRecord hI _ _).bind fun _ ↦ .pure _
    · exact .pure _
  · exact .pure _

end Upheld

end Exec

end ObjectBridge
