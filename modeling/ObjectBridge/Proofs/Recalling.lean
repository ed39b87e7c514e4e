import ObjectBridge.Members
import ObjectBridge.Proofs.Changes
import ObjectBridge.Proofs.Outcome

/-!
# Finding and remembering userdata

What `Exec.retrieve` and `Exec.pushNew` do to a sound world. Both keep up what the bridge keeps up
(`Exec.Keeps`). The first pushes the userdata that a key remembers if that one fits, and otherwise
leaves the key without an entry (`keeps_retrieve`); the second gives a key without an entry a new
userdata (`keeps_pushNew`).
-/

namespace ObjectBridge

namespace World

/-- The world with one more value on the stack. -/
def pushing (w : World) (v : Value) : World :=
  { w with binding.machine := w.binding.machine.push v }

/-- The value on top of the stack. -/
def top? (w : World) : Option Value :=
  w.binding.machine.stack.back?

/-- The world in which a userdata is taken off the stack again and its key is forgotten. -/
def dismissing (w : World) (k : CacheKey) (e : CacheEntry) : World :=
  World.forgetting { w with binding.machine := w.binding.machine.pop 1 } k e

/-- **A new userdata** with a record is on the stack, the host is as it was, and so are the records of
the others. -/
structure Issues (w : World) (r : Record) (w' : World) (id : Nat) : Prop where
  fresh : w.record? id = none
  record? : ∀ id', w'.record? id' = if id' = id then some r else w.record? id'
  host : w'.host = w.host
  stack : w'.binding.machine.stack = w.binding.machine.stack.push (.userdata id)

variable {R : Realm} {K : Set CacheKey} {w w' : World}

theorem top?_pushing (w : World) (v : Value) : (w.pushing v).top? = some v :=
  Array.back?_push

theorem top?_of_stack {v : Value} (h : w'.binding.machine.stack = w.binding.machine.stack.push v) :
    w'.top? = some v := by
  rw [top?, h]
  exact Array.back?_push

theorem Issues.record {r : Record} {id : Nat} (h : w.Issues r w' id) : w'.record? id = some r :=
  (h.record? id).trans (if_pos rfl)

theorem Issues.top? {r : Record} {id : Nat} (h : w.Issues r w' id) : w'.top? = some (.userdata id) :=
  top?_of_stack h.stack

theorem quiet_pushing (w : World) (v : Value) : w.Quiet (w.pushing v) :=
  Quiet.of_heap rfl rfl

theorem Leads.pushing (h : w.Leads R K w') (v : Value) : w.Leads R K (w'.pushing v) :=
  h.trans (Leads.quiet h.sound (w'.quiet_pushing v))

theorem Quiet.remembers (hq : w.Quiet w') {k : CacheKey} {id : Nat} :
    w'.Remembers k id ↔ w.Remembers k id := by
  rw [Remembers, Remembers, hq.shelf]

end World

namespace Exec

variable {α β : Type} {R : Realm} {K : Set CacheKey} {w : World}

/-- **A computation keeps up what the bridge keeps up**, interrupted or not, and if it yields a value,
value and world afterwards satisfy `Q`. -/
def Keeps (R : Realm) (K : Set CacheKey) (x : Exec α) (Q : α → World → Prop) (w : World) : Prop :=
  Ends x (fun a w' ↦ w.Leads R K w' ∧ Q a w') (fun _ w' ↦ w.Leads R K w') w

variable {x : Exec α} {Q Q' : α → World → Prop}

theorem Keeps.imp (h : Keeps R K x Q w) (hQ : ∀ a w', w.Leads R K w' → Q a w' → Q' a w') :
    Keeps R K x Q' w :=
  Ends.imp h (fun a w' ha ↦ ⟨ha.1, hQ a w' ha.1 ha.2⟩) fun _ _ h ↦ h

/-- A computation may come after a change that the bridge keeps up with. -/
theorem Keeps.after {w₁ : World} (h : w.Leads R K w₁) (hx : Keeps R K x Q w₁) :
    Ends x (fun a w' ↦ w.Leads R K w' ∧ Q a w') (fun _ w' ↦ w.Leads R K w') w₁ :=
  Ends.imp hx (fun _ _ ha ↦ ⟨h.trans ha.1, ha.2⟩) fun _ _ ha ↦ h.trans ha

theorem keeps_push (hw : w.Sound R) (v : Value) :
    Keeps R K (push v) (fun _ w' ↦ w' = w.pushing v) w :=
  ⟨(World.Leads.refl hw).pushing v, rfl⟩

@[simp]
theorem ends_typeMetatable (type : Nat) {Q : Option Nat → World → Prop}
    {E : Interrupt → World → Prop} :
    Ends (typeMetatable type) Q E w ↔
      Q (w.binding.machine.rawGetPosition w.binding.tables.typeMetatables
        (type + 1)).table? w :=
  Iff.rfl

/-! ### Recalling -/

/-- What a key remembers when it has an entry: the userdata of the entry, or none any more. -/
theorem rawGetPosition_reference (hw : w.Sound R) (ref : Int) :
    w.binding.machine.rawGetPosition w.binding.tables.cache ref =
      w.shelfTable.get (.integer ref) := by
  rw [Machine.rawGetPosition, hw.cacheTable.1]

/-- **How a userdata is recalled**: the key has no entry, or it has one whose userdata is gone, or the
userdata is there and is asked whether it fits. -/
theorem ends_retrieve (hw : w.Sound R) {k : CacheKey} {fits : Nat → Exec Bool}
    {Q : Bool → World → Prop} {E : Interrupt → World → Prop}
    (hnone : w.binding.cache.find? k = none → Q false w)
    (hgone : ∀ e, w.binding.cache.find? k = some e → (∀ id, ¬ w.Remembers k id) →
      Q false (w.forgetting k e))
    (hthere : ∀ e, w.binding.cache.find? k = some e → w.Remembers k e.userdata →
      Ends (fits e.userdata)
        (fun ok w' ↦ (ok = true → Q true w') ∧ (ok = false → Q false (w'.dismissing k e))) E
        (w.pushing (.userdata e.userdata))) :
    Ends (retrieve k fits) Q E w := by
  rw [retrieve, ends_bind, ends_binding]
  cases he : w.binding.cache.find? k with
  | none => exact hnone he
  | some e =>
    simp only [ends_bind, pushRemembered, ends_binding, rawGetPosition_reference hw]
    split
    · rename_i hslot
      have hm : w.Remembers k e.userdata := Shelf.Remembers.of_find? he hslot
      simp only [ends_bind, ends_push, ends_pure, if_true]
      rw [hslot]
      refine (hthere e he hm).imp (fun ok w' hok ↦ ?_) fun _ _ h ↦ h
      cases ok with
      | true => exact hok.1 rfl
      | false => exact hok.2 rfl
    · rename_i hlost
      have hnil : w.shelfTable.get (.integer e.reference) = .nil :=
        (hw.shelf.slot he).resolve_right hlost
      simp only [hnil, Value.isNil, if_true, forget, ends_bind, ends_binding, ends_modifyMachine,
        ends_pure, Bool.false_eq_true, if_false, ends_modifyCache]
      refine hgone e he fun id hr ↦ ?_
      obtain ⟨e', he', rfl, hslot⟩ := hr
      obtain rfl := Option.some.inj (he.symm.trans he')
      exact hlost hslot

/-- How a userdata that is remembered turns out not to fit: it was not touched, and its key may be
given to another or it is forsaken, or else it has been discarded. -/
def Unfit (K : Set CacheKey) (k : CacheKey) (id : Nat) (w w' : World) : Prop :=
  (w' = w ∧ (k ∈ K ∨
      (w.binding.registry.WeakAtRoots → k.Faithful w.binding.registry → w.Forsaken id))) ∨
    (w' = { w with binding.machine := w.binding.machine.modifyRecord id Record.discard } ∧
      ∃ r, w.record? id = some r)

/-- A userdata that does not fit is taken off the stack, and its key is forgotten. -/
theorem Unfit.leads (hw : w.Sound R) {k : CacheKey} {e : CacheEntry} {w' : World}
    (hunfit : Unfit K k e.userdata (w.pushing (.userdata e.userdata)) w')
    (he : w.binding.cache.find? k = some e) (hm : w.Remembers k e.userdata) :
    w.Leads R K (w'.dismissing k e) := by
  have hq : w.Quiet { w with
      binding.machine := (w.binding.machine.push (.userdata e.userdata)).pop 1 } :=
    World.Quiet.of_heap rfl rfl
  have hquiet : w.Leads R K _ := World.Leads.quiet hw hq
  rcases hunfit with ⟨rfl, hgone⟩ | ⟨rfl, r, hr⟩
  · refine hquiet.trans (World.Leads.forget hquiet.sound he fun id h ↦ ?_)
    obtain rfl := (hq.remembers.1 h).unique hm
    exact hgone.imp_right fun hf hroots hfaithful ↦ (hf hroots hfaithful).congr rfl rfl
  · refine hquiet.trans (World.Leads.forget_discard hquiet.sound he hr (fun k' hr' _ ↦ ?_)
      fun r ↦ ⟨r.payload, rfl⟩)
    exact hw.shelf.key_unique (hq.remembers.1 hr') hm

/-- **A userdata is recalled if it fits, and otherwise its key is left without an entry.** -/
theorem keeps_retrieve (hw : w.Sound R) {k : CacheKey} (fits : Nat → Exec Bool) {U : Nat → Prop}
    {P : Nat → World → Prop}
    (hfits : ∀ id, w.Remembers k id → Ends (fits id)
      (fun ok w' ↦ (ok = true ∧ (w.pushing (.userdata id)).Leads R K w' ∧ P id w') ∨
        (ok = false ∧ Unfit K k id (w.pushing (.userdata id)) w' ∧ U id))
      (fun _ _ ↦ False) (w.pushing (.userdata id))) :
    Ends (retrieve k fits)
      (fun found w' ↦ w.Leads R K w' ∧
        (found = true ∧ (∃ id, w.Remembers k id ∧ P id w') ∨
          found = false ∧ w'.binding.cache.find? k = none ∧ w'.host = w.host ∧
            ∀ id, w.Remembers k id → U id))
      (fun _ _ ↦ False) w := by
  have herased : (w.binding.cache.erase k).find? k = none := by
    rw [IdentityCache.find?_erase, if_pos rfl]
  refine ends_retrieve hw (fun hnone ↦ ?_) (fun e he hlost ↦ ?_) fun e he hm ↦ ?_
  · refine ⟨World.Leads.refl hw, Or.inr ⟨rfl, hnone, rfl, fun id hr ↦ ?_⟩⟩
    obtain ⟨e, he, -⟩ := hr
    exact absurd (hnone.symm.trans he) (by simp)
  · exact ⟨World.Leads.forget hw he fun id hr ↦ absurd hr (hlost id),
      Or.inr ⟨rfl, herased, rfl, fun id hr ↦ absurd hr (hlost id)⟩⟩
  · refine (hfits e.userdata hm).imp (fun ok w' hok ↦ ?_) fun _ _ h ↦ h
    rcases hok with ⟨rfl, hleads, hp⟩ | ⟨rfl, hunfit, hu⟩
    · exact ⟨fun _ ↦ ⟨(World.Leads.quiet hw (w.quiet_pushing _)).trans hleads,
        Or.inl ⟨rfl, e.userdata, hm, hp⟩⟩, fun h ↦ absurd h (by simp)⟩
    · have hhost : w'.host = w.host := by
        rcases hunfit with ⟨rfl, -⟩ | ⟨rfl, -⟩ <;> rfl
      refine ⟨fun h ↦ absurd h (by simp), fun _ ↦ ⟨hunfit.leads hw he hm,
        Or.inr ⟨rfl, ?_, hhost, fun id hr ↦ by rwa [hr.unique hm]⟩⟩⟩
      show (w'.binding.cache.erase k).find? k = none
      rw [IdentityCache.find?_erase, if_pos rfl]

/-- A userdata that fits whatever it is: it is pushed if it is there, and otherwise the entry of the
key, if there is one, is removed. -/
theorem ends_retrieve_any (hw : w.Sound R) (k : CacheKey) :
    Ends (retrieve k fun _ ↦ return true)
      (fun found w' ↦
        (found = true ∧ ∃ id, w.Remembers k id ∧ w' = w.pushing (.userdata id)) ∨
        (found = false ∧ (∀ id, ¬ w.Remembers k id) ∧
          (w' = w ∧ w.binding.cache.find? k = none ∨
            ∃ e, w.binding.cache.find? k = some e ∧ w' = w.forgetting k e)))
      (fun _ _ ↦ False) w := by
  refine ends_retrieve hw (fun hnone ↦ ?_) (fun e he hlost ↦ ?_) fun e he hm ↦ ?_
  · refine Or.inr ⟨rfl, fun id hr ↦ ?_, Or.inl ⟨rfl, hnone⟩⟩
    obtain ⟨e, he, -⟩ := hr
    exact absurd (hnone.symm.trans he) (by simp)
  · exact Or.inr ⟨rfl, hlost, Or.inr ⟨e, he, rfl⟩⟩
  · exact ⟨fun _ ↦ Or.inl ⟨rfl, e.userdata, hm, rfl⟩, fun h ↦ absurd h (by simp)⟩

/-! ### Remembering -/

/-- Room for an entry is there, or it is a panic, which only the entries of weak objects lead to. -/
theorem ends_makeRoom (k : CacheKey) {Q : Unit → World → Prop} {E : Interrupt → World → Prop}
    (hQ : Q () w) (hE : ∀ text index, k = .weak index → E (.panic text) w) :
    Ends (makeRoom k) Q E w := by
  cases k with
  | weak index => exact ends_reserve _ _ hQ fun text ↦ hE text index rfl
  | borrowed | shared | container | owned => exact hQ

/-- **A userdata is remembered under a key.** What the key remembered before is forgotten, so the
key must be one that may be given away unless it remembers nothing. -/
theorem keeps_enrol (hw : w.Sound R) {k : CacheKey} {id : Nat} {r : Record}
    (hid : w.record? id = some r) (hnew : ∀ k', ¬ w.Remembers k' id)
    (hfits : k.Faithful w.binding.registry → r.Fits w.binding.registry k)
    (hk : ∀ id', w.Remembers k id' → k ∈ K) (howned : ∀ root, k = .owned root → k ∈ K) :
    Ends (enrol k id)
      (fun _ w' ↦ w.Leads R K w' ∧ w'.host = w.host ∧
        w'.binding.machine.stack = w.binding.machine.stack ∧ (∀ id', w'.record? id' = w.record? id') ∧
        ∀ k' id', w'.Remembers k' id' ↔ k' = k ∧ id' = id ∨ k' ≠ k ∧ w.Remembers k' id')
      (fun _ w' ↦ w.Leads R K w' ∧ w'.host = w.host ∧
        w'.binding.machine.stack = w.binding.machine.stack ∧ (∀ id', w'.record? id' = w.record? id') ∧
        (∀ k' id', w'.Remembers k' id' ↔ w.Remembers k' id') ∧ ∃ index, k = .weak index) w := by
  have hstore : w.Leads R K (w.stored k id) := World.Leads.store hw hid hnew hfits hk howned
  simp only [enrol, remember, ends_bind, ends_binding, ends_updateMachine,
    hw.reference_eq id, ends_pure]
  refine ends_makeRoom k ?_ fun _ index hk ↦ ⟨World.Leads.storing hw id, rfl, rfl, fun _ ↦ rfl,
    fun _ _ ↦ hw.remembers_storing, index, hk⟩
  simp only [ends_bind, ends_binding, ends_modifyCache]
  cases hold : w.binding.cache.find? k with
  | none => exact ⟨hstore, rfl, rfl, fun _ ↦ rfl, fun _ _ ↦ hw.remembers_stored⟩
  | some old =>
    have hfree : ∀ k' e, (w.stored k id).binding.cache.find? k' = some e →
        e.reference ≠ old.reference := by
      intro k' e he
      rcases Shelf.find?_store (s := w.binding.shelf) k k' id |>.1 he with ⟨-, rfl⟩ | ⟨hne, he⟩
      · exact fun h ↦ hw.shelf.ne_nextReference hold h.symm
      · exact fun h ↦ hne (hw.shelf.reference_inj he hold h)
    simp only [forget, ends_bind, ends_binding, ends_modifyMachine]
    exact ⟨hstore.trans (World.Leads.release hstore.sound hfree), trivial, rfl, fun _ ↦ rfl,
      fun _ _ ↦ (hstore.sound.remembers_releasing hfree).trans hw.remembers_stored⟩

/-- A record that may be given to a userdata. -/
structure Issuable (w : World) (r : Record) : Prop where
  proper : r.Proper w.binding.registry
  serial_lt : ∀ handle, r.target = .weak handle → handle.serial < w.weakTable.nextSerial

/-- A new userdata is on the stack, and it is remembered nowhere. -/
theorem keeps_pushRecord (hw : w.Sound R) {r : Record} (hr : Issuable w r)
    (metatable : Option Nat) :
    Ends (pushRecord r metatable)
      (fun id w' ↦ w.Leads R K w' ∧ w.Issues r w' id ∧
        ∀ k id', w'.Remembers k id' ↔ w.Remembers k id')
      (fun _ _ ↦ False) w := by
  have hcreate : w.Leads R K (w.withBinding (w.binding.machine.createUserdata
      { content := .record r, metatable := metatable }).2 w.binding.cache) :=
    World.Leads.create hw fun x hx ↦ by
      obtain rfl := Option.some.inj hx
      exact ⟨hr.proper, hr.serial_lt⟩
  simp only [pushRecord, ends_bind, ends_updateMachine, ends_push, ends_pure]
  exact ⟨hcreate.pushing _, ⟨w.binding.machine.record?_newId hw.binding.userdata _,
    w.binding.machine.record?_createUserdata hw.binding.userdata _, rfl, rfl⟩, fun _ _ ↦ Iff.rfl⟩

/-- **A key without an entry is given a new userdata.** The entries of weak objects may find no room. -/
theorem keeps_pushNew (hw : w.Sound R) {k : CacheKey} {r : Record} (hr : Issuable w r)
    (hfits : k.Faithful w.binding.registry → r.Fits w.binding.registry k)
    (hk : ∀ id', w.Remembers k id' → k ∈ K) (howned : ∀ root, k = .owned root → k ∈ K)
    (metatable : Option Nat) :
    Ends (pushNew k r metatable)
      (fun _ w' ↦ w.Leads R K w' ∧ ∃ id, w.Issues r w' id ∧
        ∀ k' id', w'.Remembers k' id' ↔ k' = k ∧ id' = id ∨ k' ≠ k ∧ w.Remembers k' id')
      (fun _ w' ↦ w.Leads R K w' ∧ (∃ id, w.Issues r w' id ∧
        ∀ k' id', w'.Remembers k' id' ↔ w.Remembers k' id') ∧ ∃ index, k = .weak index) w := by
  rw [pushNew, ends_bind]
  refine Ends.imp (keeps_pushRecord (K := K) hw hr metatable) (fun id w₁ hpush ↦ ?_)
    fun _ _ h ↦ h.elim
  obtain ⟨h₁, hissues, hremembers⟩ := hpush
  have hnew : ∀ k', ¬ w₁.Remembers k' id := fun k' h ↦
    hw.not_remembers_of_record?_eq_none hissues.fresh k' ((hremembers k' id).1 h)
  have hfits' : k.Faithful w₁.binding.registry → r.Fits w₁.binding.registry k := by
    rwa [h₁.registry]
  have hgive : ∀ id', w₁.Remembers k id' → k ∈ K := fun id' h ↦ hk id' ((hremembers k id').1 h)
  have hissued : ∀ {w' : World}, w'.host = w₁.host →
      w'.binding.machine.stack = w₁.binding.machine.stack →
      (∀ id', w'.record? id' = w₁.record? id') → w.Issues r w' id := fun hhost hstack hrecord ↦
    ⟨hissues.fresh, fun id' ↦ (hrecord id').trans (hissues.record? id'), hhost.trans hissues.host,
      hstack.trans hissues.stack⟩
  refine (keeps_enrol h₁.sound hissues.record hnew hfits' hgive howned).imp (fun _ w' h ↦ ?_)
    fun _ w' h ↦ ?_
  · obtain ⟨h₂, hhost, hstack, hrecord, hremembers'⟩ := h
    refine ⟨h₁.trans h₂, id, hissued hhost hstack hrecord, fun k' id' ↦ ?_⟩
    rw [hremembers', hremembers]
  · obtain ⟨h₂, hhost, hstack, hrecord, hremembers', hk⟩ := h
    exact ⟨h₁.trans h₂, ⟨id, hissued hhost hstack hrecord, fun k' id' ↦
      (hremembers' k' id').trans (hremembers k' id')⟩, hk⟩

end Exec

end ObjectBridge
