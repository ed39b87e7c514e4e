import ObjectBridge.Proofs.Moves
import ObjectBridge.Proofs.Settling

/-!
# Identity caches stay tidy

An entry of the identity cache is that of a userdata that has not been finalized (`World.Tidy`), and
what the bridge does keeps it so. Whatever it does it makes one new entry at most, and that last: up to
there entries are only lost, while userdata stay and are not finalized (`Exec.Culling`), and the new
entry is that of a new userdata (`Exec.Tending`). Records keep their keys meanwhile, as far as keys are
faithful (`Record.Ages`).

Cycles of the collector are another matter: they finalize userdata, and the finalizers make up for it
(`World.Round.tidy`).
-/

namespace ObjectBridge

namespace World

variable {R : Realm} {K : Set CacheKey} {w w₁ w' : World} {k : CacheKey} {id : Nat}

/-- Entries of the identity cache are gone, if anything, and userdata are there, finalized only if they
were. -/
structure Culls (w w' : World) : Prop where
  registry : w'.binding.registry = w.binding.registry
  store : w'.binding.machine.heap.userdata.Sound
  userdata : ∀ {id u}, w.binding.machine.heap.userdata.get? id = some u →
    ∃ u', w'.binding.machine.heap.userdata.get? id = some u' ∧ u'.finalized = u.finalized
  entries : ∀ {k e}, w'.binding.cache.find? k = some e → w.binding.cache.find? k = some e

/-- **Entries of the identity cache that are new are those of userdata with records of their keys.** -/
structure Tends (w w' : World) : Prop where
  registry : w'.binding.registry = w.binding.registry
  userdata : ∀ {id u}, w.binding.machine.heap.userdata.get? id = some u →
    ∃ u', w'.binding.machine.heap.userdata.get? id = some u' ∧ u'.finalized = u.finalized
  entries : ∀ {k e}, k.Faithful w'.binding.registry → w'.binding.cache.find? k = some e →
    w.binding.cache.find? k = some e ∨ w'.Bears k e.userdata

theorem Culls.refl (hw : w.binding.machine.heap.userdata.Sound) : w.Culls w :=
  ⟨rfl, hw, fun {_ u} hu ↦ ⟨u, hu, rfl⟩, fun h ↦ h⟩

theorem Culls.trans (h : w.Culls w₁) (h' : w₁.Culls w') : w.Culls w' where
  registry := h'.registry.trans h.registry
  store := h'.store
  userdata hu := by
    obtain ⟨u₁, hu₁, hflag⟩ := h.userdata hu
    obtain ⟨u', hu', hflag'⟩ := h'.userdata hu₁
    exact ⟨u', hu', hflag'.trans hflag⟩
  entries he := h.entries (h'.entries he)

theorem Culls.tends (h : w.Culls w') : w.Tends w' :=
  ⟨h.registry, h.userdata, fun _ he ↦ Or.inl (h.entries he)⟩

theorem Tends.after (h' : w₁.Tends w') (h : w.Culls w₁) : w.Tends w' where
  registry := h'.registry.trans h.registry
  userdata hu := by
    obtain ⟨u₁, hu₁, hflag⟩ := h.userdata hu
    obtain ⟨u', hu', hflag'⟩ := h'.userdata hu₁
    exact ⟨u', hu', hflag'.trans hflag⟩
  entries hf he := (h'.entries hf he).imp_left h.entries

/-- A key is given to a userdata with a record of it. -/
theorem Tends.of_entry (hregistry : w'.binding.registry = w.binding.registry)
    (huserdata : w'.binding.machine.heap.userdata = w.binding.machine.heap.userdata)
    (hentries : ∀ {k' e}, w'.binding.cache.find? k' = some e →
      w.binding.cache.find? k' = some e ∨ k' = k ∧ e.userdata = id)
    (hid : k.Faithful w.binding.registry → w.Bears k id) : w.Tends w' where
  registry := hregistry
  userdata {_ u} hu := ⟨u, huserdata ▸ hu, rfl⟩
  entries {k' e} hf he := by
    refine (hentries he).imp_right ?_
    rintro ⟨rfl, rfl⟩
    rw [Bears, huserdata, hregistry]
    exact hid (hregistry ▸ hf)

/-- The userdata of the entries that are left keep their records of the keys. -/
theorem Tidy.tends (htidy : w.Tidy) (hl : ∀ {id r}, w.record? id = some r →
      w'.binding.machine.heap.userdata.live id = true →
        ∃ r', w'.record? id = some r' ∧ r.Ages w.binding.registry r')
    (h : w.Tends w') : w'.Tidy := by
  intro k e hf he
  refine (h.entries hf he).elim (fun hold ↦ ?_) fun hnew ↦ hnew
  rw [h.registry] at hf
  obtain ⟨u, r, hu, hflag, hr, hk⟩ := htidy k e hf hold
  obtain ⟨u', hu', hflag'⟩ := h.userdata hu
  obtain ⟨r', hr', hages⟩ := hl (Option.bind_eq_some_iff.2 ⟨u, hu, hr⟩)
    ((SlotStore.live_iff _).2 ⟨u', hu'⟩)
  obtain ⟨u'', hu'', hr'⟩ := Option.bind_eq_some_iff.1 hr'
  obtain rfl := Option.some.inj (hu'.symm.trans hu'')
  exact ⟨u', r', hu', hflag'.trans hflag, hr', h.registry ▸ hages.cacheKey hf hk⟩

end World

namespace Exec

variable {α β : Type} {x : Exec α} {f : α → Exec β} {g : Registry} {w : World}

/-! ### Computations that make no entries -/

/-- A computation makes no entries, and finalizes nothing. -/
def Culling (x : Exec α) : Prop :=
  ∀ w : World, w.binding.machine.heap.userdata.Sound →
    Ends x (fun _ w' ↦ w.Culls w') (fun _ w' ↦ w.Culls w') w

namespace Culling

theorem pure (a : α) : Culling (pure a : Exec α) :=
  fun _ hw ↦ .refl hw

theorem throw (i : Interrupt) : Culling (throw i : Exec α) :=
  fun _ hw ↦ .refl hw

theorem reading {f : World → Exec β} (hf : ∀ w, Culling (f w)) : Culling (get >>= f) :=
  fun w hw ↦ hf w w hw

theorem bind (hx : Culling x) (hf : ∀ a, Culling (f a)) : Culling (x >>= f) := by
  intro w hw
  rw [ends_bind]
  exact (hx w hw).imp (fun a w₁ h ↦ (hf a w₁ h.store).imp (fun _ _ h' ↦ h.trans h') fun _ _ h' ↦
    h.trans h') fun _ _ h ↦ h

theorem ite {c : Prop} [Decidable c] {y : Exec α} (hx : Culling x) (hy : Culling y) :
    Culling (if c then x else y) := by
  split
  · exact hx
  · exact hy

end Culling

theorem culling_modifyMachine {f : Machine → Machine}
    (hf : ∀ m : Machine, m.heap.userdata.Sound → (f m).heap.userdata.Sound ∧
      ∀ {id u}, m.heap.userdata.get? id = some u →
        ∃ u', (f m).heap.userdata.get? id = some u' ∧ u'.finalized = u.finalized) :
    Culling (modifyMachine f) := fun w hw ↦
  have h := hf w.binding.machine hw
  ⟨rfl, h.1, fun hu ↦ h.2 hu, fun he ↦ he⟩

/-- A change of the machine that leaves the userdata alone. -/
theorem culling_modifyMachine_of_userdata {f : Machine → Machine}
    (hf : ∀ m : Machine, (f m).heap.userdata = m.heap.userdata) : Culling (modifyMachine f) :=
  culling_modifyMachine fun m hm ↦ by
    rw [hf]
    exact ⟨hm, fun {_ u} hu ↦ ⟨u, hu, rfl⟩⟩

theorem culling_push (v : Value) : Culling (push v) :=
  culling_modifyMachine_of_userdata fun _ ↦ rfl

theorem culling_modifyHost (f : Host → Host) : Culling (modifyHost f) :=
  fun _ hw ↦ ⟨rfl, hw, fun {_ u} hu ↦ ⟨u, hu, rfl⟩, fun he ↦ he⟩

/-- What a record becomes does not matter to the store. -/
theorem culling_modifyRecord (id : Nat) (f : Record → Record) :
    Culling (modifyMachine (·.modifyRecord id f)) :=
  culling_modifyMachine fun m hm ↦ ⟨hm.modify _ _, fun hu ↦ by
    obtain ⟨u', hu', -, hflag⟩ := m.exists_modifyRecord id f hu
    exact ⟨u', hu', hflag⟩⟩

theorem culling_binding : Culling binding :=
  .reading fun _ ↦ .pure _

theorem culling_machine : Culling machine :=
  .reading fun _ ↦ .pure _

theorem culling_registry : Culling registry :=
  .reading fun _ ↦ .pure _

theorem culling_host : Culling host :=
  .reading fun _ ↦ .pure _

theorem culling_typeMetatable (type : Nat) : Culling (typeMetatable type) :=
  culling_binding.bind fun _ ↦ .pure _

theorem culling_forget (e : CacheEntry) : Culling (forget e) :=
  culling_binding.bind fun _ ↦ culling_modifyMachine_of_userdata fun _ ↦ rfl

/-- Erasing a key makes no entry. -/
theorem culling_erase (k : CacheKey) : Culling (modifyCache (·.erase k)) := fun w hw ↦ by
  refine ⟨rfl, hw, fun {_ u} hu ↦ ⟨u, hu, rfl⟩, fun he ↦ ?_⟩
  exact ((IdentityCache.find?_erase_eq_some w.binding.cache).1 he).2

theorem culling_dismiss (e : CacheEntry) : Culling (dismiss e) :=
  (culling_modifyMachine_of_userdata (f := (·.pop 1)) fun _ ↦ rfl).bind fun _ ↦ culling_forget e

theorem culling_pushRemembered (e : CacheEntry) : Culling (pushRemembered e) := by
  refine culling_binding.bind fun b ↦ .ite ((culling_push _).bind fun _ ↦ .pure _) ?_
  split
  · exact (culling_forget e).bind fun _ ↦ .pure _
  · exact .pure _

theorem culling_retrieve (k : CacheKey) {fits : Nat → Exec Bool} (hfits : ∀ id, Culling (fits id)) :
    Culling (retrieve k fits) := by
  refine culling_binding.bind fun b ↦ ?_
  split
  · exact .pure _
  · rename_i e _
    refine (culling_pushRemembered e).bind fun found ↦ ?_
    have hlost : Culling (do modifyCache (·.erase k); return false) :=
      (culling_erase k).bind fun _ ↦ .pure _
    refine .ite ((hfits _).bind fun ok ↦ .ite (.pure _) ?_) hlost
    exact (culling_dismiss e).bind fun _ ↦ hlost

theorem culling_fail (f : Failure) : Culling (fail f : Exec α) :=
  .throw _

theorem culling_exportedType (t : TypeKey) : Culling (exportedType t) := by
  refine culling_registry.bind fun r ↦ ?_
  split
  · exact .pure _
  · exact (culling_host.bind fun _ ↦ .pure _).bind fun _ ↦ culling_fail _

/-! #### Views of a userdata -/

theorem culling_upgradeView (id type : Nat) (target : Target) :
    Culling (upgradeView id type target) := by
  refine culling_machine.bind fun m ↦ ?_
  split
  · refine culling_registry.bind fun r ↦ .ite ?_ (.pure _)
    refine (culling_typeMetatable type).bind fun metatable ↦ culling_modifyMachine fun m hm ↦ ?_
    refine ⟨(hm.modify _ _).modify _ _, fun {id' u} hu ↦ ?_⟩
    obtain ⟨u₁, hu₁, -, hflag⟩ := m.exists_modifyRecord id
      (fun r ↦ { r with exposed := .declared type, target := target }) hu
    refine ⟨if id = id' then { u₁ with metatable := metatable } else u₁, ?_, ?_⟩
    · show ((m.modifyRecord id _).heap.userdata.modify id _).get? id' = _
      rw [SlotStore.get?_modify, hu₁]
      split <;> rfl
    · split <;> exact hflag
  · exact .pure _

theorem culling_reuse (id : Nat) (v : View) : Culling (reuse id v) := by
  refine culling_registry.bind fun r ↦ culling_machine.bind fun m ↦ ?_
  split
  · exact .pure _
  · refine .ite (.pure _) (.ite ((culling_upgradeView _ _ _).bind fun _ ↦ .pure _) ?_)
    exact (culling_modifyRecord _ _).bind fun _ ↦ .pure _

theorem culling_rejoin (id : Nat) (h : Handle) (type : Nat) : Culling (rejoin id h type) :=
  culling_machine.bind fun _ ↦ .ite (.pure _) ((culling_upgradeView _ _ _).bind fun _ ↦ .pure _)

theorem culling_weakHandle (v : View) : Culling (weakHandle v) := by
  refine culling_binding.bind fun b ↦ culling_host.bind fun h ↦ ?_
  split
  · exact (culling_modifyHost _).bind fun _ ↦ .pure _
  · exact .pure _

theorem culling_ownsLike (id block : Nat) : Culling (ownsLike id block) := by
  refine culling_host.bind fun h ↦ culling_machine.bind fun m ↦ ?_
  split <;> exact .pure _

/-! #### Casts -/

theorem culling_castDown (v : Value) (view : View) (target : Nat) (a : Address) :
    Culling (castDown v view target a) := by
  refine culling_registry.bind fun r ↦ ?_
  split
  · refine .ite ((culling_weakHandle _).bind fun h? ↦ ?_) ((Culling.pure _).bind fun word? ↦ ?_)
    · split
      all_goals
        refine (Culling.pure _).bind fun word? ↦ ?_
        cases word? with
        | some word => exact .pure _
        | none => exact culling_fail _
    · cases word? with
      | some word => exact .pure _
      | none => exact culling_fail _
  · refine .ite ((culling_weakHandle _).bind fun h? ↦ ?_)
      ((culling_upgradeView _ _ _).bind fun _ ↦ .pure _)
    split
    · exact (culling_upgradeView _ _ _).bind fun _ ↦ .pure _
    · exact (culling_fail _).bind fun _ ↦ .pure _
  · exact culling_fail _

/-- A cast towards an object that may not have been found. -/
private theorem culling_castFound (r : Registry) (v : Value) (view : View) (target : Nat)
    (a? : Option Address) : Culling (match a? with
      | some a => castDown v view target a
      | none => fail (.invalidCast (r.nameOf view.type) (r.nameOf target))) := by
  cases a? with
  | some a => exact culling_castDown _ _ _ _
  | none => exact culling_fail _

theorem culling_castValue (v : Value) (target : Nat) : Culling (castValue v target) := by
  refine culling_registry.bind fun r ↦ (Culling.reading fun _ ↦ .pure _).bind fun resolved ↦ ?_
  split
  · exact .pure _
  · exact .ite (.pure _) (culling_fail _)
  · exact .ite (.pure _) (culling_machine.bind fun _ ↦ culling_host.bind fun _ ↦
      culling_castFound _ _ _ _ _)

theorem culling_cast (idx : Int) (target : Nat) : Culling (cast idx target) :=
  (culling_machine.bind fun _ ↦ .pure _).bind fun _ ↦ (culling_castValue _ _).bind fun _ ↦
    culling_push _

/-! ### Computations that make an entry last -/

/-- A computation makes no entries but those of userdata with records of their keys, where the registry
is `g`. -/
def Tending (g : Registry) (x : Exec α) : Prop :=
  ∀ w : World, w.binding.registry = g → w.binding.machine.heap.userdata.Sound →
    Ends x (fun _ w' ↦ w.Tends w') (fun _ w' ↦ w.Tends w') w

theorem Culling.tending (hx : Culling x) : Tending g x :=
  fun w _ hw ↦ (hx w hw).imp (fun _ _ h ↦ h.tends) fun _ _ h ↦ h.tends

/-- Entries may be made after everything else. -/
theorem Culling.bind_tending (hx : Culling x) (hf : ∀ a, Tending g (f a)) : Tending g (x >>= f) := by
  intro w hg hw
  rw [ends_bind]
  exact (hx w hw).imp (fun a w₁ h ↦ (hf a w₁ (h.registry.trans hg) h.store).imp
    (fun _ _ h' ↦ h'.after h) fun _ _ h' ↦ h'.after h) fun _ _ h ↦ h.tends

/-- And nothing is done about them after that. -/
theorem Tending.discard {x : Exec α} (hx : Tending g x) (b : β) :
    Tending g (do let _ ← x; return b) := by
  intro w hg hw
  rw [ends_bind]
  exact hx w hg hw

namespace Tending

theorem ite {c : Prop} [Decidable c] {y : Exec α} (hx : c → Tending g x) (hy : ¬ c → Tending g y) :
    Tending g (if c then x else y) := by
  split
  · exact hx ‹_›
  · exact hy ‹_›

theorem registry {f : Registry → Exec β} (hf : Tending g (f g)) : Tending g (registry >>= f) := by
  intro w hg hw
  rw [ends_bind, ends_registry, hg]
  exact hf w hg hw

end Tending

theorem userdata_reference (m : Machine) (table : Nat) (v : Value) :
    (m.reference table v).2.heap.userdata = m.heap.userdata := by
  rw [Machine.reference]
  split
  · rfl
  · split <;> rfl

/-- **A userdata with a record of a key is given to the key.** -/
theorem ends_enrol_tends {k : CacheKey} {id : Nat}
    (hid : k.Faithful w.binding.registry → w.Bears k id) :
    Ends (enrol k id) (fun _ w' ↦ w.Tends w') (fun _ w' ↦ w.Tends w') w := by
  have huserdata := userdata_reference w.binding.machine w.binding.tables.cache (.userdata id)
  simp only [enrol, remember, ends_bind, ends_binding, ends_updateMachine, ends_pure]
  refine ends_makeRoom k ?_ fun _ _ _ ↦ .of_entry rfl huserdata (fun he ↦ Or.inl he) hid
  simp only [ends_bind, ends_binding, ends_modifyCache]
  have hentry {k' : CacheKey} {e : CacheEntry} {reference : Int}
      (he : (w.binding.cache.insert k ⟨reference, id⟩).find? k' = some e) :
      w.binding.cache.find? k' = some e ∨ k' = k ∧ e.userdata = id := by
    rw [IdentityCache.find?_insert] at he
    split at he
    · rename_i hk
      exact Or.inr ⟨hk, by rw [← Option.some.inj he]⟩
    · exact Or.inl he
  cases w.binding.cache.find? k with
  | none => exact .of_entry rfl huserdata hentry hid
  | some old =>
    simp only [forget, ends_bind, ends_binding, ends_modifyMachine]
    exact .of_entry rfl huserdata hentry hid

/-- A new userdata with a record. -/
theorem ends_pushRecord_culls (hw : w.binding.machine.heap.userdata.Sound) (r : Record)
    (metatable : Option Nat) :
    Ends (pushRecord r metatable) (fun id w' ↦ w.Culls w' ∧
      ∃ u, w'.binding.machine.heap.userdata.get? id = some u ∧ u.finalized = false ∧
        u.record? = some r) (fun _ _ ↦ False) w := by
  have hget (id : Nat) : (w.binding.machine.createUserdata
      { content := .record r, metatable := metatable }).2.heap.userdata.get? id =
      if id = w.binding.machine.heap.userdata.nextId then
        some { content := .record r, metatable := metatable }
      else w.binding.machine.heap.userdata.get? id := hw.get?_insert _ id
  simp only [pushRecord, ends_bind, ends_updateMachine, ends_push, ends_pure]
  refine ⟨⟨rfl, hw.insert _, fun {id u} hu ↦ ⟨u, ?_, rfl⟩, fun he ↦ he⟩, _,
    (hget _).trans (if_pos rfl), rfl, rfl⟩
  refine (hget id).trans ((if_neg fun hid ↦ ?_).trans hu)
  subst hid
  exact absurd (hw.get?_nextId.symm.trans hu) (by simp)

/-- **A key is given a new userdata** with a record of the key. -/
theorem tending_pushNew {k : CacheKey} {r : Record} (hfits : k.Faithful g → r.Fits g k)
    (metatable : Option Nat) : Tending g (pushNew k r metatable) := by
  intro w hg hw
  rw [pushNew, ends_bind]
  refine (ends_pushRecord_culls hw r metatable).imp (fun id w₁ h ↦ ?_) fun _ _ h ↦ h.elim
  obtain ⟨hculls, u, hu, hflag, hr⟩ := h
  have hg₁ : w₁.binding.registry = g := hculls.registry.trans hg
  refine (ends_enrol_tends fun hf ↦ ⟨u, r, hu, hflag, hr, ?_⟩).imp (fun _ _ h ↦ h.after hculls)
    fun _ _ h ↦ h.after hculls
  rw [hg₁] at hf ⊢
  exact (hfits hf).cacheKey

/-! #### Pushes -/

theorem tending_pushWeak (v : View) : Tending g (pushWeak v) := by
  refine culling_binding.bind_tending fun b ↦ (culling_weakHandle v).bind_tending fun h? ↦ ?_
  split
  · exact (culling_fail _).tending
  · rename_i h
    split
    · exact (culling_push _).tending
    · refine (culling_retrieve _ fun id ↦ culling_rejoin id h v.type).bind_tending fun _ ↦
        .ite (fun _ ↦ (Culling.pure _).tending) fun _ ↦
          (culling_typeMetatable _).bind_tending fun _ ↦ tending_pushNew (fun hf ↦ ?_) _
      exact fits_weak g h v.type hf

theorem tending_pushBorrowed {v : View} (hweak : g.isWeak v.type = false) (key : Address) :
    Tending g (pushBorrowed v key) := by
  refine culling_binding.bind_tending fun b ↦ ?_
  split
  · exact (culling_push _).tending
  · exact (culling_retrieve _ fun id ↦ culling_reuse id v).bind_tending fun _ ↦
      .ite (fun _ ↦ (Culling.pure _).tending) fun _ ↦
        (culling_typeMetatable _).bind_tending fun _ ↦
          tending_pushNew (fun _ ↦ fits_borrowed hweak key v.address) _

theorem tending_pushView (v : View) : Tending g (pushView v) := by
  refine .registry ((culling_retrieve _ fun _ ↦ .pure _).bind_tending fun _ ↦
    .ite (fun _ ↦ (Culling.pure _).tending) fun _ ↦ .ite (fun _ ↦ tending_pushWeak v) fun hweak ↦ ?_)
  exact tending_pushBorrowed (Bool.not_eq_true _ ▸ hweak) _

theorem tending_pushPointer (a : Option Address) (t : TypeKey) : Tending g (pushPointer a t) := by
  cases a with
  | none => exact (culling_push _).tending
  | some a => exact (culling_exportedType t).bind_tending fun type ↦ tending_pushView ⟨a, type⟩

theorem tending_pushOwned (t : TypeKey) (a : Address) : Tending g (pushOwned t a) := by
  refine (culling_exportedType t).bind_tending fun type ↦ culling_binding.bind_tending fun b ↦
    (culling_typeMetatable type).bind_tending fun metatable w hg hw ↦ ?_
  rw [ends_bind]
  refine (ends_pushRecord_culls hw _ metatable).imp (fun id w₁ h ↦ ?_) fun _ _ h ↦ h.elim
  obtain ⟨hculls, u, hu, hflag, hr⟩ := h
  simp only [ends_bind, ends_host]
  split
  · exact (ends_enrol_tends fun _ ↦ ⟨u, _, hu, hflag, hr, rfl⟩).imp (fun _ _ h ↦ h.after hculls)
      fun _ _ h ↦ h.after hculls
  · exact hculls.tends

theorem tending_pushShare (block : Nat) : Tending g (pushShare block) := by
  refine culling_host.bind_tending fun h ↦ (culling_exportedType _).bind_tending fun type ↦
    culling_registry.bind_tending fun r ↦
      (culling_retrieve _ fun id ↦ culling_ownsLike id block).bind_tending fun _ ↦
        .ite (fun _ ↦ (Culling.pure _).tending) fun _ ↦
          (culling_typeMetatable _).bind_tending fun _ ↦ ?_
  exact (tending_pushNew (fun _ ↦ fits_shared _ _ _ _ _) _).discard _

theorem tending_pushOwnedContainer (kind : ContainerKind) (a : Address) :
    Tending g (pushOwnedContainer kind a) :=
  culling_binding.bind_tending fun _ ↦
    tending_pushNew (fun _ ↦ fits_container _ _ _ (by simp) _) _

theorem tending_pushContainer (kind : ContainerKind) (a : Option Address) :
    Tending g (pushContainer kind a) := by
  cases a with
  | none => exact (culling_push _).tending
  | some a =>
    exact (culling_retrieve _ fun _ ↦ .pure _).bind_tending fun _ ↦
      .ite (fun _ ↦ (Culling.pure _).tending) fun _ ↦ culling_binding.bind_tending fun _ ↦
        tending_pushNew (fun _ ↦ fits_container _ _ _ (by simp) _) _

/-! ### Events -/

theorem culling_finalize : Culling finalize := by
  have hrecord (id : Nat) (r : Record) : Culling (finalizeRecord id r) := by
    refine culling_binding.bind fun b ↦ (culling_modifyRecord _ _).bind fun _ ↦ ?_
    dsimp only
    cases r.payload with
    | some p =>
      split
      · exact (culling_erase _).bind fun _ ↦ (culling_forget _).bind fun _ ↦ culling_modifyHost _
      · exact culling_modifyHost _
    | none =>
      split
      · exact (culling_erase _).bind fun _ ↦ (culling_forget _).bind fun _ ↦ .pure _
      · exact .pure _
  refine culling_machine.bind fun m ↦ ?_
  dsimp only
  split
  · split
    · exact (hrecord _ _).bind fun _ ↦ .pure _
    · exact .pure _
  · exact .pure _

end Exec

namespace Event

/-- What happens in a collection. -/
def Collects : Event → Prop
  | sweep | runFinalizer _ _ => True
  | _ => False

/-- **Outside collections the bridge makes no entries but those of new userdata.** -/
theorem tending_perform {o : Event} (ho : ¬ o.Collects) (g : Registry) : Exec.Tending g o.perform := by
  cases o with
  | pushPointer a t => exact Exec.tending_pushPointer a t
  | pushOwned t a => exact Exec.tending_pushOwned t a
  | pushShare block => exact (Exec.tending_pushShare block).discard _
  | pushContainer kind a => exact Exec.tending_pushContainer kind a
  | pushOwnedContainer kind a => exact Exec.tending_pushOwnedContainer kind a
  | cast idx target => exact (Exec.culling_cast idx target).tending
  | finalize => exact (Exec.culling_finalize.bind fun _ ↦ .pure _).tending
  | sweep | runFinalizer => exact absurd trivial ho
  | detach cell => exact (Exec.culling_modifyHost (·.detach cell)).tending
  | destroy t a => exact (Exec.culling_modifyHost (·.destroy t a)).tending
  | dropOwner block => exact (Exec.culling_modifyHost (·.dropOwner block)).tending

/-- **Outside collections the identity cache stays tidy.** -/
theorem tidy_after {R : Realm} {w : World} (hw : w.Sound R) (htidy : w.Tidy) {o : Event}
    (hallowed : o.Allowed w) (ho : ¬ o.Collects) : (o.after w).Tidy := by
  have hpasses := o.passes hw hallowed
  have htends := tending_perform ho w.binding.registry w rfl hw.binding.userdata
  exact htidy.tends (fun hr hlive ↦ hpasses.ages hr hlive) htends.world

end Event

end ObjectBridge
