import ObjectBridge.Proofs.Delivery
import ObjectBridge.Proofs.Moves

/-!
# Events keep records accurate

One lemma for each thing that happens to a binding: afterwards its records are as accurate as before
(`Event.ends_upholds`). Two things have to be promised. A share that is pushed is one in a block
that is there (`Event.Orderly`), and the shares that are to stay exact are not cast down
(`Event.Spares`); the second promise is needed because nothing in a cast keeps a share from being
shown as a type derived from its own.
-/

namespace ObjectBridge

namespace World

variable {R : Realm} {X : Set Nat} {w w' : World}

/-- The finalizer of the bridge keeps records accurate. -/
theorem Advances.finalize (hw : w.Sound R) (ha : w.Accurate X) {id : Nat} {r : Record}
    (hid : w.record? id = some r) : w.Advances R X (w.finalizing id r) := by
  have hleads : w.Leads R Set.univ (w.finalizing id r) := .finalize hw hid
  rw [finalizing] at hleads ⊢
  cases he : w.binding.cache.entryOf (r.cacheKey w.binding.registry) id with
  | some e =>
    rw [he] at hleads
    obtain ⟨hfind, -⟩ := (w.binding.cache.entryOf_eq_some).1 he
    have hforgot := Advances.forget hw ha hfind
    have hid' : (w.forgetting (r.cacheKey w.binding.registry) e).record? id = some r := hid
    exact hleads.advances rfl (hforgot.accurate.discard ⟨rfl, rfl, rfl⟩ hid' rfl
      (record?_modifyRecord hid' _) fun hm ↦ hm)
  | none =>
    rw [he] at hleads
    exact hleads.advances rfl (ha.discard ⟨rfl, rfl, rfl⟩ hid rfl (record?_modifyRecord hid _)
      fun hm ↦ hm)

/-- Destroying objects keeps records accurate. -/
theorem Advances.lasting (hw : w.Sound R) (ha : w.Accurate X) {h : Host}
    (hlasts : ∀ {T : Host → Host → Prop}, Host.Lasting T → T w.host h) :
    w.Advances R X { w with host := h } :=
  .host hw ha (hlasts Host.Evolves.lasting) (hlasts Host.Grows.lasting)

/-- What keeps records accurate goes on doing so through what does not matter to the bridge. -/
theorem steady_advances (R : Realm) (X : Set Nat) (w : World) : Steady R (w.Advances R X) where
  sound h := h.sound
  quiet hq hhost h := h.trans (.quiet h.sound h.accurate hq hhost)

end World

namespace Exec

variable {R : Realm} {X : Set Nat} {w : World}

/-! ### What userdata own -/

/-- A type that is not exported is a failure, which changes nothing. -/
theorem ends_exportedType {β : Type} {I : World → Prop} (hw : I w) {t : TypeKey} {f : Nat → Exec β}
    (hf : ∀ type, w.binding.registry.idOf? t = some type → Ends (f type) (fun _ ↦ I) (fun _ ↦ I) w) :
    Ends (exportedType t >>= f) (fun _ ↦ I) (fun _ ↦ I) w := by
  simp only [exportedType, ends_bind, ends_registry]
  cases ht : w.binding.registry.idOf? t with
  | none =>
    simp only [typeKeyName, ends_bind, ends_host, ends_pure, ends_fail]
    exact hw
  | some type => exact hf type ht

/-- Pushing an object that belongs to its userdata keeps records accurate. -/
theorem advances_pushOwned (hw : w.Sound R) (ha : w.Accurate X) (t : TypeKey) (a : Address) :
    Ends (pushOwned t a) (fun _ w' ↦ w.Advances R X w') (fun _ w' ↦ w.Advances R X w') w := by
  rw [pushOwned]
  refine ends_exportedType (World.Advances.refl hw ha) fun type htype ↦ ?_
  have hrecord : Record.Accurate w True
      ⟨w.rootOf ⟨a, type⟩, .declared type, .owned, .pointer a, some (.object t a)⟩ :=
    accurate_pointer (fun he ↦ by rw [Exposed.declared.inj he]) fun hx ↦ by
      obtain rfl := Option.some.inj hx
      exact ⟨rfl, rfl, type, htype, rfl⟩
  simp only [ends_bind, ends_binding, ends_typeMetatable]
  refine Ends.imp (keeps_pushRecord (K := Set.univ) hw (issuable_pointer _ _ _ _ _ _) _)
    (fun id w₁ hpush ↦ ?_) fun _ _ h ↦ h.elim
  obtain ⟨hl, hissues, hremembers⟩ := hpush
  have h₁ := hl.advances hissues.host (hissues.accurate ha (hl.sameGround hissues.host) hrecord
    fun hm ↦ Or.inl ((hremembers _ _).1 hm))
  simp only [ends_bind, ends_host]
  split
  · have hnew : ∀ k', ¬ w₁.Remembers k' id := fun k' h ↦
      hw.not_remembers_of_record?_eq_none hissues.fresh k' ((hremembers k' id).1 h)
    -- the new key is not that of a borrowed object
    have hkeeps : ∀ {w' : World}, w₁.Leads R Set.univ w' → w'.host = w₁.host →
        (∀ id', w'.record? id' = w₁.record? id') →
        (∀ {root id'}, w'.Remembers (.borrowed root) id' → w₁.Remembers (.borrowed root) id') →
          w.Advances R X w' := fun {w'} hl' hhost hrecords hm ↦
      h₁.trans (hl'.advances hhost (h₁.accurate.lose (hl'.sameGround hhost) hl'.sound
        (fun {id' _} hr ↦ (hrecords id').symm.trans hr) hm))
    refine (keeps_enrol (K := Set.univ) h₁.sound hissues.record hnew (fun _ ↦ fits_owned _ _ _ _ _)
      (fun _ _ ↦ trivial) (fun _ _ ↦ trivial)).imp (fun _ w' h ↦ ?_) fun _ w' h ↦ ?_
    · obtain ⟨hl', hhost, -, hrecords, hremembers'⟩ := h
      exact hkeeps hl' hhost hrecords fun hm ↦
        ((hremembers' _ _).1 hm).elim (fun h ↦ absurd h.1 (by simp)) fun h ↦ h.2
    · obtain ⟨hl', hhost, -, hrecords, hremembers', -⟩ := h
      exact hkeeps hl' hhost hrecords fun hm ↦ (hremembers' _ _).1 hm
  · exact h₁

/-- Pushing a share in a block that is there keeps records accurate. -/
theorem advances_pushShare (hw : w.Sound R) (ha : w.Accurate X) {block : Nat} {b : Block}
    (hb : w.host.blocks[block]? = some b) :
    Ends (pushShare block) (fun _ w' ↦ w.Advances R X w') (fun _ w' ↦ w.Advances R X w') w := by
  rw [pushShare, ends_bind, ends_host, hb, Option.getD_some]
  refine ends_exportedType (World.Advances.refl hw ha) fun type htype ↦ ?_
  have hretrieve := advances_retrieve hw ha (k := .shared (w.rootOf ⟨b.address, type⟩))
    (f := fun id ↦ ownsLike id block) (U := fun _ ↦ True) (P := fun _ _ ↦ True) fun id hm ↦
      ends_ownsLike _ _ fun ok ↦ by
        have hpushed := (World.Advances.refl hw ha).pushing (.userdata id)
        cases ok with
        | true => exact Or.inl ⟨rfl, .refl hpushed.sound hpushed.accurate, trivial⟩
        | false => exact Or.inr ⟨rfl, Or.inl ⟨rfl, Or.inl trivial⟩, Or.inl rfl, trivial⟩
  simp only [ends_bind, ends_registry]
  refine hretrieve.imp (fun found w₁ hfound ↦ ?_) fun _ _ h ↦ h.elim
  obtain ⟨h₁, ⟨rfl, -⟩ | ⟨rfl, hvacated, -⟩⟩ := hfound
  · exact h₁
  · simp only [Bool.false_eq_true, if_false, ends_bind, ends_typeMetatable]
    have hg := h₁.leads.sameGround hvacated.host
    have hrecord : Record.Accurate w₁ True ⟨w.rootOf ⟨b.address, type⟩, .declared type, .shared,
        .pointer b.address, some (.share block)⟩ :=
      accurate_pointer (fun he ↦ by rw [hg.rootOf, Exposed.declared.inj he]) fun hx ↦ by
        obtain rfl := Option.some.inj hx
        refine ⟨rfl, b, type, type, by rwa [hg.host], by rwa [hg.registry], rfl, ?_,
          fun _ ↦ ⟨rfl, rfl⟩⟩
        exact h₁.sound.registrySound.isBaseOf_refl _
    exact (advances_pushNew h₁.sound h₁.accurate (issuable_pointer _ _ _ _ _ _)
      (fun _ ↦ fits_shared _ _ _ _ _) hrecord (fun _ ↦ by simp) _).imp (fun _ _ h ↦ h₁.trans h.1)
        fun _ _ h ↦ h₁.trans h

/-! ### Containers -/

/-- Pushing a container that belongs to its userdata keeps records accurate. -/
theorem advances_pushOwnedContainer (hw : w.Sound R) (ha : w.Accurate X) (kind : ContainerKind)
    (a : Address) : Ends (pushOwnedContainer kind a) (fun _ w' ↦ w.Advances R X w')
      (fun _ w' ↦ w.Advances R X w') w := by
  simp only [pushOwnedContainer, ends_bind, ends_binding]
  refine (advances_pushNew hw ha (issuable_pointer _ _ _ _ _ _)
    (fun _ ↦ fits_container _ _ _ (by simp) _) (accurate_pointer (fun he ↦ absurd he (by simp))
      fun hx ↦ ?_) (fun _ ↦ by simp) _).imp (fun _ _ h ↦ h.1) fun _ _ h ↦ h
  obtain rfl := Option.some.inj hx
  exact ⟨rfl, rfl, rfl⟩

/-- Pushing a container of the host keeps records accurate. -/
theorem advances_pushContainer (hw : w.Sound R) (ha : w.Accurate X) (kind : ContainerKind)
    (a : Option Address) : Ends (pushContainer kind a) (fun _ w' ↦ w.Advances R X w')
      (fun _ w' ↦ w.Advances R X w') w := by
  cases a with
  | none => exact (World.Advances.refl hw ha).pushing .nil
  | some a =>
    simp only [pushContainer, ends_bind]
    refine (ends_retrieve_any hw (.container a kind)).imp (fun found w₁ hfound ↦ ?_)
      fun _ _ h ↦ h.elim
    rcases hfound with ⟨rfl, id, -, rfl⟩ | ⟨rfl, -, hforgot⟩
    · exact (World.Advances.refl hw ha).pushing _
    · have h₁ : w.Advances R X w₁ := by
        rcases hforgot with ⟨rfl, -⟩ | ⟨e, he, rfl⟩
        · exact .refl hw ha
        · exact .forget hw ha he
      simp only [Bool.false_eq_true, if_false, ends_bind, ends_binding]
      exact (advances_pushNew h₁.sound h₁.accurate (issuable_pointer _ _ _ _ _ _)
        (fun _ ↦ fits_container _ _ _ (by simp) _) (accurate_pointer (fun he ↦ absurd he (by simp))
          fun hx ↦ absurd hx (by simp)) (fun _ ↦ by simp) _).imp (fun _ _ h ↦ h₁.trans h.1)
            fun _ _ h ↦ h₁.trans h

/-- Pushing the object at an address keeps records accurate. -/
theorem advances_pushPointer (hw : w.Sound R) (ha : w.Accurate X) (a : Option Address) (t : TypeKey)
    (hsingle : ∀ a' type, a = some a' → w.binding.registry.idOf? t = some type →
      w.binding.registry.isWeak type = true → w.Single ⟨a', type⟩) :
    Ends (pushPointer a t) (fun _ w' ↦ w.Advances R X w') (fun _ w' ↦ w.Advances R X w') w := by
  cases a with
  | none => exact (World.Advances.refl hw ha).pushing .nil
  | some a =>
    simp only [pushPointer]
    refine ends_exportedType (World.Advances.refl hw ha) fun type htype ↦ ?_
    exact (ends_pushView_delivers hw ha (hsingle a type rfl htype)).imp (fun _ _ h ↦ h.1)
      fun _ _ h ↦ h

/-! ### Casts -/

section Downcast

variable {x y : Value} {id : Nat} {r : Record} {v : View} {target : Nat} {a : Address} {w' : World}
  (hw : w.Sound R) (ha : w.Accurate X)
  (hdown : w.binding.registry.toDerived? w.host.memory v target = some a)
include hw ha hdown

/-- A userdata that leads to an object keeps an accurate record when it comes to show the object as
a more derived type, which is not weak. -/
theorem advances_switched_pointer (hv : w.resolve (.userdata id) = .live v)
    (hshare : id ∈ X → ∀ block, r.payload ≠ some (.share block))
    (hweak : w.binding.registry.isWeak target = false)
    (h : w.Switched R Set.univ id r target (.pointer a) w') : w.Advances R X w' := by
  have hs := hw.registrySound
  obtain ⟨offset, hline, -⟩ := hs.toDerived?_eq_some hdown
  have hbase : w.binding.registry.isBaseOf v.type target = true :=
    Registry.isBaseOf_iff.2 ⟨offset, hline⟩
  have hroot : w.rootOf ⟨a, target⟩ = w.rootOf v :=
    congrArg View.address (hs.root_toDerived hdown)
  have hid := h.record
  have he := World.exposed_of_live hid hv
  refine .reshown h.leads ha hid h.reshown (fun shown hshown hless ↦ ?_) fun _ hlodged ↦
    hlodged.shownAs fun ht ↦ absurd ht (by simp)
  refine (ha.record hid).shownAs hs hshown hless h.unowned hshare (fun ht ↦ ?_)
    fun ht ↦ absurd ht (by simp)
  rw [← Target.pointer.inj ht, hroot]
  cases ht : r.target with
  | pointer a' =>
    rw [← Resolved.live.inj ((World.resolve_of_pointer hid he ht).symm.trans hv)]
    exact (ha.record hid).placed he ht
  | weak h =>
    obtain ⟨type, he', htype⟩ := (hw.binding.proper hid).exposes ht
    obtain rfl := Exposed.declared.inj (he.symm.trans he')
    exact absurd ((hs.isWeak_of_isBaseOf hbase htype).symm.trans hweak) (by simp)
  | discarded => exact absurd ht h.ne_discarded

/-- The same of a type that is weak, when the object has been given a handle. -/
theorem advances_switched_weak (hv : w.resolve (.userdata id) = .live v)
    (hshare : id ∈ X → ∀ block, r.payload ≠ some (.share block)) {handle : Handle} {w₁ : World}
    (hseated : w.Seated R ⟨a, target⟩ handle w₁) (h₁ : w.Advances R X w₁)
    (h : w₁.Switched R Set.univ id r target (.weak handle) w') : w.Advances R X w' := by
  have hbinding := hseated.binding
  have hregistry : w₁.binding.registry = w.binding.registry := by rw [hbinding]
  have hid₁ := h.record
  have hid : w.record? id = some r := (hseated.record? id).symm.trans hid₁
  refine h₁.trans (.reshown h.leads h₁.accurate hid₁ h.reshown (fun shown hshown hless ↦ ?_)
    fun {root} hm hlodged₁ ↦ hlodged₁.shownAs fun ht hu' ↦ ?_)
  · refine (h₁.accurate.record hid₁).shownAs h₁.sound.registrySound hshown hless h.unowned hshare
      (fun ht ↦ absurd ht (by simp)) fun ht hu hderived ↦ ?_
    obtain rfl := Target.weak.inj ht
    exact hseated.seats.derived hu (hregistry ▸ hderived)
  · -- the slot is that of the object, and the object is the one that is remembered
    obtain rfl := Target.weak.inj ht
    obtain ⟨u, hu, hidentity⟩ := hseated.exists_holds
    have hm₀ : w.Remembers (.borrowed root) id := by rwa [World.Remembers, hbinding] at hm
    obtain ⟨y, hy, hlodged⟩ := ha.lodged hm₀
    obtain rfl := Option.some.inj (hid.symm.trans hy)
    calc w₁.rootOf _ = w.rootOf u := by rw [World.rootOf, World.rootOf, hregistry, (hu'.unique hu).2]
      _ = w.rootOf ⟨a, target⟩ := congrArg (fun x ↦ x.2.address) hidentity
      _ = w.rootOf v := congrArg View.address (hw.registrySound.root_toDerived hdown)
      _ = root := (ha.record hid).rootOf_of_live hw hid hlodged hv

/-- **A cast down keeps records accurate** if it is of no share that is to stay exact. -/
theorem advances_downcast (hv : w.resolve x = .live v)
    (hshare : ∀ id r, x = .userdata id → w.record? id = some r → id ∈ X →
      ∀ block, r.payload ≠ some (.share block))
    (h : w.Downcast R Set.univ v target a x y w') : w.Advances R X w' := by
  cases h with
  | address => exact World.Advances.refl hw ha
  | handle _ _ leads seated _ => exact seated.advances leads hw ha
  | pointer strong switched =>
    exact advances_switched_pointer hw ha hdown hv (hshare _ _ rfl switched.record) strong switched
  | weak _ _ leads seated switched =>
    exact advances_switched_weak hw ha hdown hv (hshare _ _ rfl switched.record) seated
      (seated.advances leads hw ha) switched

end Downcast

/-- **A cast keeps records accurate** if it casts no share down that is to stay exact. -/
theorem advances_cast (hw : w.Sound R) (ha : w.Accurate X) (idx : Int) (target : Nat)
    (hsingle : ∀ v a, w.resolve (w.binding.machine.valueAt idx) = .live v →
      w.binding.registry.toDerived? w.host.memory v target = some a →
      w.binding.registry.isWeak target = true → w.Single ⟨a, target⟩)
    (hshare : ∀ id r v, w.binding.machine.valueAt idx = .userdata id → id ∈ X →
      w.record? id = some r → w.resolve (.userdata id) = .live v →
      w.binding.registry.isBaseOf target v.type = false → ∀ block, r.payload ≠ some (.share block)) :
    Ends (cast idx target) (fun _ w' ↦ w.Advances R X w') (fun _ w' ↦ w.Advances R X w') w := by
  refine ends_cast_of hw idx target hsingle (.refl hw ha) (fun hl hseated ↦ hseated.advances hl hw ha)
    (fun hv hother hdown h ↦ ?_) fun y h ↦ h.pushing y
  refine advances_downcast hw ha hdown hv (fun id r hx hid hmem ↦ ?_) h
  exact hshare id r _ hx hmem hid (hx ▸ hv) hother

end Exec

/-! ### Events -/

namespace World

variable {R : Realm} {X : Set Nat} {w w₁ w' : World}

/-- **What an event leaves**: records that are as accurate as before, and slots that record no less
derived types. -/
structure Upholds (R : Realm) (X : Set Nat) (w w' : World) : Prop where
  accurate : w'.Accurate X
  grows : Host.Grows R w.host w'.host

theorem Advances.upholds (h : w.Advances R X w') : w.Upholds R X w' :=
  ⟨h.accurate, h.grows⟩

/-- A cycle of the collector loses records only. -/
theorem upholds_thin (hw : w.Sound R) (ha : w.Accurate X) {m : Machine} (h : w.Thinned m) :
    w.Upholds R X (w.withBinding m w.binding.cache) where
  accurate := ha.lose ⟨rfl, rfl, rfl⟩ (hw.thinned h) (fun hr ↦ h.record?_eq_some hr)
    fun hm ↦ hw.remembers_of_thinned h hm
  grows := .refl _

end World

namespace Exec

variable {R : Realm} {X : Set Nat} {w : World}

/-- **A cycle of the collector keeps records accurate**, complete or not. -/
theorem upholds_sweep (hw : w.Sound R) (ha : w.Accurate X) :
    Ends sweep (fun _ w' ↦ w.Upholds R X w') (fun _ w' ↦ w.Upholds R X w') w := by
  have hflush : w.Advances R X (flushed w) := .quiet hw ha (quiet_flushed hw) rfl
  refine (ends_sweep_of_thins (I := fun w' ↦ w'.Sound R ∧ w.Upholds R X w') (fun hthins ↦ ?_)
    fun us h ↦ ?_).imp (fun _ _ h ↦ h.2) fun _ _ h ↦ h.2
  · have hupholds := World.upholds_thin hflush.sound hflush.accurate hthins
    exact ⟨hflush.sound.thinned hthins, hupholds.accurate, hflush.grows.trans hupholds.grows⟩
  · have hdrop := World.Advances.lasting h.1 h.2.accurate fun hT ↦ hT.dropAll _ us
    exact ⟨hdrop.sound, hdrop.accurate, h.2.grows.trans hdrop.grows⟩

/-- The finalizer of the bridge keeps records accurate, whatever it is called on. -/
theorem advances_finalize {w₁ : World} (h : w.Advances R X w₁) :
    Ends finalize (fun _ w' ↦ w.Advances R X w') (fun _ w' ↦ w.Advances R X w') w₁ :=
  (ends_finalize (I := w.Advances R X) h (fun hid ↦ h.trans (.finalize h.sound h.accurate hid))
    fun p h' ↦ h'.trans (.lasting h'.sound h'.accurate fun hT ↦ hT.dropPayload _ p)).imp
      (fun _ _ h ↦ h) fun _ _ h ↦ h.elim

end Exec

namespace Event

/-- A share that is pushed is one in a block that is there. -/
def Orderly (w : World) : Event → Prop
  | pushShare block => (w.host.blocks[block]?).isSome = true
  | _ => True

/-- No userdata in `X` is cast down while it owns a share. -/
def Spares (w : World) (X : Set Nat) : Event → Prop
  | cast idx target => ∀ id r v, w.binding.machine.valueAt idx = .userdata id → id ∈ X →
      w.record? id = some r → w.resolve (.userdata id) = .live v →
      w.binding.registry.isBaseOf target v.type = false → ∀ block, r.payload ≠ some (.share block)
  | _ => True

variable {R : Realm} {X : Set Nat} {w : World}

/-- **Every event keeps records accurate**, whether or not it is interrupted. -/
theorem ends_upholds (o : Event) (hw : w.Sound R) (ha : w.Accurate X) (ho : o.Allowed w)
    (horderly : o.Orderly w) (hspares : o.Spares w X) :
    Exec.Ends o.perform (fun _ w' ↦ w.Upholds R X w') (fun _ w' ↦ w.Upholds R X w') w := by
  have hadvances : ∀ {α : Type} {x : Exec α},
      Exec.Ends x (fun _ w' ↦ w.Advances R X w') (fun _ w' ↦ w.Advances R X w') w →
        Exec.Ends x (fun _ w' ↦ w.Upholds R X w') (fun _ w' ↦ w.Upholds R X w') w := fun {_ _} h ↦
    h.imp (fun _ _ h ↦ h.upholds) fun _ _ h ↦ h.upholds
  have hdiscard : ∀ {α : Type} {x : Exec α} {P : World → Prop},
      Exec.Ends x (fun _ ↦ P) (fun _ ↦ P) w →
        Exec.Ends (do let _ ← x; return) (fun _ ↦ P) (fun _ ↦ P) w := fun {_ _ _} h ↦ by
    rw [Exec.ends_bind]
    exact h
  have hrefl := World.Advances.refl hw ha
  cases o with
  | pushPointer a t => exact hadvances (Exec.advances_pushPointer hw ha a t ho)
  | pushOwned t a => exact hadvances (Exec.advances_pushOwned hw ha t a)
  | pushShare block =>
    obtain ⟨b, hb⟩ := Option.isSome_iff_exists.1 horderly
    exact hdiscard (hadvances (Exec.advances_pushShare hw ha hb))
  | pushContainer kind a => exact hadvances (Exec.advances_pushContainer hw ha kind a)
  | pushOwnedContainer kind a => exact hadvances (Exec.advances_pushOwnedContainer hw ha kind a)
  | cast idx target => exact hadvances (Exec.advances_cast hw ha idx target ho hspares)
  | finalize => exact hdiscard (hadvances (Exec.advances_finalize hrefl))
  | sweep => exact hdiscard (Exec.upholds_sweep hw ha)
  | runFinalizer fuel id =>
    refine hadvances (Exec.steady_runFinalizer (World.steady_advances R X w) hrefl rfl fun hne ↦
      ⟨_, ho hne, fun w₁ h₁ ↦ ?_⟩)
    rw [Exec.runner_builtin]
    exact Exec.advances_finalize h₁
  | detach cell => exact (World.Advances.lasting hw ha fun hT ↦ hT.detach _ cell).upholds
  | destroy t a => exact (World.Advances.lasting hw ha fun hT ↦ hT.destroy _ t a).upholds
  | dropOwner block => exact (World.Advances.lasting hw ha fun hT ↦ hT.dropOwner _ block).upholds

theorem upholds (o : Event) (hw : w.Sound R) (ha : w.Accurate X) (ho : o.Allowed w)
    (horderly : o.Orderly w) (hspares : o.Spares w X) : w.Upholds R X (o.after w) :=
  (o.ends_upholds hw ha ho horderly hspares).world

end Event

end ObjectBridge
