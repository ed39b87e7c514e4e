import ObjectBridge.Proofs.Payloads
import ObjectBridge.Proofs.Retiring

/-!
# What has been discarded stays discarded

A record is discarded when its userdata gives way to another one, or is finalized. From then on it never
leads to its object again, whatever is asked of the bridge, as long as its userdata is there
(`Session.discarded_for_good`).

The bridge makes records show other types without asking whether they have been discarded, so this hangs on
what userdata it comes upon. A userdata that has been discarded can be remembered for a borrowed object
still: it was cast to a weak type, and the finalizer looked for its entry among those of weak objects. But
only objects that are not weak are looked for among borrowed ones, and no type that is not weak is derived
from a weak one (`World.AtRest`). So no step disturbs what has been discarded (`World.Undisturbed`).
-/

namespace ObjectBridge

namespace Record

/-- What the record of a userdata has to be that is remembered for the borrowed object with a root: one of
that object, and discarded only if it shows a weak type. -/
structure Rests (registry : Registry) (root : Address) (r : Record) : Prop where
  ownership : r.ownership = .borrowed
  key : r.key = root
  exposes : ∃ type, r.exposed = .declared type ∧ (r.discarded = true → registry.isWeak type = true)

theorem discard_eq {r : Record} (hd : r.discarded = true) (hp : r.payload = none) :
    { r.discard with payload := none } = r := by
  rw [discard, ← discarded_iff.1 hd, ← hp]

end Record

namespace World

variable {R : Realm} {w w₁ w' : World} {id : Nat} {r : Record}

/-- **What has been discarded is at rest**: it owns nothing, and is not remembered for a borrowed object that
is not weak. -/
structure AtRest (w : World) : Prop where
  rests : ∀ {root id r}, w.Remembers (.borrowed root) id → w.record? id = some r →
    r.Rests w.binding.registry root
  unowned : ∀ {id r}, w.record? id = some r → r.ownership = .borrowed → r.payload = none
  spent : ∀ {id r}, w.record? id = some r → r.discarded = true → r.payload = none

/-- **A step that disturbs nothing that has been discarded**, besides what the bridge keeps up. -/
structure Undisturbed (R : Realm) (w w' : World) : Prop where
  leads : w.Leads R Set.univ w'
  atRest : w'.AtRest
  kept : ∀ {id r}, w.record? id = some r → r.discarded = true → w'.record? id = some r

theorem Blank.atRest (hb : w.Blank) : w.AtRest where
  rests hm := absurd hm (hb.not_remembers _ _)
  unowned {id _} hr := absurd ((hb.record? id).symm.trans hr) (by simp)
  spent {id _} hr := absurd ((hb.record? id).symm.trans hr) (by simp)

/-- Records are lost, if anything, and so is what remembers them. -/
theorem AtRest.lose (ha : w.AtRest) (hregistry : w'.binding.registry = w.binding.registry)
    (hrecord : ∀ {id r}, w'.record? id = some r → w.record? id = some r)
    (hremembers : ∀ {root id}, w'.Remembers (.borrowed root) id → w.Remembers (.borrowed root) id) :
    w'.AtRest where
  rests hm hr := hregistry ▸ ha.rests (hremembers hm) (hrecord hr)
  unowned hr := ha.unowned (hrecord hr)
  spent hr := ha.spent (hrecord hr)

/-! ### Single changes -/

namespace Undisturbed

theorem sound (h : w.Undisturbed R w') : w'.Sound R :=
  h.leads.sound

theorem refl (hw : w.Sound R) (ha : w.AtRest) : w.Undisturbed R w :=
  ⟨.refl hw, ha, fun hr _ ↦ hr⟩

theorem trans (h : w.Undisturbed R w₁) (h' : w₁.Undisturbed R w') : w.Undisturbed R w' :=
  ⟨h.leads.trans h'.leads, h'.atRest, fun hr hd ↦ h'.kept (h.kept hr hd) hd⟩

/-- No record changes. -/
theorem of_records (hl : w.Leads R Set.univ w') (ha : w.AtRest)
    (hrecord : ∀ id, w'.record? id = w.record? id)
    (hremembers : ∀ {root id}, w'.Remembers (.borrowed root) id → w.Remembers (.borrowed root) id) :
    w.Undisturbed R w' where
  leads := hl
  atRest := ha.lose hl.registry (fun hr ↦ (hrecord _).symm.trans hr) hremembers
  kept hr _ := (hrecord _).trans hr

theorem quiet (hw : w.Sound R) (ha : w.AtRest) (hq : w.Quiet w') : w.Undisturbed R w' :=
  .of_records (.quiet hw hq) ha hq.record? hq.remembers.1

theorem pushing (h : w.Undisturbed R w') (v : Value) : w.Undisturbed R (w'.pushing v) :=
  h.trans (.quiet h.sound h.atRest (w'.quiet_pushing v))

theorem host (hw : w.Sound R) (ha : w.AtRest) {h : Host} (he : Host.Evolves R w.host h) :
    w.Undisturbed R { w with host := h } :=
  .of_records (.host hw he) ha (fun _ ↦ rfl) fun hm ↦ hm

theorem forget (hw : w.Sound R) (ha : w.AtRest) {k : CacheKey} {e : CacheEntry}
    (he : w.binding.cache.find? k = some e) : w.Undisturbed R (w.forgetting k e) :=
  .of_records (.forget hw he fun _ _ ↦ Or.inl trivial) ha (fun _ ↦ rfl)
    fun hm ↦ ((hw.remembers_forgetting he).1 hm).2

/-- **A new userdata**, which may be remembered for a borrowed object. -/
theorem issues (hw : w.Sound R) (ha : w.AtRest) (hl : w.Leads R Set.univ w') (hi : w.Issues r w' id)
    (hlive : r.discarded = false) (hunowned : r.ownership = .borrowed → r.payload = none)
    (hremembers : ∀ {root id'}, w'.Remembers (.borrowed root) id' →
      w.Remembers (.borrowed root) id' ∨ id' = id ∧ r.Rests w.binding.registry root) :
    w.Undisturbed R w' where
  leads := hl
  atRest := by
    refine ⟨fun {root id' x} hm hx ↦ ?_, fun {id' x} hx ↦ ?_, fun {id' x} hx ↦ ?_⟩ <;>
      rw [hi.record?] at hx
    · rw [hl.registry]
      rcases hremembers hm with hold | ⟨rfl, hr⟩
      · rw [if_neg fun heq ↦ hw.not_remembers_of_record?_eq_none hi.fresh _ (heq ▸ hold)] at hx
        exact ha.rests hold hx
      · rw [if_pos rfl] at hx
        exact Option.some.inj hx ▸ hr
    · split at hx
      · exact Option.some.inj hx ▸ hunowned
      · exact ha.unowned hx
    · split at hx
      · rw [← Option.some.inj hx, hlive]
        exact fun h ↦ absurd h (by simp)
      · exact ha.spent hx
  kept {id' x} hx _ := by
    rw [hi.record?, if_neg]
    · exact hx
    · rintro rfl
      exact absurd (hi.fresh.symm.trans hx) (by simp)

/-- **A userdata has come to show a type**; it was one that had not been discarded if it did. -/
theorem reshown (ha : w.AtRest) (hl : w.Leads R Set.univ w') (hid : w.record? id = some r) {type : Nat}
    {target : Target} (hshown : Exec.Reshown w id r type target w') (htarget : target ≠ .discarded)
    (hlive : ∀ shown, r.type? = some shown → w.binding.registry.isBaseOf shown type = true →
      r.discarded = false) : w.Undisturbed R w' := by
  cases hshown with
  | kept same _ => exact .of_records hl ha (fun id ↦ by rw [same]) fun hm ↦ same ▸ hm
  | changed alters showed _ base =>
    have hlive := hlive _ showed base
    have hlive' : (Exec.shownAs r type target).discarded = false := decide_eq_false htarget
    refine ⟨hl, ⟨fun {root id' x} hm hx ↦ ?_, fun {id' x} hx ↦ ?_, fun {id' x} hx ↦ ?_⟩,
      fun {id' x} hx hd ↦ ?_⟩ <;> rw [alters.record?] at *
    · rw [hl.registry]
      have hold := (alters.remembers _ _).1 hm
      split at hx
      · rename_i heq
        obtain rfl := Option.some.inj hx
        have hrests := ha.rests hold (heq ▸ hid)
        exact ⟨hrests.ownership, hrests.key, type, rfl, fun h ↦ absurd (hlive'.symm.trans h) (by simp)⟩
      · exact ha.rests hold hx
    · split at hx
      · obtain rfl := Option.some.inj hx
        have hunowned := ha.unowned hid
        exact hunowned
      · exact ha.unowned hx
    · split at hx
      · rw [← Option.some.inj hx, hlive']
        exact fun h ↦ absurd h (by simp)
      · exact ha.spent hx
    · rw [if_neg]
      · exact hx
      · rintro rfl
        obtain rfl := Option.some.inj (hid.symm.trans hx)
        exact absurd (hlive.symm.trans hd) (by simp)

/-- **A record is discarded with what it owned**; its userdata is not remembered for a borrowed object any
more, unless it shows a weak type. -/
theorem discards (ha : w.AtRest) (hl : w.Leads R Set.univ w') (hid : w.record? id = some r)
    (hrecord : ∀ id', w'.record? id' =
      if id' = id then some { r.discard with payload := none } else w.record? id')
    (hremembers : ∀ {root id'}, w'.Remembers (.borrowed root) id' → w.Remembers (.borrowed root) id' ∧
      (id' = id → r.type?.any w.binding.registry.isWeak = true)) : w.Undisturbed R w' := by
  refine ⟨hl, ⟨fun {root id' x} hm hx ↦ ?_, fun {id' x} hx ↦ ?_, fun {id' x} hx ↦ ?_⟩,
    fun {id' x} hx hd ↦ ?_⟩ <;> rw [hrecord] at *
  · rw [hl.registry]
    obtain ⟨hold, hweak⟩ := hremembers hm
    split at hx
    · rename_i heq
      obtain rfl := Option.some.inj hx
      obtain ⟨hownership, hkey, type, he, -⟩ := ha.rests hold (heq ▸ hid)
      refine ⟨hownership, hkey, type, he, fun _ ↦ ?_⟩
      have hweak := hweak heq
      rwa [Record.type?_eq_some.2 he] at hweak
    · exact ha.rests hold hx
  · split at hx
    · rw [← Option.some.inj hx]
      exact fun _ ↦ rfl
    · exact ha.unowned hx
  · split at hx
    · rw [← Option.some.inj hx]
      exact fun _ ↦ rfl
    · exact ha.spent hx
  · split
    · rename_i heq
      obtain rfl := Option.some.inj (hid.symm.trans (heq ▸ hx))
      rw [Record.discard_eq hd (ha.spent hid hd)]
    · exact hx

/-- The finalizer of the bridge. -/
theorem finalize (hw : w.Sound R) (ha : w.AtRest) (hid : w.record? id = some r) :
    w.Undisturbed R (w.finalizing id r) := by
  refine .discards ha (.finalize hw hid) hid (fun id' ↦ ?_) fun {root id'} hm ↦ ?_
  · rw [finalizing]
    cases w.binding.cache.entryOf (r.cacheKey w.binding.registry) id with
    | some e => exact record?_modifyRecord (w := w.forgetting _ e) hid _ id'
    | none => exact record?_modifyRecord hid _ id'
  · have hold : w.Remembers (.borrowed root) id' ∧ (w.binding.cache.entryOf
        (r.cacheKey w.binding.registry) id = none ∨ r.cacheKey w.binding.registry ≠ .borrowed root) := by
      rw [finalizing] at hm
      cases he : w.binding.cache.entryOf (r.cacheKey w.binding.registry) id with
      | some e =>
        rw [he] at hm
        obtain ⟨hfind, -⟩ := (w.binding.cache.entryOf_eq_some).1 he
        obtain ⟨hne, hold⟩ := (hw.remembers_forgetting hfind).1 hm
        exact ⟨hold, Or.inr fun h ↦ hne h.symm⟩
      | none =>
        rw [he] at hm
        exact ⟨hm, Or.inl rfl⟩
    obtain ⟨hold, hkey⟩ := hold
    refine ⟨hold, ?_⟩
    rintro rfl
    obtain ⟨hownership, hroot, type, he, -⟩ := ha.rests hold hid
    rw [← (hw.binding.proper hid).standsForWeak]
    by_contra hstrong
    -- what shows a type that is not weak has the key of a borrowed object
    have hcacheKey : r.cacheKey w.binding.registry = .borrowed root := by
      simp only [Record.cacheKey, hownership, he, hstrong, hroot, if_false]
    obtain ⟨e, hfind, huserdata, -⟩ := hold
    rcases hkey with hnone | hne
    · rw [hcacheKey] at hnone
      exact absurd (hnone.symm.trans ((w.binding.cache.entryOf_eq_some).2 ⟨hfind, huserdata⟩)) (by simp)
    · exact hne hcacheKey

end Undisturbed

end World

namespace Exec

variable {R : Realm} {w : World} {v : View} {id : Nat} {r : Record}

/-! ### Recalling and remembering -/

/-- A userdata that does not fit is taken off the stack again. It is discarded only if it stood for a
borrowed object, and then it owned nothing. -/
theorem Unfit.undisturbed (hw : w.Sound R) (ha : w.AtRest) {k : CacheKey} {e : CacheEntry} {w' : World}
    (hunfit : Unfit Set.univ k e.userdata (w.pushing (.userdata e.userdata)) w')
    (he : w.binding.cache.find? k = some e) (hm : w.Remembers k e.userdata)
    (hkey : w' = w.pushing (.userdata e.userdata) ∨ ∃ root, k = .borrowed root) :
    w.Undisturbed R (w'.dismissing k e) := by
  have hl := hunfit.leads hw he hm
  have hq : w.Quiet { w with
      binding.machine := (w.binding.machine.push (.userdata e.userdata)).pop 1 } :=
    World.Quiet.of_heap rfl rfl
  have hpopped := World.Undisturbed.quiet hw ha hq
  have hforgot {k' : CacheKey} {id : Nat} (h : (World.forgetting _ k e).Remembers k' id) :
      k' ≠ k ∧ w.Remembers k' id :=
    ((hpopped.sound.remembers_forgetting he).1 h).imp_right hq.remembers.1
  rcases hunfit with ⟨rfl, -⟩ | ⟨rfl, r, hr⟩
  · exact .of_records hl ha (fun _ ↦ rfl) fun h ↦ (hforgot h).2
  · rcases hkey with hsame | ⟨root, rfl⟩
    · rw [hsame] at hl ⊢
      exact .of_records hl ha (fun _ ↦ rfl) fun h ↦ (hforgot h).2
    have hid : w.record? e.userdata = some r := hr
    have hdiscard : { r.discard with payload := none } = r.discard := by
      rw [Record.discard, ha.unowned hid (ha.rests hm hid).ownership]
    refine .discards ha hl hid (fun id' ↦ ?_) fun h ↦ ?_
    · rw [hdiscard]
      exact World.record?_modifyRecord hid Record.discard id'
    · obtain ⟨hne, hold⟩ := hforgot h
      refine ⟨hold, ?_⟩
      rintro rfl
      exact absurd (hw.shelf.key_unique hold hm) hne

/-- **Recalling a userdata disturbs nothing** if asking whether it fits does not. -/
theorem undisturbed_retrieve (hw : w.Sound R) (ha : w.AtRest) {k : CacheKey} {f : Nat → Exec Bool}
    (hfits : ∀ id, w.Remembers k id → Ends (f id)
      (fun ok w' ↦ (ok = true ∧ (w.pushing (.userdata id)).Undisturbed R w') ∨
        (ok = false ∧ Unfit Set.univ k id (w.pushing (.userdata id)) w' ∧
          (w' = w.pushing (.userdata id) ∨ ∃ root, k = .borrowed root)))
      (fun _ _ ↦ False) (w.pushing (.userdata id))) :
    Ends (retrieve k f) (fun _ w' ↦ w.Undisturbed R w') (fun _ _ ↦ False) w := by
  refine ends_retrieve hw (fun _ ↦ .refl hw ha) (fun e he _ ↦ .forget hw ha he) fun e he hm ↦ ?_
  refine (hfits e.userdata hm).imp (fun ok w' hok ↦ ?_) fun _ _ h ↦ h
  rcases hok with ⟨rfl, h⟩ | ⟨rfl, hunfit, hkey⟩
  · exact ⟨fun _ ↦ ((World.Undisturbed.refl hw ha).pushing _).trans h, fun h ↦ absurd h (by simp)⟩
  · exact ⟨fun h ↦ absurd h (by simp), fun _ ↦ hunfit.undisturbed hw ha he hm hkey⟩

/-- A userdata that fits whatever it is. -/
theorem undisturbed_retrieve_any (hw : w.Sound R) (ha : w.AtRest) (k : CacheKey) :
    Ends (retrieve k fun _ ↦ return true) (fun _ w' ↦ w.Undisturbed R w') (fun _ _ ↦ False) w :=
  undisturbed_retrieve hw ha fun id _ ↦ by
    have hpushed := (World.Undisturbed.refl hw ha).pushing (.userdata id)
    exact Or.inl ⟨rfl, .refl hpushed.sound hpushed.atRest⟩

/-- A userdata that has the handle of a weak object has not been discarded. -/
theorem undisturbed_rejoin (hw : w.Sound R) (ha : w.AtRest) (hid : w.record? id = some r) {h : Handle}
    {type : Nat} (hweak : w.binding.registry.isWeak type = true)
    (hlt : h.serial < w.weakTable.nextSerial) :
    Ends (rejoin id h type)
      (fun ok w' ↦ (ok = true ∧ w.Undisturbed R w') ∨ (ok = false ∧ w' = w))
      (fun _ _ ↦ False) w := by
  refine (ends_rejoin (K := Set.univ) hw hid hweak hlt).imp (fun ok w' hok ↦ ?_) fun _ _ h ↦ h
  rcases hok with ⟨rfl, htarget, hl, hshown⟩ | ⟨rfl, rfl, -⟩
  · refine Or.inl ⟨rfl, .reshown ha hl hid hshown (by simp) fun _ _ _ ↦ ?_⟩
    rw [Record.discarded, htarget]
    rfl
  · exact Or.inr ⟨rfl, rfl⟩

/-- A userdata that has been discarded is not switched to a type that is not weak: it shows a weak one.
-/
theorem undisturbed_reuse (hw : w.Sound R) (ha : w.AtRest) (hid : w.record? id = some r)
    (hweak : w.binding.registry.isWeak v.type = false)
    (hm : w.Remembers (.borrowed (w.rootOf v)) id) :
    Ends (reuse id v)
      (fun ok w' ↦ (ok = true ∧ w.Undisturbed R w') ∨
        (ok = false ∧ Unfit Set.univ (.borrowed (w.rootOf v)) id w w'))
      (fun _ _ ↦ False) w := by
  obtain ⟨x, hx, hfits⟩ := hw.shelf.recorded hm
  obtain rfl := Option.some.inj (hid.symm.trans hx)
  refine (ends_reuse (K := Set.univ) hw hid hweak fun hroots ↦ hfits hroots).imp (fun ok w' hok ↦ ?_)
    fun _ _ h ↦ h
  rcases hok with ⟨rfl, -, hl, hshown⟩ | ⟨rfl, hunfit, -⟩
  · refine Or.inl ⟨rfl, .reshown ha hl hid hshown (by simp) fun shown hshows hbase ↦ ?_⟩
    by_contra hdiscarded
    obtain ⟨-, -, type, he, hdead⟩ := ha.rests hm hid
    obtain rfl := Option.some.inj (hshows.symm.trans (Record.type?_eq_some.2 he))
    have hderived := hw.registrySound.isWeak_of_isBaseOf hbase (hdead (by simpa using hdiscarded))
    exact absurd (hderived.symm.trans hweak) (by simp)
  · exact Or.inr ⟨rfl, hunfit⟩

/-- **A new userdata disturbs nothing.** -/
theorem undisturbed_pushNew (hw : w.Sound R) (ha : w.AtRest) {k : CacheKey} (hissue : Issuable w r)
    (hfits : k.Faithful w.binding.registry → r.Fits w.binding.registry k) (hlive : r.discarded = false)
    (hunowned : r.ownership = .borrowed → r.payload = none)
    (hrests : ∀ root, k = .borrowed root → r.Rests w.binding.registry root) (metatable : Option Nat) :
    Ends (pushNew k r metatable) (fun _ w' ↦ w.Undisturbed R w') (fun _ w' ↦ w.Undisturbed R w') w := by
  refine (keeps_pushNew (K := Set.univ) hw hissue hfits (fun _ _ ↦ trivial) (fun _ _ ↦ trivial)
    metatable).imp (fun _ w' h ↦ ?_) fun _ w' h ↦ ?_
  · obtain ⟨hl, id, hissues, hremembers⟩ := h
    refine .issues hw ha hl hissues hlive hunowned fun {root id'} hm ↦ ?_
    exact ((hremembers _ _).1 hm).elim (fun h ↦ Or.inr ⟨h.2, hrests root h.1.symm⟩) fun h ↦ Or.inl h.2
  · obtain ⟨hl, ⟨id, hissues, hremembers⟩, -⟩ := h
    exact .issues hw ha hl hissues hlive hunowned fun hm ↦ Or.inl ((hremembers _ _).1 hm)

/-! ### Pushes -/

theorem undisturbed_pushWeak (hw : w.Sound R) (ha : w.AtRest)
    (hweak : w.binding.registry.isWeak v.type = true) (hsingle : w.Single v) :
    Ends (pushWeak v) (fun _ w' ↦ w.Undisturbed R w') (fun _ w' ↦ w.Undisturbed R w') w := by
  simp only [pushWeak, ends_bind, ends_binding]
  refine (ends_weakHandle (K := Set.univ) hw hweak hsingle).imp (fun h? w₁ hgiven ↦ ?_)
    fun _ _ h ↦ h.elim
  obtain ⟨hl, h, rfl, hseated⟩ := hgiven
  have h₁ : w.Undisturbed R w₁ := .of_records hl ha hseated.record? hseated.remembers.1
  have hweak₁ : w₁.binding.registry.isWeak v.type = true := by rwa [hl.registry]
  have hlt := hseated.handle.serial_lt h₁.sound
  simp only
  split
  · exact h₁.pushing _
  · simp only [ends_bind]
    refine (undisturbed_retrieve h₁.sound h₁.atRest fun id hm ↦ ?_).imp (fun found w₂ h₂ ↦ ?_)
      fun _ _ h ↦ h.elim
    · obtain ⟨r, hid, -⟩ := h₁.sound.shelf.recorded hm
      have hpushed := (World.Undisturbed.refl h₁.sound h₁.atRest).pushing (.userdata id)
      refine (undisturbed_rejoin hpushed.sound hpushed.atRest hid hweak₁ hlt).imp (fun ok w' hok ↦ ?_)
        fun _ _ h ↦ h
      exact hok.imp_right fun h ↦ ⟨h.1, Or.inl ⟨h.2, Or.inl trivial⟩, Or.inl h.2⟩
    · cases found with
      | true => exact h₁.trans h₂
      | false =>
        simp only [Bool.false_eq_true, if_false, ends_bind, ends_typeMetatable]
        have hweak₂ : w₂.binding.registry.isWeak v.type = true := by rwa [h₂.leads.registry]
        have hfollows := h₂.leads.weakTable_follows
        have hlt₂ : h.serial < w₂.weakTable.nextSerial := Nat.lt_of_lt_of_le hlt hfollows.nextSerial_le
        exact (undisturbed_pushNew h₂.sound h₂.atRest (issuable_handle hweak₂ hlt₂ _)
          (fits_weak _ h v.type) rfl (fun _ ↦ rfl) (fun _ ↦ by simp) _).imp
            (fun _ _ h ↦ (h₁.trans h₂).trans h) fun _ _ h ↦ (h₁.trans h₂).trans h

theorem undisturbed_pushBorrowed (hw : w.Sound R) (ha : w.AtRest)
    (hweak : w.binding.registry.isWeak v.type = false) :
    Ends (pushBorrowed v (w.rootOf v)) (fun _ w' ↦ w.Undisturbed R w')
      (fun _ w' ↦ w.Undisturbed R w') w := by
  simp only [pushBorrowed, ends_bind, ends_binding]
  split
  · exact (World.Undisturbed.refl hw ha).pushing _
  · simp only [ends_bind]
    refine (undisturbed_retrieve hw ha fun id hm ↦ ?_).imp (fun found w₁ h₁ ↦ ?_) fun _ _ h ↦ h.elim
    · obtain ⟨r, hid, -⟩ := hw.shelf.recorded hm
      have hpushed := (World.Undisturbed.refl hw ha).pushing (.userdata id)
      refine (undisturbed_reuse hpushed.sound hpushed.atRest hid hweak hm).imp (fun ok w' hok ↦ ?_)
        fun _ _ h ↦ h
      exact hok.imp_right fun h ↦ ⟨h.1, h.2, Or.inr ⟨_, rfl⟩⟩
    · cases found with
      | true => exact h₁
      | false =>
        simp only [Bool.false_eq_true, if_false, ends_bind, ends_typeMetatable]
        have hweak₁ : w₁.binding.registry.isWeak v.type = false := by rwa [h₁.leads.registry]
        refine (undisturbed_pushNew h₁.sound h₁.atRest (issuable_pointer _ _ _ _ _ _)
          (fun _ ↦ fits_borrowed hweak₁ _ _) rfl (fun _ ↦ rfl) (fun root hk ↦ ?_) _).imp
            (fun _ _ h ↦ h₁.trans h) fun _ _ h ↦ h₁.trans h
        exact ⟨rfl, CacheKey.borrowed.inj hk, v.type, rfl, fun h ↦ absurd h (by simp [Record.discarded])⟩

/-- **Pushing an object disturbs nothing.** -/
theorem undisturbed_pushView (hw : w.Sound R) (ha : w.AtRest)
    (hsingle : w.binding.registry.isWeak v.type = true → w.Single v) :
    Ends (pushView v) (fun _ w' ↦ w.Undisturbed R w') (fun _ w' ↦ w.Undisturbed R w') w := by
  have hundisturbed {w₁ : World} (h : w.Unclaimed v w₁) : w.Undisturbed R w₁ := by
    rcases h.forgot with rfl | ⟨e, he, rfl⟩
    · exact .refl hw ha
    · exact .forget hw ha he
  refine ends_pushView_cases hw (fun id _ ↦ (World.Undisturbed.refl hw ha).pushing _)
    (fun w₁ h hweak ↦ ?_) fun w₁ h hweak ↦ ?_
  · have h₁ := hundisturbed h
    exact (undisturbed_pushWeak h₁.sound h₁.atRest ((h.isWeak_eq _).trans hweak)
      (h.single (hsingle hweak))).imp (fun _ _ h ↦ h₁.trans h) fun _ _ h ↦ h₁.trans h
  · have h₁ := hundisturbed h
    exact (undisturbed_pushBorrowed h₁.sound h₁.atRest ((h.isWeak_eq _).trans hweak)).imp
      (fun _ _ h ↦ h₁.trans h) fun _ _ h ↦ h₁.trans h

theorem undisturbed_pushPointer (hw : w.Sound R) (ha : w.AtRest) (a : Option Address) (t : TypeKey)
    (hsingle : ∀ a' type, a = some a' → w.binding.registry.idOf? t = some type →
      w.binding.registry.isWeak type = true → w.Single ⟨a', type⟩) :
    Ends (pushPointer a t) (fun _ w' ↦ w.Undisturbed R w') (fun _ w' ↦ w.Undisturbed R w') w := by
  cases a with
  | none => exact (World.Undisturbed.refl hw ha).pushing .nil
  | some a =>
    simp only [pushPointer]
    exact ends_exportedType (World.Undisturbed.refl hw ha) fun type htype ↦
      undisturbed_pushView hw ha (hsingle a type rfl htype)

/-- Pushing an object that belongs to its userdata. -/
theorem undisturbed_pushOwned (hw : w.Sound R) (ha : w.AtRest) (t : TypeKey) (a : Address) :
    Ends (pushOwned t a) (fun _ w' ↦ w.Undisturbed R w') (fun _ w' ↦ w.Undisturbed R w') w := by
  rw [pushOwned]
  refine ends_exportedType (World.Undisturbed.refl hw ha) fun type _ ↦ ?_
  simp only [ends_bind, ends_binding, ends_typeMetatable]
  refine Ends.imp (keeps_pushRecord (K := Set.univ) hw (issuable_pointer _ _ _ _ _ _) _)
    (fun id w₁ hpush ↦ ?_) fun _ _ h ↦ h.elim
  obtain ⟨hl, hissues, hremembers⟩ := hpush
  have h₁ : w.Undisturbed R w₁ := .issues hw ha hl hissues rfl (fun h ↦ absurd h (by simp)) fun hm ↦
    Or.inl ((hremembers _ _).1 hm)
  simp only [ends_bind, ends_host]
  split
  · have hnew : ∀ k', ¬ w₁.Remembers k' id := fun k' h ↦
      hw.not_remembers_of_record?_eq_none hissues.fresh k' ((hremembers k' id).1 h)
    refine (keeps_enrol (K := Set.univ) h₁.sound hissues.record hnew (fun _ ↦ fits_owned _ _ _ _ _)
      (fun _ _ ↦ trivial) (fun _ _ ↦ trivial)).imp (fun _ w' h ↦ ?_) fun _ w' h ↦ ?_
    · obtain ⟨hl', -, -, hrecords, hremembers'⟩ := h
      exact h₁.trans (.of_records hl' h₁.atRest hrecords fun hm ↦
        ((hremembers' _ _).1 hm).elim (fun h ↦ absurd h.1 (by simp)) fun h ↦ h.2)
    · obtain ⟨hl', -, -, hrecords, hremembers', -⟩ := h
      exact h₁.trans (.of_records hl' h₁.atRest hrecords fun hm ↦ (hremembers' _ _).1 hm)
  · exact h₁

theorem undisturbed_pushShare (hw : w.Sound R) (ha : w.AtRest) (block : Nat) :
    Ends (pushShare block) (fun _ w' ↦ w.Undisturbed R w') (fun _ w' ↦ w.Undisturbed R w') w := by
  rw [pushShare, ends_bind, ends_host]
  generalize (w.host.blocks[block]?).getD default = b
  refine ends_exportedType (World.Undisturbed.refl hw ha) fun type _ ↦ ?_
  simp only [ends_bind, ends_registry]
  refine (undisturbed_retrieve hw ha fun id _ ↦ ends_ownsLike _ _ fun ok ↦ ?_).imp
    (fun found w₁ h₁ ↦ ?_) fun _ _ h ↦ h.elim
  · have hpushed := (World.Undisturbed.refl hw ha).pushing (.userdata id)
    cases ok with
    | true => exact Or.inl ⟨rfl, .refl hpushed.sound hpushed.atRest⟩
    | false => exact Or.inr ⟨rfl, Or.inl ⟨rfl, Or.inl trivial⟩, Or.inl rfl⟩
  · cases found with
    | true => exact h₁
    | false =>
      simp only [Bool.false_eq_true, if_false, ends_bind, ends_typeMetatable]
      exact (undisturbed_pushNew h₁.sound h₁.atRest (issuable_pointer _ _ _ _ _ _)
        (fun _ ↦ fits_shared _ _ _ _ _) rfl (fun h ↦ absurd h (by simp)) (fun _ ↦ by simp) _).imp
          (fun _ _ h ↦ h₁.trans h) fun _ _ h ↦ h₁.trans h

theorem undisturbed_pushOwnedContainer (hw : w.Sound R) (ha : w.AtRest) (kind : ContainerKind)
    (a : Address) : Ends (pushOwnedContainer kind a) (fun _ w' ↦ w.Undisturbed R w')
      (fun _ w' ↦ w.Undisturbed R w') w := by
  simp only [pushOwnedContainer, ends_bind, ends_binding]
  exact undisturbed_pushNew hw ha (issuable_pointer _ _ _ _ _ _)
    (fun _ ↦ fits_container _ _ _ (by simp) _) rfl (fun h ↦ absurd h (by simp)) (fun _ ↦ by simp) _

theorem undisturbed_pushContainer (hw : w.Sound R) (ha : w.AtRest) (kind : ContainerKind)
    (a : Option Address) : Ends (pushContainer kind a) (fun _ w' ↦ w.Undisturbed R w')
      (fun _ w' ↦ w.Undisturbed R w') w := by
  cases a with
  | none => exact (World.Undisturbed.refl hw ha).pushing .nil
  | some a =>
    simp only [pushContainer, ends_bind]
    refine (undisturbed_retrieve_any hw ha (.container a kind)).imp (fun found w₁ h₁ ↦ ?_)
      fun _ _ h ↦ h.elim
    cases found with
    | true => exact h₁
    | false =>
      simp only [Bool.false_eq_true, if_false, ends_bind, ends_binding]
      exact (undisturbed_pushNew h₁.sound h₁.atRest (issuable_pointer _ _ _ _ _ _)
        (fun _ ↦ fits_container _ _ _ (by simp) _) rfl (fun _ ↦ rfl) (fun _ ↦ by simp) _).imp
          (fun _ _ h ↦ h₁.trans h) fun _ _ h ↦ h₁.trans h

/-! ### Casts -/

/-- **A cast down disturbs nothing**: it makes userdata show another type only if they lead to an
object. -/
theorem undisturbed_downcast (hw : w.Sound R) (ha : w.AtRest) {x y : Value} {target : Nat} {a : Address}
    {w' : World} (h : w.Downcast R Set.univ v target a x y w') : w.Undisturbed R w' := by
  cases h with
  | address => exact World.Undisturbed.refl hw ha
  | handle _ _ leads seated _ => exact .of_records leads ha seated.record? seated.remembers.1
  | pointer _ switched =>
    exact .reshown ha switched.leads switched.record switched.reshown (by simp) fun _ _ _ ↦
      decide_eq_false switched.ne_discarded
  | weak _ _ leads seated switched =>
    have h₁ : w.Undisturbed R _ := .of_records leads ha seated.record? seated.remembers.1
    exact h₁.trans (.reshown h₁.atRest switched.leads switched.record switched.reshown (by simp)
      fun _ _ _ ↦ decide_eq_false switched.ne_discarded)

theorem undisturbed_cast (hw : w.Sound R) (ha : w.AtRest) (idx : Int) (target : Nat)
    (hsingle : ∀ v a, w.resolve (w.binding.machine.valueAt idx) = .live v →
      w.binding.registry.toDerived? w.host.memory v target = some a →
      w.binding.registry.isWeak target = true → w.Single ⟨a, target⟩) :
    Ends (cast idx target) (fun _ w' ↦ w.Undisturbed R w') (fun _ w' ↦ w.Undisturbed R w') w := 
  ends_cast_of hw idx target hsingle (.refl hw ha)
    (fun hl hseated ↦ .of_records hl ha hseated.record? hseated.remembers.1)
    (fun _ _ _ h ↦ undisturbed_downcast hw ha h) fun y h ↦ h.pushing y

/-! ### Finalizers and cycles -/

/-- The finalizer of the bridge disturbs nothing, whatever it is called on. -/
theorem undisturbed_finalize {w₁ : World} (h : w.Undisturbed R w₁) :
    Ends finalize (fun _ w' ↦ w.Undisturbed R w') (fun _ w' ↦ w.Undisturbed R w') w₁ :=
  (ends_finalize (I := w.Undisturbed R) h (fun hid ↦ h.trans (.finalize h.sound h.atRest hid))
    fun p h' ↦ h'.trans (.host h'.sound h'.atRest (Host.Evolves.lasting.dropPayload _ p))).imp
      (fun _ _ h ↦ h) fun _ _ h ↦ h.elim

end Exec

namespace World

variable {R : Realm} {w w' : World}

/-- What leaves discarded userdata undisturbed goes on doing so through what does not matter to the
bridge. -/
theorem steady_undisturbed (R : Realm) (w : World) : Steady R (w.Undisturbed R) where
  sound h := h.sound
  quiet hq _ h := h.trans (.quiet h.sound h.atRest hq)

/-- **What an event leaves of what has been discarded**: the same records, as far as their userdata are
still there. -/
structure Respects (w w' : World) : Prop where
  atRest : w'.AtRest
  kept : ∀ {id r r'}, w.record? id = some r → r.discarded = true → w'.record? id = some r' → r' = r

theorem Undisturbed.respects (h : w.Undisturbed R w') : w.Respects w' where
  atRest := h.atRest
  kept hr hd hr' := Option.some.inj (hr'.symm.trans (h.kept hr hd))

/-- A step that changes nothing of the binding. -/
theorem AtRest.respects (ha : w.AtRest) (hbinding : w'.binding = w.binding) : w.Respects w' := by
  have hrecord (id : Nat) : w'.record? id = w.record? id := by rw [record?, record?, hbinding]
  refine ⟨ha.lose (by rw [hbinding]) (fun hr ↦ (hrecord _).symm.trans hr) fun hm ↦ ?_,
    fun {id r r'} hr _ hr' ↦ ?_⟩
  · rwa [Remembers, hbinding] at hm
  · exact Option.some.inj (hr'.symm.trans ((hrecord id).trans hr))

/-- A cycle of the collector loses records only. -/
theorem respects_thin (hw : w.Sound R) (ha : w.AtRest) {m : Machine} (h : w.Thinned m) :
    w.Respects (w.withBinding m w.binding.cache) where
  atRest := ha.lose rfl (fun hr ↦ h.record?_eq_some hr) fun hm ↦ hw.remembers_of_thinned h hm
  kept hr _ hr' := Option.some.inj ((h.record?_eq_some hr').symm.trans hr)

end World

namespace Exec

variable {R : Realm} {w : World}

/-- **A cycle of the collector respects what has been discarded**, complete or not. -/
theorem respects_sweep (hw : w.Sound R) (ha : w.AtRest) :
    Ends sweep (fun _ w' ↦ w.Respects w') (fun _ w' ↦ w.Respects w') w := by
  have hflush : w.Undisturbed R (flushed w) := .quiet hw ha (quiet_flushed hw)
  refine ends_sweep_of_thins (I := w.Respects) (fun hthins ↦ ?_) fun us h ↦ ?_
  · have hthin := World.respects_thin hflush.sound hflush.atRest hthins
    exact ⟨hthin.atRest, fun hr hd hr' ↦ hthin.kept (hflush.kept hr hd) hd hr'⟩
  · exact ⟨h.atRest.lose rfl (fun hr ↦ hr) fun hm ↦ hm, h.kept⟩

end Exec

namespace Event

variable {R : Realm} {w : World}

/-- **Every event respects what has been discarded**, whether or not it is interrupted. -/
theorem ends_respects (o : Event) (hw : w.Sound R) (ha : w.AtRest) (ho : o.Allowed w) :
    Exec.Ends o.perform (fun _ w' ↦ w.Respects w') (fun _ w' ↦ w.Respects w') w := by
  have hundisturbed : ∀ {α : Type} {x : Exec α},
      Exec.Ends x (fun _ w' ↦ w.Undisturbed R w') (fun _ w' ↦ w.Undisturbed R w') w →
        Exec.Ends x (fun _ w' ↦ w.Respects w') (fun _ w' ↦ w.Respects w') w := fun {_ _} h ↦
    h.imp (fun _ _ h ↦ h.respects) fun _ _ h ↦ h.respects
  have hdiscard : ∀ {α : Type} {x : Exec α} {P : World → Prop},
      Exec.Ends x (fun _ ↦ P) (fun _ ↦ P) w →
        Exec.Ends (do let _ ← x; return) (fun _ ↦ P) (fun _ ↦ P) w := fun {_ _ _} h ↦ by
    rw [Exec.ends_bind]
    exact h
  have hrefl := World.Undisturbed.refl hw ha
  cases o with
  | pushPointer a t => exact hundisturbed (Exec.undisturbed_pushPointer hw ha a t ho)
  | pushOwned t a => exact hundisturbed (Exec.undisturbed_pushOwned hw ha t a)
  | pushShare block => exact hdiscard (hundisturbed (Exec.undisturbed_pushShare hw ha block))
  | pushContainer kind a => exact hundisturbed (Exec.undisturbed_pushContainer hw ha kind a)
  | pushOwnedContainer kind a => exact hundisturbed (Exec.undisturbed_pushOwnedContainer hw ha kind a)
  | cast idx target => exact hundisturbed (Exec.undisturbed_cast hw ha idx target ho)
  | finalize => exact hdiscard (hundisturbed (Exec.undisturbed_finalize hrefl))
  | sweep => exact hdiscard (Exec.respects_sweep hw ha)
  | runFinalizer fuel id =>
    refine hundisturbed (Exec.steady_runFinalizer (World.steady_undisturbed R w) hrefl rfl fun hne ↦
      ⟨_, ho hne, fun w₁ h₁ ↦ ?_⟩)
    rw [Exec.runner_builtin]
    exact Exec.undisturbed_finalize h₁
  | detach cell => exact ha.respects rfl
  | destroy t a => exact ha.respects rfl
  | dropOwner block => exact ha.respects rfl

theorem respects (o : Event) (hw : w.Sound R) (ha : w.AtRest) (ho : o.Allowed w) :
    w.Respects (o.after w) :=
  (o.ends_respects hw ha ho).world

end Event

end ObjectBridge
