import ObjectBridge.Proofs.Accuracy
import ObjectBridge.Proofs.Frames

/-!
# Steps that keep records accurate

What the bridge does with a userdata keeps records accurate. A userdata can be recalled from the
identity cache (`advances_retrieve`), after it has been asked whether it stands for a weak object
(`advances_rejoin`) or for a borrowed one (`advances_reuse`), and there may be a new one
(`advances_pushNew`). In each case it comes down to the record of the userdata, which may come to
show a more derived type (`Record.Accurate.shownAs`).
-/

namespace ObjectBridge

/-- What was pushed last is taken off again. -/
theorem Machine.stack_pop_push {m : Machine} (hm : m.base ≤ m.stack.size) (v : Value) :
    ((m.push v).pop 1).stack = m.stack := by
  have htop : (m.push v).top - 1 = m.stack.size - m.base := by
    show (m.stack.push v).size - m.base - 1 = _
    rw [Array.size_push]
    omega
  have hbase : m.base + (m.stack.size - m.base) = m.stack.size := by omega
  rw [pop, htop]
  show ((m.push v).resize (m.base + (m.stack.size - m.base))).stack = m.stack
  rw [hbase]
  refine Array.ext_getElem? fun i ↦ ?_
  rw [getElem?_resize]
  show (if i < m.stack.size then some ((m.stack.push v)[i]?.getD .nil) else none) = m.stack[i]?
  split
  · rename_i hi
    rw [Array.getElem?_push_lt hi, Array.getElem?_eq_getElem hi, Option.getD_some]
  · rename_i hi
    rw [Array.getElem?_eq_none (by omega)]

namespace Record

variable {w : World} {exact : Prop} {r : Record} {type : Nat} {target : Target}

/-- **A record that shows a more derived type is accurate** if its target is in order, and if it
does not own its object; one that is to be exact may not be a share. -/
theorem Accurate.shownAs (ha : r.Accurate w exact) (hs : w.binding.registry.Sound) {shown : Nat}
    (hshown : r.type? = some shown) (hbase : w.binding.registry.isBaseOf shown type = true)
    (howned : r.ownership ≠ .owned) (hshare : exact → ∀ block, r.payload ≠ some (.share block))
    (hplaced : ∀ {a}, target = .pointer a → w.rootOf ⟨a, type⟩ = r.key)
    (hderived : ∀ {h u}, target = .weak h → w.weakTable.Holds h.index h.serial u →
      w.binding.registry.isBaseOf u.type type = true → u.type = type) :
    (Exec.shownAs r type target).Accurate w exact where
  placed he ht := by
    obtain rfl := Exposed.declared.inj he
    exact hplaced ht
  derived he ht hu hless := by
    obtain rfl := Exposed.declared.inj he
    exact hderived ht hu hless
  payload {p} hp := by
    have hpresents := ha.payload hp
    cases p with
    | object t a | container kind a => exact absurd hpresents.1 howned
    | share block =>
      obtain ⟨hownership, b, btype, shown', hb, hbtype, he, hline, -⟩ := hpresents
      obtain rfl := Option.some.inj (hshown.symm.trans (type?_eq_some.2 he))
      exact ⟨hownership, b, btype, type, hb, hbtype, rfl, hs.isBaseOf_trans hline hbase,
        fun hx ↦ absurd hp (hshare hx block)⟩

theorem Lodged.shownAs {root : Address} (hl : r.Lodged w root)
    (hslot : ∀ {h u}, target = .weak h → w.weakTable.Holds h.index h.serial u → w.rootOf u = root) :
    (Exec.shownAs r type target).Lodged w root where
  ownership := hl.ownership
  key := hl.key
  exposes := ⟨type, rfl⟩
  slot ht hu := hslot ht hu

end Record

namespace World

variable {R : Realm} {X : Set Nat} {w w' : World} {v : View} {h : Handle} {id : Nat} {r : Record}

/-- **The record of a userdata is discarded**, and with it what it owns, if it owns anything. -/
theorem Accurate.discard (ha : w.Accurate X) (hg : w.SameGround w') (hid : w.record? id = some r)
    {p : Option Payload} (hp : p = none)
    (hrecord : ∀ id', w'.record? id' =
      if id' = id then some { r.discard with payload := p } else w.record? id')
    (hremembers : ∀ {k id'}, w'.Remembers k id' → w.Remembers k id') : w'.Accurate X := by
  refine ha.change hg (fun {id' x} hx ↦ ?_) fun {root id'} hm ↦ ?_
  · rw [hrecord] at hx
    split at hx
    · obtain rfl := Option.some.inj hx
      exact Or.inr (Record.accurate_discard hp)
    · exact Or.inl hx
  · obtain ⟨x, hx, hl⟩ := ha.lodged (hremembers hm)
    rw [hrecord]
    split
    · rename_i heq
      obtain rfl := Option.some.inj (hid.symm.trans (heq ▸ hx))
      exact ⟨_, rfl, hl.discard p⟩
    · exact ⟨x, hx, hl⟩

/-- **A userdata has come to show a type**, and its record is accurate and one of the object that
the userdata is remembered for. -/
theorem Advances.reshown (hl : w.Leads R Set.univ w') (ha : w.Accurate X)
    (hid : w.record? id = some r)
    {type : Nat} {target : Target} (hshown : Exec.Reshown w id r type target w')
    (hr : ∀ shown, r.type? = some shown → w.binding.registry.isBaseOf shown type = true →
      (Exec.shownAs r type target).Accurate w (id ∈ X))
    (hlodged : ∀ {root}, w.Remembers (.borrowed root) id → r.Lodged w root →
      (Exec.shownAs r type target).Lodged w root) : w.Advances R X w' := by
  refine hl.advances hshown.host ?_
  cases hshown with
  | kept same _ => exact same ▸ ha
  | changed alters showed _ base =>
    refine alters.accurate ha (hl.sameGround alters.host) (hr _ showed base) fun hm hx hlodgedx ↦ ?_
    obtain rfl := Option.some.inj (hid.symm.trans hx)
    exact hlodged hm hlodgedx

/-- **A weak object is given a handle.** -/
theorem Seated.advances (hs : w.Seated R v h w') (hl : w.Leads R Set.univ w') (hw : w.Sound R)
    (ha : w.Accurate X) : w.Advances R X w' :=
  ⟨hl, ha.host hw hs.binding hl.follows hs.grows
    (hl.isSome_weakTable? _ hw.binding.isSome_weakTable?), hs.grows⟩

/-- **A key has been vacated**: nothing is remembered under it, and host and stack are as before. -/
structure Vacated (w : World) (k : CacheKey) (w' : World) : Prop where
  gone : ∀ id, ¬ w'.Remembers k id
  host : w'.host = w.host
  stack : w.binding.machine.base ≤ w.binding.machine.stack.size →
    w'.binding.machine.stack = w.binding.machine.stack

end World

namespace Exec

variable {R : Realm} {X : Set Nat} {w : World} {v : View}

/-- A userdata that does not fit is taken off the stack again. -/
theorem Unfit.advances (hw : w.Sound R) (ha : w.Accurate X) {k : CacheKey} {e : CacheEntry}
    {w' : World} (hunfit : Unfit Set.univ k e.userdata (w.pushing (.userdata e.userdata)) w')
    (he : w.binding.cache.find? k = some e) (hm : w.Remembers k e.userdata)
    (hpayload : w' = w.pushing (.userdata e.userdata) ∨
      ∀ r, w.record? e.userdata = some r → r.payload = none) :
    w.Advances R X (w'.dismissing k e) := by
  have hleads := hunfit.leads hw he hm
  have hq : w.Quiet { w with
      binding.machine := (w.binding.machine.push (.userdata e.userdata)).pop 1 } :=
    World.Quiet.of_heap rfl rfl
  have hpopped := World.Advances.quiet hw ha hq rfl
  have hforgot := hpopped.trans (.forget hpopped.sound hpopped.accurate he)
  rcases hpayload with rfl | hpayload
  · exact hforgot
  rcases hunfit with ⟨rfl, -⟩ | ⟨rfl, r, hr⟩
  · exact hforgot
  · -- what has been forgotten is not a matter of records
    have hpushed : (w.pushing (.userdata e.userdata)).record? e.userdata = some r := hr
    have hforgotten : (World.forgetting _ k e).record? e.userdata = some r := hr
    exact hleads.advances rfl (hforgot.accurate.discard ⟨rfl, rfl, rfl⟩ hforgotten (hpayload r hr)
      (World.record?_modifyRecord hpushed Record.discard) fun hm' ↦ hm')

/-- **Recalling a userdata keeps records accurate** if asking whether it fits does. If it is not
recalled, its key has been vacated. -/
theorem advances_retrieve (hw : w.Sound R) (ha : w.Accurate X) {k : CacheKey}
    {f : Nat → Exec Bool} {U : Nat → Prop} {P : Nat → World → Prop}
    (hfits : ∀ id, w.Remembers k id → Ends (f id)
      (fun ok w' ↦ (ok = true ∧ (w.pushing (.userdata id)).Advances R X w' ∧ P id w') ∨
        (ok = false ∧ Unfit Set.univ k id (w.pushing (.userdata id)) w' ∧
          (w' = w.pushing (.userdata id) ∨ ∀ r, w.record? id = some r → r.payload = none) ∧ U id))
      (fun _ _ ↦ False) (w.pushing (.userdata id))) :
    Ends (retrieve k f)
      (fun found w' ↦ w.Advances R X w' ∧
        ((found = true ∧ ∃ id, w.Remembers k id ∧ P id w') ∨
          (found = false ∧ w.Vacated k w' ∧ ∀ id, w.Remembers k id → U id)))
      (fun _ _ ↦ False) w := by
  refine ends_retrieve hw (fun hnone ↦ ?_) (fun e he hlost ↦ ?_) fun e he hm ↦ ?_
  · have hnot := World.not_remembers_of_find?_eq_none hnone
    exact ⟨.refl hw ha, Or.inr ⟨rfl, ⟨hnot, rfl, fun _ ↦ rfl⟩, fun id hr ↦ absurd hr (hnot id)⟩⟩
  · exact ⟨.forget hw ha he, Or.inr ⟨rfl,
      ⟨fun id hr ↦ ((hw.remembers_forgetting he).1 hr).1 rfl, rfl,
      fun _ ↦ rfl⟩, fun id hr ↦ absurd hr (hlost id)⟩⟩
  · refine (hfits e.userdata hm).imp (fun ok w' hok ↦ ?_) fun _ _ h ↦ h
    rcases hok with ⟨rfl, hadvances, hp⟩ | ⟨rfl, hunfit, hpayload, hu⟩
    · exact ⟨fun _ ↦ ⟨(World.Advances.refl hw ha |>.pushing _).trans hadvances,
        Or.inl ⟨rfl, e.userdata, hm, hp⟩⟩, fun h ↦ absurd h (by simp)⟩
    · have hadvances := hunfit.advances hw ha he hm hpayload
      have hchanged : w'.host = w.host ∧ w'.binding.cache = w.binding.cache ∧
          w'.binding.machine.stack = (w.binding.machine.push (.userdata e.userdata)).stack ∧
          w'.binding.machine.frames = w.binding.machine.frames := by
        rcases hunfit with ⟨rfl, -⟩ | ⟨rfl, -⟩ <;> exact ⟨rfl, rfl, rfl, rfl⟩
      obtain ⟨hhost, hcache, hstack, hframes⟩ := hchanged
      refine ⟨fun h ↦ absurd h (by simp), fun _ ↦ ⟨hadvances, Or.inr ⟨rfl, ⟨?_, hhost, fun hm ↦ ?_⟩,
        fun id hr ↦ by rwa [hr.unique hm]⟩⟩⟩
      · refine World.not_remembers_of_find?_eq_none ?_
        show (w'.binding.cache.erase k).find? k = none
        rw [IdentityCache.find?_erase, if_pos rfl]
      · show (w'.binding.machine.pop 1).stack = _
        rw [← Machine.stack_pop_push hm (.userdata e.userdata)]
        have hmachine : (w'.binding.machine.pop 1).stack =
            ((w.binding.machine.push (.userdata e.userdata)).pop 1).stack := by
          simp only [Machine.pop, Machine.setTop, Machine.top, Machine.base, Machine.resize, hstack,
            hframes]
          rfl
        exact hmachine

/-- **Asking whether a userdata has the handle of a weak object keeps records accurate**, if the
slot of the handle records no type of which the asked one is a more derived one. -/
theorem advances_rejoin (hw : w.Sound R) (ha : w.Accurate X) {id : Nat} {r : Record}
    (hid : w.record? id = some r) {h : Handle} {type : Nat}
    (hweak : w.binding.registry.isWeak type = true) (hlt : h.serial < w.weakTable.nextSerial)
    (hderived : ∀ {u}, w.weakTable.Holds h.index h.serial u →
      w.binding.registry.isBaseOf u.type type = true → u.type = type) :
    Ends (rejoin id h type)
      (fun ok w' ↦
        (ok = true ∧ r.target = .weak h ∧ w.Advances R X w' ∧ Reshown w id r type (.weak h) w') ∨
        (ok = false ∧ w' = w ∧ r.target ≠ .weak h))
      (fun _ _ ↦ False) w := by
  refine (ends_rejoin (K := Set.univ) hw hid hweak hlt).imp (fun ok w' hok ↦ hok.imp_left ?_)
    fun _ _ h ↦ h
  rintro ⟨hok, htarget, hl, hshown⟩
  refine ⟨hok, htarget,
    .reshown hl ha hid hshown (fun shown hx hbase ↦ ?_) fun _ hlodged ↦ ?_, hshown⟩
  · refine (ha.record hid).shownAs hw.registrySound hx hbase
      ((hw.binding.proper hid).not_owned htarget) (fun hexact block hp ↦ ?_)
      (fun ht ↦ absurd ht (by simp)) fun ht hu hless ↦ ?_
    · obtain ⟨-, b, _, _, -, -, -, -, hpointer⟩ := (ha.record hid).payload hp
      exact absurd (htarget.symm.trans (hpointer hexact).2) (by simp)
    · obtain rfl := Target.weak.inj ht
      exact hderived hu hless
  · refine hlodged.shownAs fun ht hu ↦ ?_
    obtain rfl := Target.weak.inj ht
    exact hlodged.slot htarget hu

/-- **Asking whether a userdata can stand for a borrowed object keeps records accurate**, if its
record is one of an object with the same root. -/
theorem advances_reuse (hw : w.Sound R) (ha : w.Accurate X) {id : Nat} {r : Record}
    (hid : w.record? id = some r) (hweak : w.binding.registry.isWeak v.type = false)
    (hlodged : r.Lodged w (w.rootOf v))
    (hfits : w.binding.registry.WeakAtRoots →
      r.Fits w.binding.registry (.borrowed (w.rootOf v))) :
    Ends (reuse id v)
      (fun ok w' ↦
        (ok = true ∧ (∃ shown, r.type? = some shown ∧ w.binding.registry.Comparable shown v.type) ∧
          w.Advances R X w' ∧ Reshown w id r v.type (.pointer v.address) w') ∨
        (ok = false ∧ Unfit Set.univ (.borrowed (w.rootOf v)) id w w' ∧
          ∀ shown, r.type? = some shown → ¬ w.binding.registry.Comparable shown v.type))
      (fun _ _ ↦ False) w := by
  have hpayload := (ha.record hid).payload_eq_none hlodged.ownership
  refine (ends_reuse (K := Set.univ) hw hid hweak hfits).imp (fun ok w' hok ↦ hok.imp_left ?_)
    fun _ _ h ↦ h
  rintro ⟨hok, hcomparable, hl, hshown⟩
  refine ⟨hok, hcomparable, .reshown hl ha hid hshown (fun shown hx hbase ↦ ?_) fun _ hlodged' ↦ ?_,
    hshown⟩
  · refine (ha.record hid).shownAs hw.registrySound hx hbase ?_ (fun _ block hp ↦ ?_) (fun ht ↦ ?_)
      fun ht ↦ absurd ht (by simp)
    · rw [hlodged.ownership]
      simp
    · exact absurd (hpayload.symm.trans hp) (by simp)
    · rw [← Target.pointer.inj ht]
      exact hlodged.key.symm
  · exact hlodged'.shownAs fun ht ↦ absurd ht (by simp)

/-- **A new userdata that is remembered** keeps records accurate, if its own is; and if it is
remembered for a borrowed object, then its record has to be one of that object. -/
theorem advances_pushNew (hw : w.Sound R) (ha : w.Accurate X) {k : CacheKey} {r : Record}
    (hissue : Issuable w r) (hfits : k.Faithful w.binding.registry → r.Fits w.binding.registry k)
    (hr : r.Accurate w True) (hlodged : ∀ root, k = .borrowed root → r.Lodged w root)
    (metatable : Option Nat) :
    Ends (pushNew k r metatable) (fun _ w' ↦ w.Advances R X w' ∧ ∃ id, w.Issues r w' id)
      (fun _ w' ↦ w.Advances R X w') w := by
  refine (keeps_pushNew (K := Set.univ) hw hissue hfits (fun _ _ ↦ trivial) (fun _ _ ↦ trivial)
    metatable).imp (fun _ w' hnew ↦ ?_) fun _ w' hfull ↦ ?_
  · obtain ⟨hl, id, hissues, hremembers⟩ := hnew
    refine ⟨hl.advances hissues.host (hissues.accurate ha (hl.sameGround hissues.host) hr
      fun {root id'} hm ↦ ?_), id, hissues⟩
    exact ((hremembers _ _).1 hm).elim (fun h ↦ Or.inr ⟨h.2, hlodged root h.1.symm⟩)
      fun h ↦ Or.inl h.2
  · obtain ⟨hl, ⟨id, hissues, hremembers⟩, -⟩ := hfull
    exact hl.advances hissues.host (hissues.accurate ha (hl.sameGround hissues.host) hr
      fun hm ↦ Or.inl ((hremembers _ _).1 hm))

/-- A record with a handle says what it has to if the slot of the handle records no type of which
the shown one is a more derived one. -/
theorem accurate_handle {h : Handle} {type : Nat}
    (hderived : ∀ {u}, w.weakTable.Holds h.index h.serial u →
      w.binding.registry.isBaseOf u.type type = true → u.type = type) (key : Address) :
    Record.Accurate w True ⟨key, .declared type, .borrowed, .weak h, none⟩ where
  placed _ ht := absurd ht (by simp)
  derived he ht hu hless := by
    obtain rfl := Exposed.declared.inj he
    obtain rfl := Target.weak.inj ht
    exact hderived hu hless
  payload hp := absurd hp (by simp)

/-- A record with an address says what it has to if the address has the root of the key. -/
theorem accurate_pointer {key a : Address} {e : Exposed} {o : Ownership} {p : Option Payload}
    (hkey : ∀ {type}, e = .declared type → w.rootOf ⟨a, type⟩ = key)
    (hpayload : ∀ {x}, p = some x → Record.Presents w True ⟨key, e, o, .pointer a, p⟩ x) :
    Record.Accurate w True ⟨key, e, o, .pointer a, p⟩ where
  placed he ht := by
    obtain rfl := Target.pointer.inj ht
    exact hkey he
  derived _ ht := absurd ht (by simp)
  payload hp := hpayload hp

end Exec

end ObjectBridge
