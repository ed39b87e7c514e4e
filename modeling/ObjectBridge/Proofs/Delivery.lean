import ObjectBridge.Proofs.Advances
import ObjectBridge.Proofs.Loading

/-!
# Delivering objects

Every push keeps records accurate, whatever becomes of it, and a push that does not fail delivers
its object (`ends_pushView_delivers`): one value more is on the stack, and loading it as the type
under which the object was pushed yields the object, unless something obscures it.

The four ways to push an object come down to two questions. Has the object been seen as the type, or
as a more derived one, when its handle is packed or kept (`World.Seated.seen_iff`)? And does the
userdata that is remembered for it lead to it still?
-/

namespace ObjectBridge

namespace Registry

variable {r : Registry}

/-- A userdata shows `shown`, its object was seen as `seen` before and is seen as `now`, a view that
is `type` if it is another one. If the userdata does not come to show `type`, it can be loaded as
that exactly if it could be loaded before. -/
private theorem Sound.settled_iff (hs : r.Sound) {type shown seen now : Nat}
    (haccurate : r.isBaseOf seen shown = true → seen = shown)
    (hnow : now = seen ∨ now = type ∧ r.isBaseOf seen type = true)
    (hsettled : ¬ (shown ≠ type ∧ r.isBaseOf shown type = true)) :
    r.isBaseOf shown now = true ∧ r.isBaseOf type shown = true ↔
      r.isBaseOf type now = true ∧ r.isBaseOf shown seen = true := by
  have hsame : r.isBaseOf shown type = true → shown = type := fun h ↦
    not_not.1 fun hne ↦ hsettled ⟨hne, h⟩
  constructor
  · rintro ⟨hshown, htype⟩
    refine ⟨hs.isBaseOf_trans htype hshown, ?_⟩
    rcases hnow with rfl | ⟨rfl, hseen⟩
    · exact hshown
    · have heq := haccurate (hs.isBaseOf_trans hseen htype)
      exact heq ▸ hs.isBaseOf_refl _
  · rintro ⟨htype, hseen⟩
    rcases hnow with rfl | ⟨rfl, hbase⟩
    · refine ⟨hseen, (hs.isBaseOf_total htype hseen).elim (fun h ↦ h) fun h ↦ ?_⟩
      exact hsame h ▸ hs.isBaseOf_refl _
    · obtain rfl := hsame (hs.isBaseOf_trans hseen hbase)
      exact ⟨htype, htype⟩

/-- If the userdata comes to show `type`, the same holds. -/
private theorem Sound.changed_iff (hs : r.Sound) {type shown seen now : Nat}
    (haccurate : r.isBaseOf seen shown = true → seen = shown)
    (hnow : now = seen ∨ now = type ∧ r.isBaseOf seen type = true)
    (hmore : r.isBaseOf shown type = true) :
    r.isBaseOf type now = true ↔ r.isBaseOf type now = true ∧ r.isBaseOf shown seen = true := by
  refine ⟨fun htype ↦ ⟨htype, ?_⟩, fun h ↦ h.1⟩
  rcases hnow with rfl | ⟨rfl, hseen⟩
  · exact hs.isBaseOf_trans hmore htype
  · refine (hs.isBaseOf_total hmore hseen).elim (fun h ↦ h) fun h ↦ ?_
    exact haccurate h ▸ hs.isBaseOf_refl _

end Registry

namespace Record

/-- The objects that a userdata leads to have the root of the one that it is remembered for. -/
theorem Accurate.rootOf_of_live {R : Realm} {w : World} {exact : Prop} {r : Record} {id : Nat}
    {u : View} (ha : r.Accurate w exact) (hw : w.Sound R) (hid : w.record? id = some r)
    {root : Address} (hl : r.Lodged w root) (hu : w.resolve (.userdata id) = .live u) :
    w.rootOf u = root := by
  have he := World.exposed_of_live hid hu
  cases ht : r.target with
  | pointer a =>
    have hlive := (World.resolve_of_pointer hid he ht).symm.trans hu
    rw [← Resolved.live.inj hlive] at he ⊢
    exact (ha.placed he ht).trans hl.key
  | weak h =>
    obtain ⟨-, u', hu', hsuper⟩ := (World.resolve_of_handle hid he ht).1 hu
    rw [← hl.slot ht hu', World.rootOf, World.rootOf, ← hw.registrySound.root_toSuper hsuper]
  | discarded =>
    obtain ⟨r', hr', -, hne⟩ := World.exposed_of_resolve hu
    obtain rfl := Option.some.inj (hid.symm.trans hr')
    exact absurd ht hne

end Record

namespace World

variable {R : Realm} {X : Set Nat} {w w' : World} {v u : View} {h : Handle} {id : Nat} {r : Record}

/-! ### Slots -/

/-- What is in the slot of the handle. -/
theorem Seated.exists_holds (hs : w.Seated R v h w') : ∃ u,
    w'.weakTable.Holds h.index h.serial u ∧
      w.binding.registry.identity u = w.binding.registry.identity v := by
  obtain ⟨_, u, -, -, hu, hidentity⟩ := hs.handle
  rw [hs.binding] at hidentity
  exact ⟨u, hu, hidentity⟩

/-- **The slot records the type under which an object is seen, or a more derived one**, unless the
object has been seen as something that has nothing to do with it. -/
theorem Seated.seen_iff (hs : w.Seated R v h w') (hw : w.Sound R)
    (hu : w'.weakTable.Holds h.index h.serial u) :
    w.binding.registry.isBaseOf v.type u.type = true ↔
      ∀ {h' u'}, w.HandleOf v h' → w.weakTable.Holds h'.index h'.serial u' →
        w.binding.registry.Comparable u'.type v.type := by
  have hrefl := hw.registrySound.isBaseOf_refl v.type
  constructor
  · intro hbase h' u' hh' hu'
    obtain rfl := hs.kept h' hh'
    rcases hs.seats.slot hu with hold | ⟨rfl, hfirst⟩
    · rw [(hu'.unique hold).2]
      exact Or.inr hbase
    · exact Or.inl (hfirst hu')
  · intro hcomparable
    rcases hs.seats.slot hu with hold | ⟨rfl, -⟩
    · obtain ⟨u₁, hu₁, hidentity⟩ := hs.exists_holds
      obtain rfl := (hu.unique hu₁).2
      rcases hcomparable (hw.handleOf_of_holds hold hidentity) hold with hbase | hbase
      · rwa [hs.seats.derived hu hbase]
      · exact hbase
    · exact hrefl

/-! ### Delivery -/

/-- **The object seen as `v` is delivered**: one value more is on the stack, and loading it as the
type of `v` yields `v`, unless something obscures the object. -/
def Delivers (w : World) (v : View) (w' : World) : Prop :=
  ∃ x, (w.binding.machine.base ≤ w.binding.machine.stack.size →
      w'.binding.machine.stack = w.binding.machine.stack.push x) ∧
    (v.address ≠ 0 → w'.LoadsIf x v (¬ w.Obscured v))

/-! ### Weak objects -/

section Weak

variable {w₁ w₂ : World} (hs : w.Seated R v h w₁) (hw : w.Sound R)
  (hweak : w.binding.registry.isWeak v.type = true)
  (hunowned : ∀ id, ¬ w.Remembers (.owned (w.rootOf v)) id)
include hs hw hweak hunowned

/-- A word with the handle of the object delivers it. -/
theorem Seated.delivers_word (h₁ : w₁.Sound R) {word : UInt64}
    (hlight : w.binding.settings.lightUserdata = true)
    (hpacked : w.binding.registry.packWeak? h v.type = some word) :
    w.Delivers v (w₁.pushing (.word word)) := by
  obtain ⟨u, hu, hidentity⟩ := hs.exists_holds
  have hroot : w.rootOf u = w.rootOf v := congrArg (fun x ↦ x.2.address) hidentity
  have hseen := hs.seen_iff hw hu
  have hkept := hs.kept
  obtain ⟨host, pins, binding, desk⟩ := w₁
  obtain rfl : binding = w.binding := hs.binding
  refine ⟨.word word, fun _ ↦ rfl, fun _ ↦ ?_⟩
  have hsound := (Leads.quiet (K := ∅) h₁ (quiet_pushing _ (.word word))).sound
  refine (loadsIf_weakWord hsound hlight hweak hpacked hu hroot).congr ?_
  show w.binding.registry.isBaseOf v.type u.type = true ↔ _
  rw [hseen, not_obscured_weak hweak hunowned]
  refine (and_iff_left fun {h'} _ _ hh' hunpacked ↦ ?_).symm
  rw [hkept h' hh', hpacked] at hunpacked
  exact absurd (hunpacked hlight) (by simp)

/-- The userdata with the handle of the object delivers it, unless it shows something as which the
object has not been seen. -/
theorem Seated.delivers_kept (ha : w.Accurate X) (hl : w.Leads R Set.univ w₁)
    (hunpacked : w.binding.settings.lightUserdata = true →
      w.binding.registry.packWeak? h v.type = none)
    (hm : w.Remembers (.weak h.index) id) (hr : w.record? id = some r) (ht : r.target = .weak h)
    (hshown : Exec.Reshown (w₁.pushing (.userdata id)) id r v.type (.weak h) w')
    (hl' : (w₁.pushing (.userdata id)).Leads R Set.univ w') : w.Delivers v w' := by
  obtain ⟨u, hu, hidentity⟩ := hs.exists_holds
  have hroot : w.rootOf u = w.rootOf v := congrArg (fun x ↦ x.2.address) hidentity
  have hseen := hs.seen_iff hw hu
  have hkept := hs.kept
  have hslot := hs.seats.slot hu
  obtain ⟨shown, he, -⟩ := (hw.binding.proper hr).exposes ht
  -- the handle is an old one, so the object had it before
  have hfollows := hl.weakTable_follows
  rw [hw.registry] at hfollows
  obtain ⟨seen, hheld, hsame⟩ := hfollows.holds hu (hw.binding.serial_lt hr ht)
  have hhandle : w.HandleOf v h := hw.handleOf_of_holds hheld (hsame.trans hidentity)
  have hnow : u.type = seen.type ∨
      u.type = v.type ∧ w.binding.registry.isBaseOf seen.type v.type = true := by
    rcases hslot with hold | ⟨rfl, hfirst⟩
    · exact Or.inl (congrArg View.type (hold.unique hheld).2)
    · exact Or.inr ⟨rfl, hfirst hheld⟩
  have haccurate := (ha.record hr).derived he ht hheld
  have hclear : ¬ w.Obscured v ↔ w.binding.registry.isBaseOf v.type u.type = true ∧
      w.binding.registry.isBaseOf shown seen.type = true := by
    rw [not_obscured_weak hweak hunowned, hseen, ← live_of_handle_iff hw hr he ht hheld]
    refine and_congr_right fun _ ↦ ⟨fun hlive ↦ hlive hhandle hunpacked hm hr ht, ?_⟩
    intro hlive h' id' r' hh' _ hm' _ _
    obtain rfl := hkept h' hh'
    rwa [hm'.unique hm]
  obtain ⟨host, pins, binding, desk⟩ := w₁
  obtain rfl : binding = w.binding := hs.binding
  refine ⟨.userdata id, fun _ ↦ hshown.stack, fun _ ↦ ?_⟩
  cases hshown with
  | kept same hsettled =>
    subst same
    refine (loadsIf_handle hl'.sound hr he ht hu hroot).congr (Iff.trans ?_ hclear.symm)
    exact hw.registrySound.settled_iff haccurate hnow (hsettled shown (Record.type?_eq_some.2 he))
  | changed alters showed _ base =>
    obtain rfl := Option.some.inj ((Record.type?_eq_some.2 he).symm.trans showed)
    have hg := hl'.sameGround alters.host
    have hu' : w'.weakTable.Holds h.index h.serial u := by
      rw [hg.weakTable]
      exact hu
    have hroot' : w'.rootOf u = w'.rootOf v := by
      rw [hg.rootOf]
      exact hroot
    have hload := loadsIf_handle hl'.sound alters.record rfl rfl hu' hroot'
    rw [hg.registry] at hload
    refine hload.congr (Iff.trans ?_ hclear.symm)
    refine (and_iff_left (hw.registrySound.isBaseOf_refl v.type)).trans ?_
    exact hw.registrySound.changed_iff haccurate hnow base

/-- A new userdata with the handle of the object delivers it. -/
theorem Seated.delivers_new
    (hnone : ∀ {id r}, w.Remembers (.weak h.index) id → w.record? id = some r → r.target ≠ .weak h)
    {k : CacheKey} (hvacated : w₁.Vacated k w₂) (h₂ : w₁.Advances R X w₂)
    (hr : r.exposed = .declared v.type ∧ r.target = .weak h) (hissues : w₂.Issues r w' id)
    (hl' : w₂.Leads R Set.univ w') : w.Delivers v w' := by
  obtain ⟨u, hu, hidentity⟩ := hs.exists_holds
  have hroot : w.rootOf u = w.rootOf v := congrArg (fun x ↦ x.2.address) hidentity
  have hseen := hs.seen_iff hw hu
  have hkept := hs.kept
  have hclear : ¬ w.Obscured v ↔ w.binding.registry.isBaseOf v.type u.type = true := by
    rw [not_obscured_weak hweak hunowned, hseen]
    refine and_iff_left fun {h' id' r'} hh' _ hm' hr' ht' ↦ ?_
    obtain rfl := hkept h' hh'
    exact absurd ht' (hnone hm' hr')
  obtain ⟨host, pins, binding, desk⟩ := w₁
  obtain rfl : binding = w.binding := hs.binding
  have hg := h₂.leads.sameGround hvacated.host
  have hg' := hl'.sameGround hissues.host
  refine ⟨.userdata id, fun hbase ↦ ?_, fun _ ↦ ?_⟩
  · rw [hissues.stack, hvacated.stack hbase]
  · have hu' : w'.weakTable.Holds h.index h.serial u := by
      rw [hg'.weakTable, hg.weakTable]
      exact hu
    have hroot' : w'.rootOf u = w'.rootOf v := by
      rw [hg'.rootOf, hg.rootOf]
      exact hroot
    have hload := loadsIf_handle hl'.sound hissues.record hr.1 hr.2 hu' hroot'
    rw [hg'.registry, hg.registry] at hload
    refine hload.congr (Iff.trans ?_ hclear.symm)
    exact and_iff_left (hw.registrySound.isBaseOf_refl v.type)

end Weak

/-! ### Borrowed objects -/

section Borrowed

variable {w₁ : World} (hw : w.Sound R) (hweak : w.binding.registry.isWeak v.type = false)
  (hunowned : ∀ id, ¬ w.Remembers (.owned (w.rootOf v)) id)
include hw hweak hunowned

/-- A word with the address of the object delivers it. -/
theorem delivers_word {word : UInt64} (hlight : w.binding.settings.lightUserdata = true)
    (hpacked : w.binding.registry.packPointer? v = some word) :
    w.Delivers v (w.pushing (.word word)) := by
  refine ⟨.word word, fun _ ↦ rfl, fun hne ↦ ?_⟩
  have hsound := (Leads.quiet (K := ∅) hw (w.quiet_pushing (.word word))).sound
  refine (loadsIf_word hsound hlight hweak hpacked hne).congr (iff_of_true trivial ?_)
  rw [not_obscured_strong hweak hunowned]
  intro hunpacked
  rw [hpacked] at hunpacked
  exact absurd (hunpacked hlight) (by simp)

/-- The userdata that is remembered for the object delivers it if it shows the type or can be made
to show it, and otherwise exactly if it leads to the object still. -/
theorem delivers_kept (ha : w.Accurate X)
    (hunpacked : w.binding.settings.lightUserdata = true → w.binding.registry.packPointer? v = none)
    (hm : w.Remembers (.borrowed (w.rootOf v)) id) (hr : w.record? id = some r) {shown : Nat}
    (he : r.exposed = .declared shown) (hcomparable : w.binding.registry.Comparable shown v.type)
    (hshown : Exec.Reshown (w.pushing (.userdata id)) id r v.type (.pointer v.address) w')
    (hl' : (w.pushing (.userdata id)).Leads R Set.univ w') : w.Delivers v w' := by
  have hs := hw.registrySound
  obtain ⟨x, hx, hlodged⟩ := ha.lodged hm
  obtain rfl := Option.some.inj (hr.symm.trans hx)
  refine ⟨.userdata id, fun _ ↦ hshown.stack, fun _ ↦ ?_⟩
  cases hshown with
  | kept same hsettled =>
    subst same
    have hbase : w.binding.registry.isBaseOf v.type shown = true := by
      refine hcomparable.elim (fun hbase ↦ ?_) fun h ↦ h
      have hsame : shown = v.type := not_not.1 fun hne ↦
        hsettled shown (Record.type?_eq_some.2 he) ⟨hne, hbase⟩
      exact hsame ▸ hs.isBaseOf_refl _
    refine (loadsIf_of_root (x := .userdata id) hl'.sound fun u hu ↦
      (ha.record hr).rootOf_of_live hw hr hlodged hu).congr ?_
    rw [not_obscured_strong hweak hunowned]
    constructor
    · rintro ⟨u, hu, -⟩ - id' r' shown' hm' - - -
      rw [hm'.unique hm]
      exact ⟨u, hu⟩
    · intro hlive
      obtain ⟨u, hu⟩ := hlive hunpacked hm hr he hbase
      have htype := exposed_of_live hr hu
      rw [he] at htype
      exact ⟨u, hu, Exposed.declared.inj htype ▸ hbase⟩
  | changed alters showed hne base =>
    obtain rfl := Option.some.inj ((Record.type?_eq_some.2 he).symm.trans showed)
    have hload := loadsIf_pointer (v := v) hl'.sound alters.record rfl rfl rfl
    refine hload.congr (iff_of_true ?_ ?_)
    · rw [hl'.registry]
      exact hs.isBaseOf_refl _
    · rw [not_obscured_strong hweak hunowned]
      intro _ id' r' shown' hm' hr' he' hderived
      obtain rfl := hm'.unique hm
      obtain rfl := Option.some.inj (hr.symm.trans hr')
      obtain rfl := Exposed.declared.inj (he.symm.trans he')
      exact absurd (hs.isBaseOf_antisymm base hderived) hne

/-- A new userdata for the object delivers it. -/
theorem delivers_new
    (hnone : ∀ {id r shown}, w.Remembers (.borrowed (w.rootOf v)) id → w.record? id = some r →
      r.type? = some shown → ¬ w.binding.registry.Comparable shown v.type)
    {k : CacheKey} (hvacated : w.Vacated k w₁) (h₁ : w.Advances R X w₁)
    (hr : r.exposed = .declared v.type ∧ r.target = .pointer v.address)
    (hissues : w₁.Issues r w' id) (hl' : w₁.Leads R Set.univ w') : w.Delivers v w' := by
  refine ⟨.userdata id, fun hbase ↦ ?_, fun _ ↦ ?_⟩
  · rw [hissues.stack, hvacated.stack hbase]
  · have hload := loadsIf_pointer (v := v) hl'.sound hissues.record hr.1 hr.2 rfl
    refine hload.congr (iff_of_true ?_ ?_)
    · rw [hl'.registry, h₁.leads.registry]
      exact hw.registrySound.isBaseOf_refl _
    · rw [not_obscured_strong hweak hunowned]
      intro _ id' r' shown hm' hr' he' hderived
      exact absurd (Or.inr hderived) (hnone hm' hr' (Record.type?_eq_some.2 he'))

end Borrowed

/-- The userdata that owns the object delivers it if it shows the type or a more derived one. -/
theorem delivers_owned (hw : w.Sound R) (ha : w.Accurate X)
    (hm : w.Remembers (.owned (w.rootOf v)) id) : w.Delivers v (w.pushing (.userdata id)) := by
  obtain ⟨r, hr, hfits⟩ := hw.shelf.recorded hm
  have hr' : w.record? id = some r := hr
  have hfits := hfits trivial
  have howned := Record.owned_of_cacheKey hfits.cacheKey
  have hkey : r.key = w.rootOf v ∧ ∃ shown, r.exposed = .declared shown := by
    have hcacheKey := hfits.cacheKey
    rw [Record.cacheKey, howned] at hcacheKey
    cases he : r.exposed with
    | declared shown =>
      simp only [he, CacheKey.owned.injEq] at hcacheKey
      exact ⟨hcacheKey, shown, rfl⟩
    | container kind => simp [he] at hcacheKey
  obtain ⟨hkey, shown, he⟩ := hkey
  have htarget : ∃ a, r.target = .pointer a := by
    cases ht : r.target with
    | pointer a => exact ⟨a, rfl⟩
    | weak h => exact absurd howned ((hw.binding.proper hr).not_owned ht)
    | discarded =>
      exact absurd (Record.discarded_iff.2 ht) (by simp [hfits.not_discarded])
  obtain ⟨a, ht⟩ := htarget
  have hplaced := ((ha.record hr').placed he ht).trans hkey
  have hsound := (Leads.quiet (K := ∅) hw (w.quiet_pushing (.userdata id))).sound
  refine ⟨.userdata id, fun _ ↦ rfl, fun _ ↦ (loadsIf_pointer hsound hr' he ht hplaced).congr ?_⟩
  show w.binding.registry.isBaseOf v.type shown = true ↔ _
  constructor
  · intro hbase hobscured
    cases hobscured with
    | owned there record exposes other =>
      obtain rfl := there.unique hm
      obtain rfl := Option.some.inj (record.symm.trans hr')
      obtain rfl := Exposed.declared.inj (exposes.symm.trans he)
      exact absurd (hbase.symm.trans other) (by simp)
    | slot _ unowned _ _ _ | weak _ unowned _ _ _ _ _ _ | borrowed _ unowned _ _ _ _ _ _ =>
      exact unowned _ hm
  · intro hclear
    by_contra hother
    exact hclear (.owned hm hr' he (Bool.eq_false_iff.2 hother))

/-! ### Worlds that remember the same -/

variable {w₁ : World}

theorem SameMemory.symm (hs : w.SameMemory w₁) : w₁.SameMemory w where
  registry := hs.registry.symm
  settings := hs.settings.symm
  host := hs.host.symm
  domain := hs.domain.symm
  record? id := (hs.record? id).symm
  remembers k id := (hs.remembers k id).symm

theorem SameMemory.resolve_userdata (hs : w.SameMemory w₁) (id : Nat) :
    w₁.resolve (.userdata id) = w.resolve (.userdata id) := by
  have hrecord : w₁.binding.machine.record? id = w.binding.machine.record? id := hs.record? id
  simp only [resolve, hrecord, resolveRecord, hs.registry, hs.host, hs.domain]

/-- What obscures an object is a matter of what is remembered. -/
theorem Obscured.of_same (hs : w.SameMemory w₁) (ho : w₁.Obscured v) : w.Obscured v := by
  have hroot : w₁.rootOf v = w.rootOf v := by rw [rootOf, rootOf, hs.registry]
  have htable : w₁.weakTable = w.weakTable := by
    rw [World.weakTable, World.weakTable, hs.host, hs.domain]
  have hhandle : ∀ {h}, w₁.HandleOf v h → w.HandleOf v h := fun hh ↦
    hh.congr hs.host.symm hs.registry.symm hs.domain.symm
  cases ho with
  | owned there record exposes other =>
    rw [hroot] at there
    exact .owned ((hs.remembers _ _).1 there) ((hs.record? _).symm.trans record) exposes
      (hs.registry ▸ other)
  | slot weak unowned handle seen other =>
    rw [hroot] at unowned
    exact .slot (hs.registry ▸ weak) (fun id h ↦ unowned id ((hs.remembers _ _).2 h))
      (hhandle handle)
      (htable ▸ seen) (hs.registry ▸ other)
  | weak weak unowned handle unpacked there record target lost =>
    rw [hroot] at unowned
    rw [hs.settings, hs.registry] at unpacked
    refine .weak (hs.registry ▸ weak) (fun id h ↦ unowned id ((hs.remembers _ _).2 h))
      (hhandle handle) unpacked ((hs.remembers _ _).1 there) ((hs.record? _).symm.trans record)
      target
      fun u hu ↦ lost u ((hs.resolve_userdata _).trans hu)
  | borrowed strong unowned unpacked there record exposes derived lost =>
    rw [hroot] at unowned there
    rw [hs.settings, hs.registry] at unpacked
    refine .borrowed (hs.registry ▸ strong) (fun id h ↦ unowned id ((hs.remembers _ _).2 h))
      unpacked ((hs.remembers _ _).1 there) ((hs.record? _).symm.trans record) exposes
      (hs.registry ▸ derived)
      fun u hu ↦ lost u ((hs.resolve_userdata _).trans hu)

theorem Delivers.of_same (hs : w.SameMemory w₁) (hmachine : w₁.binding.machine.stack =
    w.binding.machine.stack ∧ w₁.binding.machine.frames = w.binding.machine.frames)
    (hd : w₁.Delivers v w') : w.Delivers v w' := by
  obtain ⟨x, hstack, hload⟩ := hd
  rw [Machine.base, hmachine.1, hmachine.2] at hstack
  exact ⟨x, hstack, fun hne ↦ (hload hne).congr
    (not_congr ⟨Obscured.of_same hs, Obscured.of_same hs.symm⟩)⟩

end World

namespace Exec

variable {R : Realm} {X : Set Nat} {w : World} {v : View}

/-- **Recalling a weak object keeps records accurate**, if the slot of the handle records no type of
which the recalled one is a more derived one. -/
theorem advances_retrieveWeak (hw : w.Sound R) (ha : w.Accurate X)
    (hweak : w.binding.registry.isWeak v.type = true) {h : Handle}
    (hlt : h.serial < w.weakTable.nextSerial)
    (hderived : ∀ {u}, w.weakTable.Holds h.index h.serial u →
      w.binding.registry.isBaseOf u.type v.type = true → u.type = v.type) :
    Ends (retrieve (.weak h.index) (rejoin · h v.type))
      (fun found w' ↦ w.Advances R X w' ∧
        ((found = true ∧ ∃ id, w.Remembers (.weak h.index) id ∧
            ∃ r, w.record? id = some r ∧ r.target = .weak h ∧
              Reshown (w.pushing (.userdata id)) id r v.type (.weak h) w' ∧
              (w.pushing (.userdata id)).Leads R Set.univ w') ∨
          (found = false ∧ w.Vacated (.weak h.index) w' ∧
            ∀ id, w.Remembers (.weak h.index) id → ∀ r, w.record? id = some r → r.target ≠ .weak h)))
      (fun _ _ ↦ False) w := by
  refine advances_retrieve hw ha fun id hm ↦ ?_
  obtain ⟨r, hid, -⟩ := hw.shelf.recorded hm
  have hpushed := (World.Advances.refl hw ha).pushing (.userdata id)
  refine (advances_rejoin hpushed.sound hpushed.accurate hid hweak hlt hderived).imp
    (fun ok w' hok ↦ ?_) fun _ _ h ↦ h
  rcases hok with ⟨rfl, htarget, hadvances, hshown⟩ | ⟨rfl, rfl, hne⟩
  · exact Or.inl ⟨rfl, hadvances, r, hid, htarget, hshown, hadvances.leads⟩
  · refine Or.inr ⟨rfl, Or.inl ⟨rfl, Or.inl trivial⟩, Or.inl rfl, fun r' hr' ↦ ?_⟩
    rwa [← Option.some.inj (hid.symm.trans hr')]

/-- **Pushing a weak object delivers it.** There may be no room for a userdata that is not known
yet. -/
theorem ends_pushWeak_delivers (hw : w.Sound R) (ha : w.Accurate X)
    (hweak : w.binding.registry.isWeak v.type = true) (hsingle : w.Single v)
    (hunowned : ∀ id, ¬ w.Remembers (.owned (w.rootOf v)) id) :
    Ends (pushWeak v) (fun _ w' ↦ w.Advances R X w' ∧ w.Delivers v w')
      (fun _ w' ↦ w.Advances R X w') w := by
  simp only [pushWeak, ends_bind, ends_binding]
  refine (ends_weakHandle (K := Set.univ) hw hweak hsingle).imp (fun h? w₁ hgiven ↦ ?_)
    fun _ _ h ↦ h.elim
  obtain ⟨hleads, h, rfl, hseated⟩ := hgiven
  have h₁ := hseated.advances hleads hw ha
  have hregistry : w₁.binding.registry = w.binding.registry := by rw [hseated.binding]
  have hweak₁ : w₁.binding.registry.isWeak v.type = true := by rwa [hregistry]
  have hlt := hseated.handle.serial_lt h₁.sound
  have hderived : ∀ {u}, w₁.weakTable.Holds h.index h.serial u →
      w₁.binding.registry.isBaseOf u.type v.type = true → u.type = v.type := fun hu hless ↦
    hseated.seats.derived hu (hregistry ▸ hless)
  simp only
  split
  · rename_i word hword
    have hlight := Option.ite_none_right_eq_some.1 hword
    exact ⟨h₁.pushing _, hseated.delivers_word hw hweak hunowned h₁.sound hlight.1 hlight.2⟩
  · rename_i hword
    have hunpacked : w.binding.settings.lightUserdata = true →
        w.binding.registry.packWeak? h v.type = none := fun hl ↦ by rwa [if_pos hl] at hword
    simp only [ends_bind]
    refine (advances_retrieveWeak h₁.sound h₁.accurate hweak₁ hlt hderived).imp
      (fun found w₂ hfound ↦ ?_) fun _ _ h ↦ h.elim
    obtain ⟨h₂, ⟨rfl, id, hm, r, hid, htarget, hshown, hl⟩ | ⟨rfl, hvacated, hpassed⟩⟩ := hfound
    · exact ⟨h₁.trans h₂, hseated.delivers_kept hw hweak hunowned ha hleads hunpacked
        (hseated.remembers.1 hm) ((hseated.record? id).symm.trans hid) htarget hshown hl⟩
    · simp only [Bool.false_eq_true, if_false, ends_bind, ends_typeMetatable]
      have hg := h₂.leads.sameGround hvacated.host
      rw [← hg.registry] at hweak₁ hderived
      rw [← hg.weakTable] at hlt hderived
      refine (advances_pushNew h₂.sound h₂.accurate (issuable_handle hweak₁ hlt _)
        (fits_weak _ h v.type) (accurate_handle hderived _) (fun _ ↦ by simp) _).imp
        (fun _ w' hnew ↦ ?_) fun _ _ h ↦ (h₁.trans h₂).trans h
      obtain ⟨h₃, id, hissues⟩ := hnew
      refine ⟨(h₁.trans h₂).trans h₃, hseated.delivers_new hw hweak hunowned (fun hm hr ↦ ?_)
        hvacated h₂ ⟨rfl, rfl⟩ hissues h₃.leads⟩
      exact hpassed _ (hseated.remembers.2 hm) _ ((hseated.record? _).trans hr)

/-- **Recalling a borrowed object keeps records accurate.** -/
theorem advances_retrieveBorrowed (hw : w.Sound R) (ha : w.Accurate X)
    (hweak : w.binding.registry.isWeak v.type = false) :
    Ends (retrieve (.borrowed (w.rootOf v)) (reuse · v))
      (fun found w' ↦ w.Advances R X w' ∧
        ((found = true ∧ ∃ id, w.Remembers (.borrowed (w.rootOf v)) id ∧
            ∃ r shown, w.record? id = some r ∧ r.exposed = .declared shown ∧
              w.binding.registry.Comparable shown v.type ∧
              Reshown (w.pushing (.userdata id)) id r v.type (.pointer v.address) w' ∧
              (w.pushing (.userdata id)).Leads R Set.univ w') ∨
          (found = false ∧ w.Vacated (.borrowed (w.rootOf v)) w' ∧
            ∀ id, w.Remembers (.borrowed (w.rootOf v)) id →
              ∀ r shown, w.record? id = some r → r.type? = some shown →
                ¬ w.binding.registry.Comparable shown v.type)))
      (fun _ _ ↦ False) w := by
  refine advances_retrieve hw ha fun id hm ↦ ?_
  obtain ⟨r, hid, hfits⟩ := hw.shelf.recorded hm
  obtain ⟨x, hx, hlodged⟩ := ha.lodged hm
  obtain rfl := Option.some.inj (hid.symm.trans hx)
  have hpayload := (ha.record hid).payload_eq_none hlodged.ownership
  have hpushed := (World.Advances.refl hw ha).pushing (.userdata id)
  have hground := hpushed.leads.sameGround rfl
  refine (advances_reuse hpushed.sound hpushed.accurate hid hweak (hground.lodged hlodged)
    fun hroots ↦ hfits hroots).imp (fun ok w' hok ↦ ?_) fun _ _ h ↦ h
  rcases hok with ⟨rfl, ⟨shown, hshows, hcomparable⟩, hadvances, hshown⟩ | ⟨rfl, hunfit, hother⟩
  · exact Or.inl ⟨rfl, hadvances, r, shown, hid, Record.type?_eq_some.1 hshows, hcomparable,
      hshown, hadvances.leads⟩
  · refine Or.inr ⟨rfl, hunfit, Or.inr fun r' hr' ↦ ?_, fun r' shown hr' hs ↦ ?_⟩
    · rwa [← Option.some.inj (hid.symm.trans hr')]
    · obtain rfl := Option.some.inj (hid.symm.trans hr')
      exact hother shown hs

/-- **Pushing a borrowed object delivers it.** -/
theorem ends_pushBorrowed_delivers (hw : w.Sound R) (ha : w.Accurate X)
    (hweak : w.binding.registry.isWeak v.type = false)
    (hunowned : ∀ id, ¬ w.Remembers (.owned (w.rootOf v)) id) :
    Ends (pushBorrowed v (w.rootOf v)) (fun _ w' ↦ w.Advances R X w' ∧ w.Delivers v w')
      (fun _ w' ↦ w.Advances R X w') w := by
  simp only [pushBorrowed, ends_bind, ends_binding]
  split
  · rename_i word hword
    have hlight := Option.ite_none_right_eq_some.1 hword
    exact ⟨(World.Advances.refl hw ha).pushing _,
      World.delivers_word hw hweak hunowned hlight.1 hlight.2⟩
  · rename_i hword
    have hunpacked : w.binding.settings.lightUserdata = true →
        w.binding.registry.packPointer? v = none := fun hl ↦ by rwa [if_pos hl] at hword
    simp only [ends_bind]
    refine (advances_retrieveBorrowed hw ha hweak).imp (fun found w₁ hfound ↦ ?_)
      fun _ _ h ↦ h.elim
    obtain ⟨h₁, ⟨rfl, id, hm, r, shown, hid, he, hcomparable, hshown, hl⟩ |
      ⟨rfl, hvacated, hpassed⟩⟩ := hfound
    · exact ⟨h₁, World.delivers_kept hw hweak hunowned ha hunpacked hm hid he hcomparable hshown hl⟩
    · simp only [Bool.false_eq_true, if_false, ends_bind, ends_typeMetatable]
      have hg := h₁.leads.sameGround hvacated.host
      have haccurate : Record.Accurate w₁ True
          ⟨w.rootOf v, .declared v.type, .borrowed, .pointer v.address, none⟩ :=
        accurate_pointer (fun he ↦ by rw [hg.rootOf, ← Exposed.declared.inj he])
          fun hp ↦ absurd hp (by simp)
      have hlodged : ∀ root, CacheKey.borrowed (w.rootOf v) = .borrowed root → Record.Lodged w₁ root
          ⟨w.rootOf v, .declared v.type, .borrowed, .pointer v.address, none⟩ := fun root hk ↦
        ⟨rfl, CacheKey.borrowed.inj hk, ⟨v.type, rfl⟩, fun ht ↦ absurd ht (by simp)⟩
      have hweak₁ : w₁.binding.registry.isWeak v.type = false := by rwa [hg.registry]
      refine (advances_pushNew h₁.sound h₁.accurate (issuable_pointer _ _ _ _ _ _)
        (fun _ ↦ fits_borrowed hweak₁ _ _) haccurate hlodged _).imp (fun _ w' hnew ↦ ?_)
          fun _ _ h ↦ h₁.trans h
      obtain ⟨h₂, id, hissues⟩ := hnew
      exact ⟨h₁.trans h₂, World.delivers_new hw hweak hunowned
        (fun hm hr hs ↦ hpassed _ hm _ _ hr hs) hvacated h₁ ⟨rfl, rfl⟩ hissues h₂.leads⟩

/-- **Pushing an object delivers it**, and keeps records accurate whatever becomes of it. -/
theorem ends_pushView_delivers (hw : w.Sound R) (ha : w.Accurate X)
    (hsingle : w.binding.registry.isWeak v.type = true → w.Single v) :
    Ends (pushView v) (fun _ w' ↦ w.Advances R X w' ∧ w.Delivers v w')
      (fun _ w' ↦ w.Advances R X w') w := by
  have hadvances {w₁ : World} (h : w.Unclaimed v w₁) : w.Advances R X w₁ := by
    rcases h.forgot with rfl | ⟨e, he, rfl⟩
    · exact .refl hw ha
    · exact .forget hw ha he
  have hunowned {w₁ : World} (h : w.Unclaimed v w₁) (id : Nat) :
      ¬ w₁.Remembers (.owned (w₁.rootOf v)) id := fun hm ↦
    h.unowned id ((h.same.remembers _ _).1 (h.rootOf_eq ▸ hm))
  refine ends_pushView_cases hw
    (fun id hm ↦ ⟨(World.Advances.refl hw ha).pushing _, World.delivers_owned hw ha hm⟩)
    (fun w₁ h hweak ↦ ?_) fun w₁ h hweak ↦ ?_
  · have h₁ := hadvances h
    exact (ends_pushWeak_delivers h₁.sound h₁.accurate ((h.isWeak_eq _).trans hweak)
      (h.single (hsingle hweak)) (hunowned h)).imp
        (fun _ w' h' ↦ ⟨h₁.trans h'.1, h'.2.of_same h.same ⟨h.stack, h.frames⟩⟩) fun _ w' h' ↦ h₁.trans h'
  · have h₁ := hadvances h
    exact (ends_pushBorrowed_delivers h₁.sound h₁.accurate ((h.isWeak_eq _).trans hweak)
      (hunowned h)).imp
        (fun _ w' h' ↦ ⟨h₁.trans h'.1, h'.2.of_same h.same ⟨h.stack, h.frames⟩⟩) fun _ w' h' ↦ h₁.trans h'

end Exec

end ObjectBridge
