import ObjectBridge.Proofs.Starting

/-!
# Values of weak objects along runs

A value of a weak object that a push or a cast has put on the stack denotes the handle that the object
has at that moment (`World.Produces.stands`), and goes on denoting it (`Session.Run.denotes`). Serials
are never used twice, so whatever the bindings of a session do afterwards, the value leads to that
object or to none: to an object only while the slot has not been given back (`Session.weak_safety`).
-/

namespace ObjectBridge

namespace World

variable {R : Realm} {K : Set CacheKey} {L : Set Nat} {w w' : World} {v : View} {h : Handle}
  {x : Value} {o : Event}

/-! ### Values that are produced for weak objects -/

/-- The weak object, seen as `v`, for which an event is to produce a value. -/
inductive Asks (w : World) : Event → View → Prop
  | push {a : Address} {t : TypeKey} {type : Nat} (exported : w.binding.registry.idOf? t = some type)
      (weak : w.binding.registry.isWeak type = true) : Asks w (.pushPointer (some a) t) ⟨a, type⟩
  | cast {idx : Int} {target : Nat} {v : View}
      (live : w.resolve (w.binding.machine.valueAt idx) = .live v) : Asks w (.cast idx target) v

/-- An event produces a value for the weak object seen as `v`. -/
structure Produces (w : World) (o : Event) (v : View) (x : Value) : Prop where
  asks : w.Asks o v
  done : (o.perform.outcome w).1 = .ok ()
  top : (o.after w).top? = some x
  weak : (o.after w).Weak x

/-- The userdata that owns an object finds it without a handle. -/
theorem Leads.not_weak_owned (hl : w.Leads R K w') (hw : w.Sound R) {root : Address} {id : Nat}
    (hid : w.Remembers (.owned root) id) : ¬ w'.Weak (.userdata id) := by
  rintro ⟨r', h, hr', ht⟩
  obtain ⟨r, hr, hfits⟩ := hw.shelf.recorded hid
  have howned := Record.owned_of_cacheKey (hfits trivial).cacheKey
  obtain ⟨r₁, hr₁, hages⟩ := hl.ages hr
  obtain rfl := Option.some.inj (hr'.symm.trans hr₁)
  exact (hl.sound.binding.proper hr').not_owned ht (hages.ownership.trans howned)

/-- **A push of a weak object leaves a value that denotes its handle**, if the value is one of a weak
object at all. -/
theorem Pushed.stands (hp : w.Pushed v w' x) (hl : w.Leads R K w') (hw : w.Sound R)
    (hweak : w.binding.registry.isWeak v.type = true) (hx : w'.Weak x) : w'.Stands v x := by
  cases hp with
  | owned there => exact absurd hx (hl.not_weak_owned hw there)
  | weakWord _ _ handle packed =>
    rw [← hl.registry] at packed hweak
    exact ⟨v, _, rfl, handle, hl.sound.denotes_word packed hweak⟩
  | weak _ _ _ handle _ _ record target _ =>
    exact ⟨v, _, rfl, handle, hl.sound.denotes_userdata record target⟩
  | word strong => exact absurd (strong.symm.trans hweak) (by simp)
  | borrowed strong => exact absurd (strong.symm.trans hweak) (by simp)

/-- **A value that is produced for a weak object denotes its handle.** -/
theorem Produces.stands (hp : w.Produces o v x) (hw : w.Sound R) (ho : o.Allowed w) :
    (o.after w).Stands v x := by
  obtain ⟨asks, done, top, weak⟩ := hp
  have hdone : o.perform.outcome w = (.ok (), o.after w) := Prod.ext done rfl
  cases asks with
  | @push a t type exported hweak =>
    have hends := Exec.ends_pushPointer hw exported fun hweak ↦ ho a type rfl exported hweak
    obtain ⟨hl, y, htop, hp⟩ := hends.ok hdone
    obtain rfl := Option.some.inj (top.symm.trans htop)
    exact hp.stands hl hw hweak weak
  | @cast idx target v live =>
    obtain ⟨-, y, htop, hcast⟩ := (Exec.keeps_cast (K := ∅) hw idx target ho).ok hdone
    obtain rfl := Option.some.inj (top.symm.trans htop)
    obtain ⟨u, hu, hstands⟩ := hcast weak
    obtain rfl := Resolved.live.inj (live.symm.trans hu)
    exact hstands

/-! ### One step -/

/-- A value is there as long as its userdata is. -/
def Has (w : World) (x : Value) : Prop :=
  ∀ id, x = .userdata id → w.binding.machine.heap.userdata.live id = true

/-- **A value goes on denoting its handle** in every step, as long as it is there. -/
theorem Passes.denotes (hp : w.Passes R K L w') (hd : w.Denotes h x) (hx : w'.Has x) :
    w'.Denotes h x := by
  cases x with
  | word word =>
    rw [Denotes, hp.registry]
    exact hd
  | userdata id =>
    obtain ⟨r, hr, hc⟩ := hd
    obtain ⟨r', hr', hages⟩ := hp.ages hr (hx id rfl)
    refine ⟨r', hr', ?_⟩
    rw [hp.registry]
    exact hages.carries hc
  | _ => exact hd

end World

namespace Session

variable {R : Realm} {C : Session → Move → Prop} {s s' : Session} {k : Nat} {w w' : World} {x : Value}
  {h : Handle}

/-! ### Runs -/

/-- The binding `k` of the session has a value: it has not been removed by the collector. -/
def Has (s : Session) (k : Nat) (x : Value) : Prop :=
  ∀ w, s.seen k = some w → w.Has x

/-- The condition that a binding keeps a value. -/
def Keeping (k : Nat) (x : Value) (s : Session) (m : Move) : Prop :=
  (s.move m).Has k x

/-- **A value denotes one handle along a run** that keeps the value. -/
theorem Run.denotes (hr : Run (Keeping k x) s s') (hs : s.Sound R) (hw : s.seen k = some w)
    (hd : w.Denotes h x) (hw' : s'.seen k = some w') : w'.Denotes h x := by
  induction hr generalizing w' with
  | refl =>
    obtain rfl := Option.some.inj (hw.symm.trans hw')
    exact hd
  | step run allowed condition ih =>
    obtain ⟨w₁, hw₁, -⟩ := run.later hs hw
    obtain ⟨w₂, hw₂, hp⟩ := (run.sound hs).move allowed hw₁
    obtain rfl := Option.some.inj (hw'.symm.trans hw₂)
    exact hp.denotes (ih hw₁) (condition w' hw')

/-- What is denoted along a run that keeps a value, told of any binding to which the value means
something: the one that has the value, and for a word every binding to the same registry. -/
theorem Run.denotes_elsewhere (hr : Run (Keeping k x) s s') (hs : s.Sound R) (hw : s.seen k = some w)
    (hd : w.Denotes h x) {k' : Nat} (hw' : s'.seen k' = some w')
    (hk : k' = k ∨ w'.binding.domain = w.binding.domain ∧ ∃ word, x = .word word) :
    w'.Denotes h x ∧ w'.binding.domain = w.binding.domain := by
  have hs' := hr.sound hs
  obtain ⟨w₁, hw₁, hl⟩ := hr.later hs hw
  have hd₁ := hr.denotes hs hw hd hw₁
  rcases hk with rfl | ⟨hdomain, word, rfl⟩
  · obtain rfl := Option.some.inj (hw'.symm.trans hw₁)
    exact ⟨hd₁, hl.domain⟩
  · refine ⟨?_, hdomain⟩
    have hregistry : w'.binding.registry = w₁.binding.registry := by
      rw [← (hs'.seen hw').registry, ← (hs'.seen hw₁).registry, hdomain, hl.domain]
    rw [World.Denotes, hregistry]
    exact hd₁

/-- **A value of a weak object leads to that object or to none.** Let an event of a session in order
produce a value `x` for the object seen as `v`. The object then has a handle, and at the end of every
run that keeps `x`, the value leads to an object only if the slot of the handle has been occupied by
the object all along, and only to a view with the root of that object. A word tells the last bits of
the serial, so for words fewer serials must have been handed out than it can tell. -/
theorem Sound.holds_of_produces (hs : s.Sound R) {o : Event} (ho : o.Allowed s.world) {v : View}
    (hx : s.world.Produces o v x) :
    ∃ h, (∃ u, s.world.binding.registry.root u = s.world.binding.registry.root v ∧
        (o.after s.world).HandleOf u h) ∧
      ∀ {s₁ s₂ k w v'}, Run (Keeping s.current x) (s.move (.happen o)) s₁ →
        Run (Keeping s.current x) s₁ s₂ → s₂.seen k = some w →
        (k = s.current ∨
          w.binding.domain = s.world.binding.domain ∧ ∃ word, x = .word word) →
        (∀ word, x = .word word → w.weakTable.nextSerial ≤ serialBound) →
        w.resolve x = .live v' →
        (∃ u, (s₁.world.host.weakTable s.world.binding.domain).Holds h.index h.serial u ∧
          s.world.binding.registry.root u = s.world.binding.registry.root v) ∧
        s.world.binding.registry.root v' = s.world.binding.registry.root v := by
  have hmove : s.Allows (.happen o) := ho
  have hs' := hs.after_move hmove
  obtain ⟨wo, hwo, hp⟩ := hs.move hmove s.seen_current
  have hcurrent : (s.move (.happen o)).seen s.current = some (o.after s.world) :=
    (s.move (.happen o)).seen_current
  obtain rfl := Option.some.inj (hcurrent.symm.trans hwo)
  have hregistry := hp.registry
  obtain ⟨u, h, hroot, hhandle, hdenotes⟩ := hx.stands hs.world ho
  rw [hregistry] at hroot
  have hlt := hhandle.serial_lt hp.sound
  obtain ⟨c, known, -, -, hknown, hidentity⟩ := id hhandle
  rw [hregistry] at hidentity
  refine ⟨h, ⟨u, hroot, hhandle⟩, fun {s₁ s₂ k w v'} hr₁ hr₂ hw hk hbound hv ↦ ?_⟩
  have hs₁ := hr₁.sound hs'
  obtain ⟨w₁, hw₁, hl₁⟩ := hr₁.later hs' hcurrent
  obtain ⟨w₂, hw₂, hl₂⟩ := hr₂.later hs₁ hw₁
  have hlt₁ := Nat.lt_of_lt_of_le hlt hl₁.follows.nextSerial_le
  have hlt₂ := Nat.lt_of_lt_of_le hlt₁ hl₂.follows.nextSerial_le
  have hdomain₁ : w₁.binding.domain = s.world.binding.domain := hl₁.domain.trans hp.domain
  obtain ⟨hd, hdomain⟩ := hr₂.denotes_elsewhere hs₁ hw₁ (hr₁.denotes hs' hcurrent hdenotes hw₁) hw
    (hk.imp_right fun hk ↦ ⟨hk.1.trans hdomain₁.symm, hk.2⟩)
  have hsound := (hr₂.sound hs₁).seen hw
  have htable : w.weakTable = w₂.weakTable := by
    rw [World.weakTable, World.weakTable, host_of_seen hw, host_of_seen hw₂, hdomain, hl₂.domain]
  have hregistry₁ : w.binding.registry = s.world.binding.registry := by
    rw [← hsound.registry, hdomain, hdomain₁, hs.world.registry]
  obtain ⟨u₂, hu₂, hroot₂⟩ := hsound.holds_of_resolve hd (htable ▸ hlt₂) hbound hv
  -- the slot has not been given to another object, since no serial is handed out twice
  obtain ⟨u₁, hu₁, hid₁⟩ := hl₂.follows.holds (htable ▸ hu₂) hlt₁
  obtain ⟨u₀, hu₀, hid₀⟩ := hl₁.follows.holds hu₁ hlt
  obtain rfl := (hknown.unique hu₀).2
  rw [hl₁.registry, hregistry] at hid₁
  rw [hregistry] at hid₀
  rw [hregistry₁] at hroot₂
  have hroot₁ : s.world.binding.registry.root u₁ = s.world.binding.registry.root v :=
    calc s.world.binding.registry.root u₁
        = s.world.binding.registry.root known := (congrArg Prod.snd hid₀).symm
      _ = s.world.binding.registry.root u := congrArg Prod.snd hidentity
      _ = s.world.binding.registry.root v := hroot
  have hheld : (s₁.world.host.weakTable s.world.binding.domain).Holds h.index h.serial u₁ := by
    rwa [World.weakTable, hdomain₁, host_of_seen hw₁] at hu₁
  exact ⟨⟨u₁, hheld, hroot₁⟩, hroot₂.trans ((congrArg Prod.snd hid₁).symm.trans hroot₁)⟩

/-- **Weak safety over whole runs.** Start a session with any number of bindings, and let anything
happen to it. Then let an event produce a value `x` for the weak object seen as `v`. From then on,
whatever happens, `x` leads to an object only while the slot that the object had at that moment has
not been given back, and only to a view with the root of that object. -/
theorem weak_safety {c : Catalogue} {registries : List (List PlanStep)} {plans : List BindingPlan}
    (hne : plans ≠ []) (hplans : ∀ p ∈ plans, p.registry < registries.length) {s₀ : Session}
    (hstart : start c registries plans = .ok s₀) (before : Run (fun _ _ ↦ True) s₀ s) {o : Event}
    (ho : o.Allowed s.world) {v : View} (hx : s.world.Produces o v x) :
    ∃ h, (∃ u, s.world.binding.registry.root u = s.world.binding.registry.root v ∧
        (o.after s.world).HandleOf u h) ∧
      ∀ {s₁ s₂ k w v'}, Run (Keeping s.current x) (s.move (.happen o)) s₁ →
        Run (Keeping s.current x) s₁ s₂ → s₂.seen k = some w →
        (k = s.current ∨
          w.binding.domain = s.world.binding.domain ∧ ∃ word, x = .word word) →
        (∀ word, x = .word word → w.weakTable.nextSerial ≤ serialBound) →
        w.resolve x = .live v' →
        (∃ u, (s₁.world.host.weakTable s.world.binding.domain).Holds h.index h.serial u ∧
          s.world.binding.registry.root u = s.world.binding.registry.root v) ∧
        s.world.binding.registry.root v' = s.world.binding.registry.root v :=
  (before.sound (sound_start hne hplans hstart)).holds_of_produces ho hx

/-- One type, whose objects are weak. -/
def puppets : Catalogue where
  types := #[{ name := "Puppet", size := 16, anchor := some 0 }]
  bases_first := by decide

/-- A session with a binding to a registry of puppets. -/
@[irreducible]
def theatre : Session :=
  match start puppets [[.create 0]] [{}] with
  | .ok s => s
  | .error _ => {}

theorem start_puppets : start puppets [[.create 0]] [{}] = .ok theatre := by
  have hok : (match start puppets [[.create 0]] [{}] with
    | .ok _ => true
    | .error _ => false) = true := by decide +kernel
  rw [theatre]
  cases h : start puppets [[.create 0]] [{}] with
  | ok s => rfl
  | error f => simp [h] at hok

/-- A puppet is shown and packed into a word; after a cycle of the collector, the word still leads to
it. -/
theorem weak_safety_puppet :
    ∃ h : Handle, (∃ u, theatre.world.binding.registry.root u =
          theatre.world.binding.registry.root ⟨0x1000, 0⟩ ∧
        ((Event.pushPointer (some 0x1000) 0).after theatre.world).HandleOf u h) ∧
      (∃ u, (((theatre.move (.happen (.pushPointer (some 0x1000) 0))).move
          (.happen .sweep)).world.host.weakTable theatre.world.binding.domain).Holds h.index h.serial u ∧
        theatre.world.binding.registry.root u = theatre.world.binding.registry.root ⟨0x1000, 0⟩) := by
  let shown := (Event.pushPointer (some 0x1000) 0).after theatre.world
  let s := theatre.move (.happen (.pushPointer (some 0x1000) 0))
  let s' := s.move (.happen .sweep)
  have hfacts : (theatre.world.weakTable.slots.size = 0 ∧
      theatre.world.binding.registry.idOf? 0 = some 0 ∧ theatre.world.binding.registry.isWeak 0 = true) ∧
      ((Event.pushPointer (some 0x1000) 0).perform.outcome theatre.world).1 = .ok () ∧
      (shown.top? = some (.word 0x0100000000000001) ∧
        shown.binding.registry.lightSlot? 0x0100000000000001 = some (.weakFamily 0)) ∧
      s'.current = theatre.current ∧
      s'.world.resolve (.word 0x0100000000000001) = .live ⟨0x1000, 0⟩ ∧
      s'.world.weakTable.nextSerial ≤ serialBound := by
    decide +kernel
  obtain ⟨⟨hempty, hexported, hweak⟩, hdone, ⟨htop, hslot⟩, hcurrent, hlive, hbound⟩ := hfacts
  have hallowed : (Event.pushPointer (some 0x1000) 0).Allowed theatre.world := by
    intro _ _ _ _ _ i n u hu
    simp [WeakTable.Holds, Array.eq_empty_of_size_eq_zero hempty] at hu
  have hproduces : theatre.world.Produces (.pushPointer (some 0x1000) 0) ⟨0x1000, 0⟩
      (.word 0x0100000000000001) := ⟨.push hexported hweak, hdone, htop, 0, hslot⟩
  obtain ⟨h, hhandle, hsafe⟩ := weak_safety (by decide) (by decide) start_puppets (.refl _) hallowed
    hproduces
  have hswept : Run (Keeping theatre.current (.word 0x0100000000000001)) s s' :=
    .step (.refl _) trivial fun _ _ _ hx ↦ absurd hx (by simp)
  exact ⟨h, hhandle, (hsafe hswept (.refl _) (seen_current _) (Or.inl hcurrent) (fun _ _ ↦ hbound)
    hlive).1⟩

end Session

end ObjectBridge
