import ObjectBridge.Proofs.Equipping
import ObjectBridge.Proofs.Moves
import ObjectBridge.Proofs.Registration

/-!
# Starting a session

A session that has been started is in order (`Session.sound_start`): its bindings are made one after
the other, each from a machine that has just been prepared, and the host stays as it was. So
`Session.Run.sound` applies to every run of a started session.
-/

namespace ObjectBridge

/-- The registries that the plans of a session lead to. -/
def Realm.ofPlans (c : Catalogue) (registries : List (List PlanStep)) : Realm where
  registry d := Registry.ofPlan c (registries.getD d [])
  sound _ := Registry.sound_ofPlan c _

namespace Host

/-- The host of a session that is about to start. -/
def beginning (c : Catalogue) (registries : List (List PlanStep)) : Host where
  catalogue := c
  weakTables := ((registries.map (Registry.ofPlan c)).toArray).map fun _ ↦ some {}

variable {c : Catalogue} {registries : List (List PlanStep)}

theorem weakTable?_beginning {d : Nat} (hd : d < registries.length) :
    (beginning c registries).weakTable? d = some {} := by
  simp [weakTable?, beginning, hd]

/-- No object has a slot in the beginning. -/
theorem anchor_beginning (cell : Address) : (beginning c registries).memory.anchor cell = {} := by
  have hcell : (beginning c registries).memory.cells.find? cell = none := Dict.find?_empty _
  rw [Memory.anchor, hcell]

/-- A host without weak objects has its anchors in order. -/
theorem anchored_beginning (R : Realm) : (beginning c registries).Anchored R := by
  have hempty : ∀ {d t}, (beginning c registries).weakTable? d = some t → t = {} := by
    intro d t ht
    rw [weakTable?, Option.join_eq_some_iff] at ht
    obtain ⟨hd, ht⟩ := Array.getElem?_eq_some_iff.1 ht
    simpa [beginning, eq_comm] using ht
  refine ⟨fun ht ↦ ?_, fun hc _ ↦ ?_, fun ht hh ↦ ?_⟩
  · rw [hempty ht]
    exact WeakTable.sound_empty
  · rw [anchor_beginning] at hc
    exact absurd hc (by simp)
  · rw [hempty ht] at hh
    exact absurd hh (by simp [WeakTable.Holds])

end Host

namespace Session

variable {c : Catalogue} {registries : List (List PlanStep)} {s s' : Session}

/-- The bindings of a session are in order, and the host is as it was in the beginning. -/
structure Starting (c : Catalogue) (registries : List (List PlanStep)) (s : Session) : Prop where
  host : s.world.host = Host.beginning c registries
  current_lt : s.bindings.size = 0 ∨ s.current < s.bindings.size
  sound : ∀ {k : Nat} {b : Binding}, s.park.bindings[k]? = some b →
    b.Sound (Realm.ofPlans c registries) s.world.host
  blank : ∀ {k : Nat} {b : Binding}, s.park.bindings[k]? = some b →
    World.Blank { s.world with binding := b }
  equipped : ∀ {k : Nat} {b : Binding}, s.park.bindings[k]? = some b →
    World.Equipped { s.world with binding := b }

/-- The world in which the machine of a new binding is prepared. -/
theorem Starting.fresh_addBinding (hs : s.Starting c registries) {p : BindingPlan}
    (hp : p.registry < registries.length) (pins : Array PinTable) (number : Nat) :
    World.Fresh (Realm.ofPlans c registries) { s.world with
      binding := { registry := ((registries.map (Registry.ofPlan c)).toArray).getD p.registry {},
                   domain := p.registry, number := number, settings := p.settings }
      pins := pins } where
  anchored := by
    show s.world.host.Anchored _
    rw [hs.host]
    exact Host.anchored_beginning _
  registry := by simp [Realm.ofPlans, hp]
  isSome_weakTable? := by
    show (s.world.host.weakTable? p.registry).isSome = true
    rw [hs.host, Host.weakTable?_beginning hp]
    rfl
  machine := rfl
  cache := rfl

/-- **A new binding is in order, and the others stay so.** -/
theorem Starting.addBinding (hs : s.Starting c registries) {p : BindingPlan}
    (hp : p.registry < registries.length)
    (h : s.addBinding ((registries.map (Registry.ofPlan c)).toArray) p = .ok s') :
    s'.Starting c registries ∧ 0 < s'.bindings.size := by
  unfold Session.addBinding at h
  extract_lets parked number fresh world at h
  split at h
  · rename_i w hsetup
    obtain ⟨hw, hblank, hhost⟩ := Exec.sound_of_setup (hs.fresh_addBinding hp _ _) hsetup
    have hequipped := Exec.equipped_of_setup (hs.fresh_addBinding hp _ _) hsetup
    obtain rfl := Except.ok.inj h
    have hsize : number < (parked.bindings.push w.binding).size := by
      rw [Array.size_push]
      exact Nat.lt_succ_self _
    have hbinding : ∀ {k : Nat} {b : Binding},
        (Session.park ⟨w, parked.bindings.push w.binding, number⟩).bindings[k]? = some b →
          b = w.binding ∨ parked.bindings[k]? = some b := fun {k b} hb ↦ by
      rw [getElem?_park hsize] at hb
      split at hb
      · exact Or.inl (Option.some.inj hb).symm
      · rename_i hne
        exact Or.inr (by rwa [Array.getElem?_push, if_neg hne] at hb)
    refine ⟨⟨hhost.trans hs.host, Or.inr hsize, fun {k b} hb ↦ ?_, fun {k b} hb ↦ ?_,
      fun {k b} hb ↦ ?_⟩, Nat.zero_lt_of_lt hsize⟩
    · show b.Sound _ w.host
      rcases hbinding hb with rfl | hb
      · exact hw.binding
      · rw [hhost]
        exact hs.sound hb
    · rcases hbinding hb with rfl | hb
      · exact hblank
      · exact ⟨(hs.blank hb).record?, (hs.blank hb).cache⟩
    · rcases hbinding hb with rfl | hb
      · exact hequipped
      · exact (hs.equipped hb).congr rfl
  · exact absurd h (by simp)
  · exact absurd h (by simp)

theorem Starting.foldlM (hs : s.Starting c registries) {plans : List BindingPlan}
    (hplans : ∀ p ∈ plans, p.registry < registries.length)
    (h : plans.foldlM (fun s p ↦ s.addBinding ((registries.map (Registry.ofPlan c)).toArray) p) s =
      .ok s') :
    s'.Starting c registries ∧ (plans ≠ [] ∨ 0 < s.bindings.size → 0 < s'.bindings.size) := by
  induction plans generalizing s with
  | nil =>
    obtain rfl := Except.ok.inj h
    exact ⟨hs, fun h ↦ h.resolve_left fun hne ↦ hne rfl⟩
  | cons p plans ih =>
    rw [List.foldlM_cons] at h
    cases hp : s.addBinding ((registries.map (Registry.ofPlan c)).toArray) p with
    | error f =>
      rw [hp] at h
      exact absurd h (by simp [bind, Except.bind])
    | ok s₁ =>
      rw [hp] at h
      obtain ⟨hs₁, hsize⟩ := hs.addBinding (hplans p List.mem_cons_self) hp
      obtain ⟨hs', hsize'⟩ := ih hs₁ (fun q hq ↦ hplans q (List.mem_cons_of_mem p hq)) h
      exact ⟨hs', fun _ ↦ hsize' (Or.inr hsize)⟩

/-- What is seen of a session is one of its bindings. -/
theorem binding_of_seen (hlt : s.current < s.bindings.size) {k : Nat} {w : World}
    (hw : s.seen k = some w) :
    s.park.bindings[k]? = some w.binding ∧ w = { s.world with binding := w.binding } := by
  rw [getElem?_park hlt]
  rw [Session.seen] at hw
  by_cases hk : k = s.current
  · rw [if_pos hk] at hw ⊢
    obtain rfl := Option.some.inj hw
    exact ⟨rfl, rfl⟩
  · rw [if_neg hk] at hw ⊢
    obtain ⟨b, hb, rfl⟩ := Option.map_eq_some_iff.1 hw
    exact ⟨hb, rfl⟩

/-- A session whose bindings are in order is in order. -/
theorem Starting.session (hs : s.Starting c registries) (hsize : 0 < s.bindings.size) :
    s.Sound (Realm.ofPlans c registries) where
  current_lt := hs.current_lt.resolve_left (by omega)
  seen {k w} hw := by
    have hanchored : s.world.host.Anchored (Realm.ofPlans c registries) := by
      rw [hs.host]
      exact Host.anchored_beginning _
    obtain ⟨hb, hsame⟩ := binding_of_seen (hs.current_lt.resolve_left (by omega)) hw
    have hhost : w.host = s.world.host := by rw [hsame]
    exact ⟨hhost ▸ hanchored, hhost ▸ hs.sound hb⟩

/-- A session is started by adding its bindings one after the other, and a turn to the first of them. -/
theorem exists_of_start {plans : List BindingPlan} (h : start c registries plans = .ok s) :
    ∃ s₁ : Session, plans.foldlM (fun (s : Session) p ↦
        s.addBinding ((registries.map (Registry.ofPlan c)).toArray) p)
          { world := { host := Host.beginning c registries } } = .ok s₁ ∧ s = s₁.turn 0 := by
  have h' : (plans.foldlM (fun (s : Session) p ↦
      s.addBinding ((registries.map (Registry.ofPlan c)).toArray) p)
        { world := { host := Host.beginning c registries } } >>= fun (s : Session) ↦ pure (s.turn 0)) =
      Except.ok s := h
  cases hfold : plans.foldlM (fun s p ↦
      s.addBinding ((registries.map (Registry.ofPlan c)).toArray) p)
        ({ world := { host := Host.beginning c registries } } : Session) with
  | error f =>
    rw [hfold] at h'
    exact absurd h' (by simp [bind, Except.bind])
  | ok s₁ =>
    rw [hfold] at h'
    exact ⟨s₁, rfl, (Except.ok.inj h').symm⟩

/-- A session that has been started has come from one whose bindings are in order by a turn to the first
of them. -/
theorem exists_starting {plans : List BindingPlan} (hne : plans ≠ [])
    (hplans : ∀ p ∈ plans, p.registry < registries.length)
    (h : start c registries plans = .ok s) :
    ∃ s₁ : Session, s₁.Starting c registries ∧ 0 < s₁.bindings.size ∧ s = s₁.turn 0 := by
  have hbegin : Starting c registries { world := { host := Host.beginning c registries } } :=
    ⟨rfl, Or.inl rfl, fun hb ↦ absurd hb (by simp [park]), fun hb ↦ absurd hb (by simp [park]),
      fun hb ↦ absurd hb (by simp [park])⟩
  obtain ⟨s₁, hfold, rfl⟩ := exists_of_start h
  obtain ⟨hstarting, hsize⟩ := hbegin.foldlM hplans hfold
  exact ⟨s₁, hstarting, hsize (Or.inl hne), rfl⟩

/-- **A session that has been started is in order**, however many bindings share its registries. -/
theorem sound_start {plans : List BindingPlan} (hne : plans ≠ [])
    (hplans : ∀ p ∈ plans, p.registry < registries.length)
    (h : start c registries plans = .ok s) : s.Sound (Realm.ofPlans c registries) := by
  obtain ⟨s₁, hs₁, hsize, rfl⟩ := exists_starting hne hplans h
  exact (hs₁.session hsize).after_move (m := .turn 0) trivial

/-- **A session that has been started has no records**, and remembers nothing. -/
theorem blank_start {plans : List BindingPlan} (hne : plans ≠ [])
    (hplans : ∀ p ∈ plans, p.registry < registries.length)
    (h : start c registries plans = .ok s) {k : Nat} {w : World} (hw : s.seen k = some w) :
    w.Blank := by
  obtain ⟨s₁, hs₁, hsize, rfl⟩ := exists_starting hne hplans h
  rw [seen_turn (hs₁.session hsize).current_lt] at hw
  obtain ⟨w₁, hw₁, rfl⟩ := Option.map_eq_some_iff.1 hw
  obtain ⟨hb, hsame⟩ := binding_of_seen (hs₁.session hsize).current_lt hw₁
  have hblank := hs₁.blank hb
  rw [← hsame] at hblank
  exact ⟨hblank.record?, hblank.cache⟩

/-- The host of a session that has been started is as it was in the beginning. -/
theorem host_start {plans : List BindingPlan} (hne : plans ≠ [])
    (hplans : ∀ p ∈ plans, p.registry < registries.length)
    (h : start c registries plans = .ok s) {k : Nat} {w : World} (hw : s.seen k = some w) :
    w.host = Host.beginning c registries := by
  obtain ⟨s₁, hs₁, hsize, rfl⟩ := exists_starting hne hplans h
  rw [seen_turn (hs₁.session hsize).current_lt] at hw
  obtain ⟨w₁, hw₁, rfl⟩ := Option.map_eq_some_iff.1 hw
  exact (host_of_seen hw₁).trans hs₁.host

/-- **Every binding of a session that has been started is equipped.** -/
theorem equipped_start {plans : List BindingPlan} (hne : plans ≠ [])
    (hplans : ∀ p ∈ plans, p.registry < registries.length)
    (h : start c registries plans = .ok s) {k : Nat} {w : World} (hw : s.seen k = some w) :
    w.Equipped := by
  obtain ⟨s₁, hs₁, hsize, rfl⟩ := exists_starting hne hplans h
  rw [seen_turn (hs₁.session hsize).current_lt] at hw
  obtain ⟨w₁, hw₁, rfl⟩ := Option.map_eq_some_iff.1 hw
  obtain ⟨hb, -⟩ := binding_of_seen (hs₁.session hsize).current_lt hw₁
  exact (hs₁.equipped hb).congr rfl

end Session

end ObjectBridge
