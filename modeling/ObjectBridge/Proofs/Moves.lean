import ObjectBridge.Proofs.Calling
import ObjectBridge.Proofs.Casting
import ObjectBridge.Proofs.Owning
import ObjectBridge.Session

/-!
# Moves of a session

An `Event` is a call into the bridge, or something that the host does to its own objects. A session
moves when an event happens to the binding that is called, when something happens that does
not matter to the bridge (`World.Quiet`), or when it turns to another binding. A `Session.Run` is any
number of moves.

`Event.passes` says what one event does to the world of the binding that is called, and
`Session.Sound.move` what one move does to the world of any binding; what holds along runs follows by
induction.
-/

namespace ObjectBridge

/-- What the bridge can be asked to do, and what the host can do to its objects. -/
inductive Event where
  | pushPointer (a : Option Address) (t : TypeKey)
  | pushOwned (t : TypeKey) (a : Address)
  | pushShare (block : Nat)
  | pushContainer (kind : ContainerKind) (a : Option Address)
  | pushOwnedContainer (kind : ContainerKind) (a : Address)
  | cast (idx : Int) (target : Nat)
  /-- The finalizer of the bridge, called by a script. -/
  | finalize
  /-- A cycle of the collector, up to the finalizers. -/
  | sweep
  /-- The finalizer of a userdata that a cycle has found due. -/
  | runFinalizer (fuel id : Nat)
  /-- The anchor of a weak object gives its slot back. -/
  | detach (cell : Address)
  | destroy (t : TypeKey) (a : Address)
  | dropOwner (block : Nat)

namespace Event

/-- What is computed when an event happens. -/
def perform : Event → Exec Unit
  | pushPointer a t => Exec.pushPointer a t
  | pushOwned t a => Exec.pushOwned t a
  | pushShare block => do let _ ← Exec.pushShare block; return
  | pushContainer kind a => Exec.pushContainer kind a
  | pushOwnedContainer kind a => Exec.pushOwnedContainer kind a
  | cast idx target => Exec.cast idx target
  | finalize => do let _ ← Exec.finalize; return
  | sweep => do let _ ← Exec.sweep; return
  | runFinalizer fuel id => Exec.runFinalizer (Exec.runner fuel) id
  | detach cell => Exec.modifyHost (·.detach cell)
  | destroy t a => Exec.modifyHost (·.destroy t a)
  | dropOwner block => Exec.modifyHost (·.dropOwner block)

/-- What is promised about an event: an object that is shown as a weak one has its anchor for itself,
and a finalizer that the collector runs is that of the bridge. -/
def Allowed (w : World) : Event → Prop
  | pushPointer a t => ∀ a' type, a = some a' → w.binding.registry.idOf? t = some type →
      w.binding.registry.isWeak type = true → w.Single ⟨a', type⟩
  | cast idx target => ∀ v a, w.resolve (w.binding.machine.valueAt idx) = .live v →
      w.binding.registry.toDerived? w.host.memory v target = some a →
      w.binding.registry.isWeak target = true → w.Single ⟨a, target⟩
  | runFinalizer _ id => w.binding.machine.metafield (.userdata id) "__gc" ≠ .nil →
      w.binding.machine.callable? (w.binding.machine.metafield (.userdata id) "__gc") =
        some (.builtin .finalize)
  | _ => True

/-- The keys that an event may give to another userdata. -/
def claims (w : World) : Event → Set CacheKey
  | pushOwned t a => {k | ∃ type, w.binding.registry.idOf? t = some type ∧
      (w.host.catalogue.declaration t).size ≠ 0 ∧ k = .owned (w.rootOf ⟨a, type⟩)}
  | pushShare _ => {k | ∃ root, k = .shared root}
  | pushOwnedContainer kind a => {.container a kind}
  | _ => ∅

/-- The userdata that an event may lose. -/
def losses (w : World) : Event → Set Nat
  | sweep => (Exec.flushed w).unreached
  | _ => ∅

variable {R : Realm} {w : World}

/-- **What the bridge keeps up, it keeps up in every event**, whether or not it is interrupted. -/
theorem ends_perform (o : Event) (hw : w.Sound R) (ho : o.Allowed w) :
    Exec.Ends o.perform (fun _ w' ↦ w.Passes R (o.claims w) (o.losses w) w')
      (fun _ w' ↦ w.Passes R (o.claims w) (o.losses w) w') w := by
  have hkeeps : ∀ {α : Type} {x : Exec α} {Q : α → World → Prop},
      Exec.Keeps R (o.claims w) x Q w →
        Exec.Ends x (fun _ w' ↦ w.Passes R (o.claims w) (o.losses w) w')
          (fun _ w' ↦ w.Passes R (o.claims w) (o.losses w) w') w := fun {_ _ _} h ↦
    Exec.Ends.imp h (fun _ _ h ↦ h.1.passes) fun _ _ h ↦ h.passes
  have hdiscard : ∀ {α : Type} {x : Exec α} {P : World → Prop},
      Exec.Ends x (fun _ ↦ P) (fun _ ↦ P) w →
        Exec.Ends (do let _ ← x; return) (fun _ ↦ P) (fun _ ↦ P) w := fun {_ _ _} h ↦ by
    rw [Exec.ends_bind]
    exact h
  cases o with
  | pushPointer a t => exact hkeeps (Exec.keeps_pushPointer hw a t ho)
  | pushOwned t a =>
    exact hkeeps (Exec.keeps_pushOwned hw t a fun type ht hsize ↦ ⟨type, ht, hsize, rfl⟩)
  | pushShare block =>
    exact hdiscard (hkeeps (Exec.keeps_pushShare hw block fun root ↦ ⟨root, rfl⟩))
  | pushContainer kind a => exact hkeeps (Exec.keeps_pushContainer hw kind a)
  | pushOwnedContainer kind a => exact hkeeps (Exec.keeps_pushOwnedContainer hw kind a rfl)
  | cast idx target => exact hkeeps (Exec.keeps_cast hw idx target ho)
  | finalize => exact hdiscard (hkeeps (Exec.keeps_finalize hw))
  | sweep => exact hdiscard (Exec.ends_sweep hw)
  | runFinalizer fuel id =>
    exact hkeeps (Exec.keeps_runFinalizer hw rfl fun hne ↦
      ⟨_, ho hne, fun w₁ hw₁ ↦ by
        rw [Exec.runner_builtin]
        exact (Exec.keeps_finalize hw₁).imp fun _ _ _ _ ↦ trivial⟩)
  | detach cell => exact (World.Leads.host hw (Host.Evolves.detach _ cell)).passes
  | destroy t a => exact (World.Leads.host hw (Host.Evolves.lasting.destroy _ t a)).passes
  | dropOwner block => exact (World.Leads.host hw (Host.Evolves.lasting.dropOwner _ block)).passes

/-- The world after an event. -/
def after (w : World) (o : Event) : World :=
  (o.perform.outcome w).2

theorem passes (o : Event) (hw : w.Sound R) (ho : o.Allowed w) :
    w.Passes R (o.claims w) (o.losses w) (o.after w) :=
  (o.ends_perform hw ho).world

end Event

/-- What can become of a session. -/
inductive Move where
  /-- Something happens to the binding that is called. -/
  | happen (o : Event)
  /-- Something happens that does not matter to the bridge. -/
  | pass (w : World)
  /-- Another binding is called. -/
  | turn (k : Nat)

namespace World

variable {R : Realm} {K : Set CacheKey} {L : Set Nat} {w w' : World}

/-- What happens to one binding leaves the others alone. -/
theorem Passes.elsewhere (h : w.Passes R K L w') {b : Binding} (hb : b.Sound R w.host) {K' : Set CacheKey} :
    ({ w with binding := b } : World).Leads R K' { w' with binding := b } where
  sound := ⟨h.sound.anchored, hb.follows h.follows (h.isSome_weakTable? _ hb.isSome_weakTable?)⟩
  follows := h.follows
  isSome_weakTable? := h.isSome_weakTable?
  registry := rfl
  domain := rfl
  settings := rfl
  ages {_ r} hr := ⟨r, hr, Record.Ages.refl r⟩
  remembers _ _ _ _ _ hm := Or.inl hm
  absent _ ha := ha

/-- A world comes after another one of the same binding. -/
structure Later (w w' : World) : Prop where
  registry : w'.binding.registry = w.binding.registry
  domain : w'.binding.domain = w.binding.domain
  follows : WeakTable.Follows w.binding.registry.identity w.weakTable w'.weakTable

theorem Later.refl (w : World) : w.Later w :=
  ⟨rfl, rfl, WeakTable.Follows.refl _⟩

theorem Later.trans {w'' : World} (hl : w.Later w') (hl' : w'.Later w'') : w.Later w'' :=
  ⟨hl'.registry.trans hl.registry, hl'.domain.trans hl.domain,
    hl.follows.trans (hl.registry ▸ hl'.follows)⟩

theorem Passes.later (hp : w.Passes R K L w') (hw : w.Sound R) : w.Later w' where
  registry := hp.registry
  domain := hp.domain
  follows := hw.registry ▸ weakTable_follows hp.follows hp.sound hp.domain

theorem quiet_desk (w : World) (d : Desk) : w.Quiet { w with desk := d } :=
  ⟨⟨fun _ ↦ rfl, rfl⟩, rfl, rfl, rfl, rfl, rfl, rfl, rfl, rfl, rfl⟩

end World

namespace Session

variable {R : Realm} {s : Session}

/-- The world as a binding of the session sees it. -/
def seen (s : Session) (k : Nat) : Option World :=
  if k = s.current then some s.world
  else (s.bindings[k]?).map fun b ↦ { s.world with binding := b }

/-- The binding that is called is one of the session, and every binding is in order. -/
structure Sound (R : Realm) (s : Session) : Prop where
  current_lt : s.current < s.bindings.size
  seen : ∀ {k w}, s.seen k = some w → w.Sound R

/-- The session after a move. -/
def move (s : Session) : Move → Session
  | .happen o => { s with world := o.after s.world }
  | .pass w => { s with world := w }
  | .turn k => s.turn k

/-- What the host promises about a move. -/
def Allows (s : Session) : Move → Prop
  | .happen o => o.Allowed s.world
  | .pass w => s.world.Quiet w
  | .turn _ => True

/-- The keys of a binding that a move may give to another userdata. -/
def claims (s : Session) (k : Nat) : Move → Set CacheKey
  | .happen o => {key | k = s.current ∧ key ∈ o.claims s.world}
  | _ => ∅

/-- The userdata of a binding that a move may lose. -/
def losses (s : Session) (k : Nat) : Move → Set Nat
  | .happen o => {id | k = s.current ∧ id ∈ o.losses s.world}
  | _ => ∅

theorem seen_current (s : Session) : s.seen s.current = some s.world :=
  if_pos rfl

theorem host_of_seen {k : Nat} {w : World} (hw : s.seen k = some w) : w.host = s.world.host := by
  rw [seen] at hw
  split at hw
  · rw [Option.some.inj hw]
  · obtain ⟨b, -, rfl⟩ := Option.map_eq_some_iff.1 hw
    rfl

theorem Sound.world (hs : s.Sound R) : s.world.Sound R :=
  hs.seen s.seen_current

/-! ### One move -/

/-- The worlds of a session after the world of the binding that is called has changed. -/
theorem seen_withWorld (s : Session) (w' : World) (k : Nat) :
    ({ s with world := w' } : Session).seen k =
      if k = s.current then some w' else (s.seen k).map fun w ↦ { w' with binding := w.binding } := by
  rw [seen, seen]
  split
  · rfl
  · rw [Option.map_map]
    rfl

theorem getElem?_park (hlt : s.current < s.bindings.size) (i : Nat) :
    s.park.bindings[i]? = if i = s.current then some s.world.binding else s.bindings[i]? := by
  rw [park, Array.getElem?_setIfInBounds]
  by_cases hi : s.current = i
  · subst hi
    simp [hlt]
  · have hi' : i ≠ s.current := fun e ↦ hi e.symm
    simp [hi, hi']

/-- Turning to another binding changes what no binding sees but the registers of the host. -/
theorem seen_turn (hlt : s.current < s.bindings.size) (k k' : Nat) :
    (s.turn k).seen k' = (s.seen k').map fun w ↦ { w with desk := (s.turn k).world.desk } := by
  have hpark := getElem?_park hlt
  rw [turn]
  cases hb : s.park.bindings[k]? with
  | none =>
    show (if k' = s.current then some s.world
      else (s.park.bindings[k']?).map fun b ↦ { s.world with binding := b }) = _
    rw [hpark, seen]
    by_cases hc : k' = s.current
    · simp only [hc, if_true]
      rfl
    · simp only [hc, if_false, Option.map_map]
      rfl
  | some b =>
    show (if k' = k then some { s.world with binding := b, desk := s.world.desk.releaseRegisters }
      else (s.park.bindings[k']?).map fun b ↦
        { s.world with binding := b, desk := s.world.desk.releaseRegisters }) = _
    rw [hpark] at hb ⊢
    rw [seen]
    by_cases hk : k' = k
    · subst hk
      by_cases hc : k' = s.current
      · simp only [hc, if_true] at hb ⊢
        rw [← Option.some.inj hb]
        rfl
      · simp only [hc, if_false] at hb ⊢
        rw [hb]
        rfl
    · by_cases hc : k' = s.current
      · simp only [hc, if_true]
        have hne : s.current ≠ k := fun e ↦ hk (hc.trans e)
        simp only [hne, if_false]
        rfl
      · simp only [hk, hc, if_false, Option.map_map]
        rfl

theorem size_bindings_move (s : Session) (m : Move) :
    (s.move m).bindings.size = s.bindings.size := by
  cases m with
  | happen | pass => rfl
  | turn k =>
    rw [move, turn]
    cases s.park.bindings[k]? <;> simp [park]

theorem current_move_lt (hlt : s.current < s.bindings.size) (m : Move) :
    (s.move m).current < (s.move m).bindings.size := by
  rw [size_bindings_move]
  cases m with
  | happen | pass => exact hlt
  | turn k =>
    rw [move, turn]
    cases hb : s.park.bindings[k]? with
    | none => exact hlt
    | some b =>
      have hk := (Array.getElem?_eq_some_iff.1 hb).1
      rwa [park, Array.size_setIfInBounds] at hk

/-- **What one move does to the world of a binding.** -/
theorem Sound.move (hs : s.Sound R) {m : Move} (hm : s.Allows m) {k : Nat} {w : World}
    (hw : s.seen k = some w) :
    ∃ w', (s.move m).seen k = some w' ∧ w.Passes R (s.claims k m) (s.losses k m) w' := by
  have hsound := hs.seen hw
  have hchange : ∀ {w₁ : World} {K : Set CacheKey} {L : Set Nat}, s.world.Passes R K L w₁ →
      ∃ w', ({ s with world := w₁ } : Session).seen k = some w' ∧
        w.Passes R {key | k = s.current ∧ key ∈ K} {id | k = s.current ∧ id ∈ L} w' := by
    intro w₁ K L hp
    rw [seen_withWorld]
    by_cases hk : k = s.current
    · rw [if_pos hk]
      subst hk
      obtain rfl := Option.some.inj (s.seen_current.symm.trans hw)
      have hK : {key | s.current = s.current ∧ key ∈ K} = K := by simp
      have hL : {id | s.current = s.current ∧ id ∈ L} = L := by simp
      rw [hK, hL]
      exact ⟨w₁, rfl, hp⟩
    · rw [if_neg hk, hw]
      refine ⟨_, rfl, ?_⟩
      obtain ⟨b, -, rfl⟩ : ∃ b, s.bindings[k]? = some b ∧ { s.world with binding := b } = w := by
        rw [Session.seen, if_neg hk] at hw
        exact Option.map_eq_some_iff.1 hw
      exact (hp.elsewhere hsound.binding).passes
  cases m with
  | happen o => exact hchange (o.passes hs.world hm)
  | pass w₁ =>
    obtain ⟨w', hw', hp⟩ := hchange (World.Leads.quiet (K := ∅) hs.world hm).passes (L := ∅)
    refine ⟨w', hw', ?_⟩
    simpa [claims, losses] using hp
  | turn k' =>
    refine ⟨_, (seen_turn hs.current_lt k' k).trans (by rw [hw]; rfl), ?_⟩
    exact (World.Leads.quiet hsound (w.quiet_desk _)).passes

/-- **A move leaves every binding in order.** -/
theorem Sound.after_move (hs : s.Sound R) {m : Move} (hm : s.Allows m) : (s.move m).Sound R where
  current_lt := current_move_lt hs.current_lt m
  seen {k w'} hw' := by
    have hk : ∃ w, s.seen k = some w := by
      cases hw : s.seen k with
      | some w => exact ⟨w, rfl⟩
      | none =>
        exfalso
        rw [Session.seen] at hw
        split at hw
        · exact absurd hw (by simp)
        · rename_i hne
          rw [Option.map_eq_none_iff, Array.getElem?_eq_none_iff] at hw
          rw [Session.seen] at hw'
          split at hw'
          · rename_i hc
            have hlt := current_move_lt hs.current_lt m
            rw [size_bindings_move] at hlt
            omega
          · obtain ⟨b, hb, -⟩ := Option.map_eq_some_iff.1 hw'
            have hlt := (Array.getElem?_eq_some_iff.1 hb).1
            rw [size_bindings_move] at hlt
            omega
    obtain ⟨w, hw⟩ := hk
    obtain ⟨w'', hw'', hp⟩ := hs.move hm hw
    obtain rfl := Option.some.inj (hw'.symm.trans hw'')
    exact hp.sound

/-! ### Runs -/

/-- A run of a session, in which every move satisfies a condition. -/
inductive Run (C : Session → Move → Prop) : Session → Session → Prop
  | refl (s : Session) : Run C s s
  | step {s s' : Session} {m : Move} (run : Run C s s') (allowed : s'.Allows m)
      (condition : C s' m) : Run C s (s'.move m)

variable {C : Session → Move → Prop} {s' : Session}

/-- **Every binding stays in order along a run.** -/
theorem Run.sound (h : Run C s s') (hs : s.Sound R) : s'.Sound R := by
  induction h with
  | refl => exact hs
  | step _ hm _ ih => exact ih.after_move hm

/-- **The bindings of a session stay along a run**, each with its registry. -/
theorem Run.later (hr : Run C s s') (hs : s.Sound R) {k : Nat} {w : World} (hw : s.seen k = some w) :
    ∃ w', s'.seen k = some w' ∧ w.Later w' := by
  induction hr with
  | refl => exact ⟨w, hw, .refl w⟩
  | step run allowed _ ih =>
    obtain ⟨w₁, hw₁, hl₁⟩ := ih
    have hs₁ := run.sound hs
    obtain ⟨w', hw', hp⟩ := hs₁.move allowed hw₁
    exact ⟨w', hw', hl₁.trans (hp.later (hs₁.seen hw₁))⟩

theorem Run.trans {s'' : Session} (h : Run C s s') (h' : Run C s' s'') : Run C s s'' := by
  induction h' with
  | refl => exact h
  | step _ hm hc ih => exact .step ih hm hc

theorem Run.mono {C' : Session → Move → Prop} (h : Run C s s') (hC : ∀ s m, C s m → C' s m) :
    Run C' s s' := by
  induction h with
  | refl => exact .refl _
  | step _ hm hc ih => exact .step ih hm (hC _ _ hc)

end Session

end ObjectBridge
