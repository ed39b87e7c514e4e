import ObjectBridge.Proofs.Identity
import ObjectBridge.Proofs.Keeping

/-!
# What userdata with payloads show

A userdata that owns something shows that, all along a session (`Session.payloads_revealed`): an
object as one of its own type, and a container as what it is. A share is shown as an object of the
type of its block at least. But nothing in a cast excludes the userdata of shares, as it excludes
those that own their objects: the userdata of a share can be made to show a type derived from that
of the block (`Session.not_shares_revealed`), and only as long as nobody casts it down it shows the
very type.
-/

namespace ObjectBridge

namespace World

variable {R : Realm} {X : Set Nat} {w w' : World} {id : Nat} {r : Record} {p : Payload}

/-- A userdata with a payload is seen as just what it owns. -/
def Reveals (w : World) (id : Nat) : Payload → Prop
  | .object t a => ∃ type, w.binding.registry.idOf? t = some type ∧
      w.resolve (.userdata id) = .live ⟨a, type⟩
  | .share block => ∃ b type, w.host.blocks[block]? = some b ∧
      w.binding.registry.idOf? b.type = some type ∧
      w.resolve (.userdata id) = .live ⟨b.address, type⟩
  | .container kind a => w.container? (.userdata id) = some (kind, a)

/-- Accurate records reveal what they own, but for shares that need not be exact. -/
theorem Accurate.reveals (ha : w.Accurate X) (hr : w.record? id = some r) (hp : r.payload = some p)
    (hexact : ∀ block, p = .share block → id ∈ X) : w.Reveals id p := by
  have hpresents := (ha.record hr).payload hp
  cases p with
  | object t a =>
    obtain ⟨-, htarget, type, htype, he⟩ := hpresents
    exact ⟨type, htype, resolve_of_pointer hr he htarget⟩
  | share block =>
    obtain ⟨-, b, type, shown, hb, htype, he, -, hsame⟩ := hpresents
    obtain ⟨rfl, htarget⟩ := hsame (hexact block rfl)
    exact ⟨b, shown, hb, htype, resolve_of_pointer hr he htarget⟩
  | container kind a =>
    obtain ⟨-, htarget, he⟩ := hpresents
    have hmachine : w.binding.machine.record? id = some r := hr
    simp only [Reveals, container?, Value.userdata?, Option.bind_some, hmachine, he, htarget]

/-- Where no userdata in `X` owns a share, shares are as exact as one likes there. -/
theorem Accurate.exactly (ha : w.Accurate ∅)
    (hnone : ∀ {id r block}, id ∈ X → w.record? id = some r → r.payload ≠ some (.share block)) :
    w.Accurate X where
  record {id r} hr :=
    ⟨(ha.record hr).placed, (ha.record hr).derived, fun {p} hp ↦ by
      have hpresents := (ha.record hr).payload hp
      cases p with
      | object t a | container kind a => exact hpresents
      | share block =>
        obtain ⟨hownership, b, type, shown, hb, htype, he, hbase, -⟩ := hpresents
        exact ⟨hownership, b, type, shown, hb, htype, he, hbase, fun hx ↦ absurd hp (hnone hx hr)⟩⟩
  lodged := ha.lodged

/-- Where there are no records, all records are accurate. -/
theorem Blank.accurate (hb : w.Blank) : w.Accurate X where
  record {id _} hr := absurd ((hb.record? id).symm.trans hr) (by simp)
  lodged hm := absurd hm (hb.not_remembers _ _)

/-- What does not matter to the bridge keeps records accurate, as long as the blocks of shared
objects stay where they are, of the type they are of. -/
theorem Advances.pass (hw : w.Sound R) (ha : w.Accurate X) (hq : w.Quiet w')
    (hblocks : ∀ {i : Nat} {b : Block}, w.host.blocks[i]? = some b →
      ∃ b', w'.host.blocks[i]? = some b' ∧ b'.type = b.type ∧ b'.address = b.address) :
    w.Advances R X w' := by
  have hhost : w.Advances R X { w with host := w'.host } :=
    .host hw ha hq.host.evolves (.of_weakTables hq.host.weakTables hblocks)
  have hrest : World.Quiet { w with host := w'.host } w' := { hq with host := ⟨fun _ ↦ rfl, rfl⟩ }
  exact hhost.trans (.quiet hhost.sound hhost.accurate hrest rfl)

end World

namespace Session

variable {R : Realm} {X : Nat → Set Nat} {s s' : Session} {m : Move}

/-- What the host promises about shared objects: a share that is pushed is one in a block that is
there, and blocks stay where they are, of the type they are of. -/
def Orderly (s : Session) : Move → Prop
  | .happen o => o.Orderly s.world
  | .pass w => ∀ {i : Nat} {b : Block}, s.world.host.blocks[i]? = some b →
      ∃ b', w.host.blocks[i]? = some b' ∧ b'.type = b.type ∧ b'.address = b.address
  | .turn _ => True

/-- A move casts no userdata down that is one of the binding's in `X` and owns a share. -/
def SparesShares (X : Nat → Set Nat) (s : Session) : Move → Prop
  | .happen o => o.Spares s.world (X s.current)
  | _ => True

/-- **The records of all bindings are accurate**, and shares exactly so in the userdata in `X`. -/
structure Accurate (X : Nat → Set Nat) (s : Session) : Prop where
  seen : ∀ {k w}, s.seen k = some w → w.Accurate (X k)

/-- **What one binding does keeps the records of all accurate.** -/
theorem Accurate.withWorld (ha : s.Accurate X) (hs : s.Sound R) {w' : World} {K : Set CacheKey}
    {L : Set Nat} (hp : s.world.Passes R K L w') (hu : s.world.Upholds R (X s.current) w') :
    Accurate X { s with world := w' } := by
  refine ⟨fun {k w} hw ↦ ?_⟩
  rw [seen_withWorld] at hw
  split at hw
  · rename_i hk
    obtain rfl := Option.some.inj hw
    exact hk ▸ hu.accurate
  · obtain ⟨w₁, hw₁, rfl⟩ := Option.map_eq_some_iff.1 hw
    have hsound := hs.seen hw₁
    have hhost := host_of_seen hw₁
    refine (ha.seen hw₁).host hsound rfl (hhost ▸ hp.follows) (hhost ▸ hu.grows) ?_
    exact hp.isSome_weakTable? _ (hhost ▸ hsound.binding.isSome_weakTable?)

/-- **A move keeps the records of all bindings accurate.** -/
theorem Accurate.move (ha : s.Accurate X) (hs : s.Sound R) (hm : s.Allows m) (horderly : s.Orderly m)
    (hspares : s.SparesShares X m) : (s.move m).Accurate X := by
  cases m with
  | happen o =>
    exact ha.withWorld hs (o.passes hs.world hm)
      (o.upholds hs.world (ha.seen s.seen_current) hm horderly hspares)
  | pass w =>
    have hadvances := World.Advances.pass hs.world (ha.seen s.seen_current) hm horderly
    exact ha.withWorld hs (L := ∅) hadvances.leads.passes hadvances.upholds
  | turn k' =>
    refine ⟨fun {k w} hw ↦ ?_⟩
    obtain ⟨w₁, hw₁, rfl⟩ := Option.map_eq_some_iff.1 ((seen_turn hs.current_lt k' k).symm.trans hw)
    have hq := w₁.quiet_desk (s.turn k').world.desk
    exact (World.Advances.quiet (hs.seen hw₁) (ha.seen hw₁) hq rfl).accurate

/-- **Records stay accurate along a run.** -/
theorem Run.accurate (hr : Run (fun s m ↦ s.Orderly m ∧ s.SparesShares X m) s s') (hs : s.Sound R)
    (ha : s.Accurate X) : s'.Accurate X := by
  induction hr with
  | refl => exact ha
  | step run allowed condition ih => exact ih.move (run.sound hs) allowed condition.1 condition.2

/-- If no share has to be exact then all are spared. -/
theorem Run.spares_none (hr : Run Orderly s s') :
    Run (fun s m ↦ s.Orderly m ∧ s.SparesShares (fun _ ↦ ∅) m) s s' := by
  refine hr.mono fun s m horderly ↦ ⟨horderly, ?_⟩
  cases m with
  | happen o =>
    cases o with
    | cast => exact fun _ _ _ _ hx ↦ absurd hx (Set.notMem_empty _)
    | _ => trivial
  | pass | turn => trivial

/-- **Along an orderly run of a session that has been started records are accurate.** -/
theorem Run.accurate_of_start {c : Catalogue} {registries : List (List PlanStep)}
    {plans : List BindingPlan} (hne : plans ≠ [])
    (hplans : ∀ p ∈ plans, p.registry < registries.length) (hstart : start c registries plans = .ok s)
    (hr : Run Orderly s s') : s'.Accurate fun _ ↦ ∅ :=
  hr.spares_none.accurate (sound_start hne hplans hstart)
    ⟨fun hw ↦ (blank_start hne hplans hstart hw).accurate⟩

/-- **Userdata with payloads show what they own.** Start a session with any number of bindings, and
let anything happen to it. Userdata that own an object or a container are seen as just that, and
userdata with a share show an object of the type of its block or of one derived from it. And from
then on, in userdata that own no share yet, a share that they come to own is seen as an object of
just that type, as long as no such userdata is cast down. -/
theorem payloads_revealed {c : Catalogue} {registries : List (List PlanStep)}
    {plans : List BindingPlan} (hne : plans ≠ [])
    (hplans : ∀ p ∈ plans, p.registry < registries.length) {s₀ : Session}
    (hstart : start c registries plans = .ok s₀) (before : Run Orderly s₀ s) :
    (∀ {k w id r p}, s.seen k = some w → w.record? id = some r → r.payload = some p →
      ((∀ block, p ≠ .share block) → w.Reveals id p) ∧
      ∀ block, p = .share block → ∃ b type shown, w.host.blocks[block]? = some b ∧
        w.binding.registry.idOf? b.type = some type ∧ r.exposed = .declared shown ∧
        w.binding.registry.isBaseOf type shown = true) ∧
    ∀ {X : Nat → Set Nat} {s'},
      (∀ {k w id r block}, s.seen k = some w → id ∈ X k → w.record? id = some r →
        r.payload ≠ some (.share block)) →
      Run (fun s m ↦ s.Orderly m ∧ s.SparesShares X m) s s' →
      ∀ {k w id r p}, s'.seen k = some w → id ∈ X k → w.record? id = some r → r.payload = some p →
        w.Reveals id p := by
  have haccurate := before.accurate_of_start hne hplans hstart
  have hs := before.sound (sound_start hne hplans hstart)
  refine ⟨fun {k w id r p} hw hr hp ↦ ⟨fun hshare ↦ ?_, ?_⟩, ?_⟩
  · exact (haccurate.seen hw).reveals hr hp fun block h ↦ absurd h (hshare block)
  · rintro block rfl
    obtain ⟨-, b, type, shown, hb, htype, he, hbase, -⟩ := ((haccurate.seen hw).record hr).payload hp
    exact ⟨b, type, shown, hb, htype, he, hbase⟩
  · intro X s' hnone hrun k w id r p hw hid hr hp
    have hexact : s.Accurate X := ⟨fun hw ↦ (haccurate.seen hw).exactly (hnone hw)⟩
    exact ((hrun.accurate hs hexact).seen hw).reveals hr hp fun _ _ ↦ hid

/-- A figure on the stage has an owner. -/
def staged : Session :=
  stage.move (.pass { stage.world with host.blocks := #[⟨.plain, 0, 0x1008, 1⟩] })

theorem run_staged : Run Orderly stage staged := by
  have hblocks : stage.world.host.blocks = #[] := by decide +kernel
  refine .step (.refl _) ⟨⟨fun _ ↦ rfl, rfl⟩, rfl, rfl, rfl, rfl, rfl, rfl, rfl, rfl, rfl⟩ ?_
  intro i b hb
  rw [hblocks] at hb
  exact absurd hb (by simp)

/-- A share in the figure is pushed; after a cycle of the collector, its userdata shows the figure.
-/
theorem payloads_revealed_figure :
    ((staged.move (.happen (.pushShare 0))).move (.happen .sweep)).world.Reveals 0 (.share 0) := by
  let s := (staged.move (.happen (.pushShare 0))).move (.happen .sweep)
  have hfacts : (staged.world.host.blocks[0]?.isSome = true ∧ (staged.world.record? 0).isSome = false) ∧
      s.current = staged.current ∧ (s.world.record? 0).bind (·.payload) = some (.share 0) := by
    decide +kernel
  obtain ⟨⟨hblock, hnone⟩, hcurrent, hpayload⟩ := hfacts
  obtain ⟨-, hreveals⟩ := payloads_revealed (by decide) (by decide) start_actors run_staged
  let X : Nat → Set Nat := fun k ↦ {id | k = staged.current ∧ id = 0}
  have hrun : Run (fun s m ↦ s.Orderly m ∧ s.SparesShares X m) staged s :=
    .step (.step (.refl _) trivial ⟨hblock, trivial⟩) trivial ⟨trivial, trivial⟩
  obtain ⟨r, hr, hp⟩ := Option.bind_eq_some_iff.1 hpayload
  refine hreveals (X := X) (fun {k w id r block} hw hid hr ↦ ?_) hrun (seen_current _)
    ⟨hcurrent, rfl⟩ hr hp
  obtain ⟨rfl, rfl⟩ := hid
  obtain rfl := Option.some.inj (staged.seen_current.symm.trans hw)
  rw [hr] at hnone
  exact absurd hnone (by simp)

/-- **Not all shares are revealed**: when the userdata of the figure is cast to an actor, it shows
an actor that is not there. -/
theorem not_shares_revealed : ∃ s r, Run Orderly stage s ∧ s.world.record? 0 = some r ∧
    r.payload = some (.share 0) ∧ ¬ s.world.Reveals 0 (.share 0) := by
  let s := staged.move (.happen (.pushShare 0))
  let s' := s.move (.happen (.cast (-1) 1))
  have hfacts : (staged.world.host.blocks[0]?.isSome = true ∧ s.world.binding.registry.NoneWeak) ∧
      (s'.world.record? 0).bind (·.payload) = some (.share 0) ∧
      (s'.world.host.blocks[0]?).map (fun b ↦ s'.world.binding.registry.idOf? b.type) =
        some (some 0) ∧
      s'.world.resolve (.userdata 0) = .live ⟨0x1000, 1⟩ := by
    decide +kernel
  obtain ⟨⟨hthere, hnone⟩, hpayload, hblock, hlive⟩ := hfacts
  have hallowed : (Event.cast (-1) 1).Allowed s.world := fun _ _ _ _ hweak ↦ by
    rw [hnone.isWeak_eq_false] at hweak
    exact absurd hweak (by simp)
  have hrun : Run Orderly stage s' := .step (.step run_staged trivial hthere) hallowed trivial
  obtain ⟨r, hr, hp⟩ := Option.bind_eq_some_iff.1 hpayload
  refine ⟨s', r, hrun, hr, hp, ?_⟩
  rintro ⟨b, type, hb, htype, hseen⟩
  rw [hb, Option.map_some, htype] at hblock
  have hsame := congrArg View.type (Resolved.live.inj (hlive.symm.trans hseen))
  obtain rfl := Option.some.inj (Option.some.inj hblock)
  exact absurd hsame (by simp)

end Session

end ObjectBridge
