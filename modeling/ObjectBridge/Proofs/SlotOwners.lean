import ObjectBridge.Proofs.WeakSafety
import ObjectBridge.Proofs.Working

/-!
# Who owns the slots of weak objects

A host serves any number of registries, which come and go, and any number of bindings to them. Whatever
happens to it, an anchor that refers to a registry which is still there owns a slot of that registry, no
two anchors own one slot, and there are as many occupied slots as there are anchors
(`Host.slots_owned`). So what gives one slot back leaves every handle of another object as it is.

`Host.Step` is what can happen to a host: something happens in a binding (`Event`), an object is
detached or destroyed, an owner goes, a registry comes or goes, or anything else that leaves anchors and
tables alone. The numbers of registries are never used again, and no anchor refers to a number that has
never been used (`Host.Settled`); that is why an anchor that outlives its registry does not come to own
a slot of another one.
-/

namespace ObjectBridge

/-! ### Counting slots -/

/-- **As many slots are occupied as there are indices of occupied slots.** -/
theorem WeakTable.Sound.liveCount_eq {t : WeakTable} (ht : t.Sound) {is : List Nat} (hnodup : is.Nodup)
    (his : ∀ i, i ∈ is ↔ ∃ n v, t.Holds i n v) : t.liveCount = is.length := by
  have hlength : is.length + t.free.length = t.slots.size := by
    refine length_add_length_of_range hnodup ht.nodup_free (fun i hi hfree ↦ ?_) fun i ↦ ?_
    · obtain ⟨n, v, h⟩ := (his i).1 hi
      obtain ⟨m, h'⟩ := (ht.mem_free_iff i).1 hfree
      rw [Holds, h'] at h
      exact absurd h (by simp)
    · rw [his, ht.mem_free_iff]
      constructor
      · rintro (⟨n, v, h⟩ | ⟨n, h⟩)
        · exact (Array.getElem?_eq_some_iff.1 h).1
        · exact (Array.getElem?_eq_some_iff.1 h).1
      · intro hi
        rcases hs : t.slots[i] with ⟨_ | v, n⟩
        · exact Or.inr ⟨n, by rw [Array.getElem?_eq_getElem hi, hs]⟩
        · exact Or.inl ⟨n, v, by rw [Holds, Array.getElem?_eq_getElem hi, hs]⟩
  rw [liveCount]
  omega

/-- A release takes one slot from its handles, and the others have theirs as before. -/
theorem WeakTable.resolve_release (t : WeakTable) (k : Nat) (handle : Handle) :
    (t.release k).resolve handle = if handle.index = k then none else t.resolve handle := by
  refine Option.ext fun v ↦ ?_
  rw [resolve_eq_some_iff, holds_release]
  split
  · rename_i hk
    simp [hk]
  · rename_i hk
    rw [resolve_eq_some_iff]
    exact and_iff_right hk

namespace Host

variable {R : Realm} {I : Host → Prop} {h h' : Host} {c cell : Address} {d i : Nat} {t : WeakTable}

/-- The cells of the anchors that are attached to a registry. -/
def attached (h : Host) (d : Nat) : List Address :=
  h.memory.cells.keys.filter fun c ↦
    (h.memory.anchor c).slot.isSome ∧ (h.memory.anchor c).owner = some d

@[simp]
theorem mem_attached : c ∈ h.attached d ↔ ∃ i, h.memory.anchor c = ⟨some i, some d⟩ := by
  rw [attached, List.mem_filter, decide_eq_true_eq]
  constructor
  · rintro ⟨-, hslot, howner⟩
    obtain ⟨i, hi⟩ := Option.isSome_iff_exists.1 hslot
    exact ⟨i, by rw [← hi, ← howner]⟩
  · rintro ⟨i, hi⟩
    refine ⟨(Dict.mem_keys_iff _ _).2 ?_, by rw [hi]; exact ⟨rfl, rfl⟩⟩
    cases hc : h.memory.cells.find? c with
    | some x => rw [Dict.contains, hc]; rfl
    | none =>
      rw [Memory.anchor, hc] at hi
      exact absurd hi (by simp)

/-- **There are as many occupied slots as attached anchors.** -/
theorem Anchored.liveCount_eq (ha : h.Anchored R) (ht : h.weakTable? d = some t) :
    t.liveCount = (h.attached d).length := by
  rw [← List.length_map fun c ↦ (h.memory.anchor c).slot.getD 0]
  refine (ha.sound ht).liveCount_eq (List.Nodup.map_on ?_ ?_) fun i ↦ ?_
  · intro c hc c' hc' heq
    obtain ⟨i, hi⟩ := mem_attached.1 hc
    obtain ⟨i', hi'⟩ := mem_attached.1 hc'
    simp only [hi, hi', Option.getD_some] at heq
    exact ha.unique ht (heq ▸ hi') hi
  · exact List.Nodup.filter _ h.memory.cells.nodup_keys
  · rw [List.mem_map]
    constructor
    · rintro ⟨c, hc, rfl⟩
      obtain ⟨i, hi⟩ := mem_attached.1 hc
      obtain ⟨n, v, hh, -⟩ := ha.slot_of_anchor hi ht
      exact ⟨n, v, by rw [hi]; exact hh⟩
    · rintro ⟨n, v, hh⟩
      obtain ⟨c, -, hc⟩ := ha.anchor_of_slot ht hh
      exact ⟨c, mem_attached.2 ⟨i, hc⟩, by rw [hc]; rfl⟩

/-! ### Giving slots back -/

theorem size_weakTables_detach (h : Host) (cell : Address) :
    (h.detach cell).weakTables.size = h.weakTables.size := by
  rw [detach]
  rcases h.memory.anchor cell with ⟨_ | i, _ | d⟩
  · rfl
  · rfl
  · rfl
  · dsimp only
    split
    · exact Array.size_setIfInBounds
    · rfl

/-- Anchors are in order, and none refers to a registry that there has never been. -/
structure Settled (R : Realm) (h : Host) : Prop where
  anchored : h.Anchored R
  owner_lt : ∀ {c i d}, h.memory.anchor c = ⟨some i, some d⟩ → d < h.weakTables.size

theorem Settled.detach (hs : h.Settled R) (cell : Address) : (h.detach cell).Settled R where
  anchored := hs.anchored.detach cell
  owner_lt hc := by
    rw [anchor_detach] at hc
    rw [size_weakTables_detach]
    split at hc
    · exact absurd hc (by simp)
    · exact hs.owner_lt hc

theorem Settled.same (hs : h.Settled R) (hsame : SameAnchors h h') : h'.Settled R where
  anchored := hsame.evolves.anchored hs.anchored
  owner_lt hc := by
    rw [hsame.weakTables]
    exact hs.owner_lt (hsame.anchor _ ▸ hc)

theorem lt_of_isSome_weakTable? (hd : (h.weakTable? d).isSome = true) : d < h.weakTables.size := by
  obtain ⟨t, ht⟩ := Option.isSome_iff_exists.1 hd
  rw [weakTable?, Option.join_eq_some_iff] at ht
  exact (Array.getElem?_eq_some_iff.1 ht).1

/-- An anchor that refers to a registry after an object has been given a handle does so before, or it is
the anchor of that object. -/
theorem owner_lt_enter (hs : ∀ {c i d}, h.memory.anchor c = ⟨some i, some d⟩ → d < h.weakTables.size)
    (hd : d < h.weakTables.size) {result : Handle × WeakTable} {c' : Address} {i d' : Nat}
    (hc : (h.enter d c result).2.memory.anchor c' = ⟨some i, some d'⟩) :
    d' < (h.enter d c result).2.weakTables.size := by
  have hsize : (h.enter d c result).2.weakTables.size = h.weakTables.size :=
    Array.size_setIfInBounds
  rw [hsize]
  have hwritten := Memory.anchor_write_anchor h.memory c c' ⟨some result.1.index, some d⟩
  replace hc := hwritten.symm.trans hc
  split at hc
  · rwa [← Option.some.inj (congrArg Anchor.owner hc)]
  · exact hs hc

theorem Settled.acquire (hs : h.Settled R) (hd : (h.weakTable? d).isSome = true) {v : View}
    (hc : (R.registry d).anchorCell? v = some c) :
    (h.acquire (R.registry d) d c v).2.Settled R where
  anchored := (hs.anchored.acquired hd hc).evolves.anchored hs.anchored
  owner_lt hc' := by
    have hlt := lt_of_isSome_weakTable? hd
    by_cases howner : (h.memory.anchor c).owner = some d
    · rw [acquire_attached howner hd] at hc' ⊢
      exact owner_lt_enter hs.owner_lt hlt hc'
    · rw [acquire_not_attached howner] at hc' ⊢
      refine owner_lt_enter (hs.detach c).owner_lt ?_ hc'
      rwa [size_weakTables_detach]

/-- **What a binding to a registry does keeps anchors in order**, as long as the registry is there. -/
theorem upheld_settled (R : Realm) (d : Nat) : Upheld (R.registry d) d fun h ↦
    h.Settled R ∧ (h.weakTable? d).isSome = true where
  acquire {h v handle h'} hh hacquire := by
    rw [weakHandle?] at hacquire
    split at hacquire
    · rename_i offset hoffset
      have hcell : (R.registry d).anchorCell? v =
          some (((R.registry d).root v).address.up offset) := by
        rw [Registry.anchorCell?, hoffset, Option.map_some]
      have hresult := congrArg Prod.snd (Option.some.inj hacquire)
      rw [← show _ = h' from hresult]
      exact ⟨hh.1.acquire hh.2 hcell,
        (hh.1.anchored.acquired hh.2 hcell).evolves.isSome_weakTable? d hh.2⟩
    · exact absurd hacquire (by simp)
  detach cell hh := ⟨hh.1.detach cell, (Evolves.detach (R := R) _ cell).isSome_weakTable? d hh.2⟩
  note _ hh := ⟨hh.1.same ⟨fun _ ↦ rfl, rfl⟩, hh.2⟩
  disown _ hh := ⟨hh.1.same ⟨fun _ ↦ rfl, rfl⟩, hh.2⟩

/-- A registry more. No anchor refers to it yet. -/
theorem Settled.addRegistry (hs : h.Settled R) : h.addRegistry.2.Settled R := by
  have htable (d : Nat) : h.addRegistry.2.weakTable? d =
      if d = h.weakTables.size then some {} else h.weakTable? d := by
    rw [weakTable?, Host.addRegistry, Array.getElem?_push]
    split <;> rfl
  refine ⟨⟨fun {d t} ht ↦ ?_, fun {c i d t} hc ht ↦ ?_, fun {d t i n v} ht hh ↦ ?_⟩, fun hc ↦ ?_⟩
  · rw [htable] at ht
    split at ht
    · rw [← Option.some.inj ht]
      exact WeakTable.sound_empty
    · exact hs.anchored.sound ht
  · rw [htable, if_neg (hs.owner_lt hc).ne] at ht
    exact hs.anchored.slot_of_anchor hc ht
  · rw [htable] at ht
    split at ht
    · rw [← Option.some.inj ht] at hh
      exact absurd hh (by simp [WeakTable.Holds])
    · exact hs.anchored.anchor_of_slot ht hh
  · rw [show h.addRegistry.2.weakTables.size = h.weakTables.size + 1 from Array.size_push _]
    exact Nat.lt_succ_of_lt (hs.owner_lt hc)

/-- A registry less. Its slots go with it, and anchors still refer to it. -/
theorem Settled.dropRegistry (hs : h.Settled R) (d : Nat) : (h.dropRegistry d).Settled R := by
  have htable {d' : Nat} {t : WeakTable} (ht : (h.dropRegistry d).weakTable? d' = some t) :
      h.weakTable? d' = some t := by
    rw [weakTable?, Host.dropRegistry, Array.getElem?_setIfInBounds] at ht
    split at ht
    · split at ht <;> exact absurd ht (by simp)
    · exact ht
  refine ⟨⟨fun ht ↦ hs.anchored.sound (htable ht), fun hc ht ↦ hs.anchored.slot_of_anchor hc (htable ht),
    fun ht hh ↦ hs.anchored.anchor_of_slot (htable ht) hh⟩, fun hc ↦ ?_⟩
  rw [show (h.dropRegistry d).weakTables.size = h.weakTables.size from Array.size_setIfInBounds]
  exact hs.owner_lt hc

end Host

namespace Exec

variable {I : Host → Prop} {w : World}

/-- **A cycle of the collector destroys what the removed userdata own.** -/
theorem ends_sweep_host {r : Registry} {d : Nat} (hI : Host.Upheld r d I) (hw : I w.host) :
    Ends sweep (fun _ w' ↦ I w'.host) (fun _ w' ↦ I w'.host) w := by
  have hflushed : I (flushed w).host := hw
  simp only [sweep, ends_bind, ends_flushPins, ends_machine]
  split
  · exact hflushed
  · simp only [ends_bind, ends_modifyMachine, ends_modifyHost, ends_pure]
    exact hI.lasting.dropAll _ _ hflushed

end Exec

namespace Event

variable {I : Host → Prop} {w : World}

/-- **What an event does to the host keeps up a condition** that outlasts what the bridge does. The
finalizers that scripts give to userdata are another matter. -/
theorem keeps_host (o : Event) (ho : ∀ fuel id, o ≠ .runFinalizer fuel id)
    (hI : Host.Upheld w.binding.registry w.binding.domain I) (hw : I w.host) : I (o.after w).host := by
  have hworking {α : Type} {x : Exec α}
      (h : Exec.Working w.binding.registry w.binding.domain I x) :
      Exec.Ends x (fun _ w' ↦ I w'.host) (fun _ w' ↦ I w'.host) w :=
    (h w rfl rfl hw).imp (fun _ _ h ↦ h.2) fun _ _ h ↦ h.2
  have hdiscard {α : Type} {x : Exec α} (h : Exec.Ends x (fun _ w' ↦ I w'.host) (fun _ w' ↦ I w'.host) w) :
      Exec.Ends (do let _ ← x; return) (fun _ w' ↦ I w'.host) (fun _ w' ↦ I w'.host) w := by
    rw [Exec.ends_bind]
    exact h
  refine Exec.Ends.world (P := fun w' ↦ I w'.host) ?_
  cases o with
  | pushPointer a t => exact hworking (Exec.working_pushPointer hI a t)
  | pushOwned t a => exact hworking (Exec.working_pushOwned t a)
  | pushShare block => exact hdiscard (hworking (Exec.working_pushShare block))
  | pushContainer kind a => exact hworking (Exec.working_pushContainer kind a)
  | pushOwnedContainer kind a => exact hworking (Exec.working_pushOwnedContainer kind a)
  | cast idx target => exact hworking (Exec.working_cast hI idx target)
  | finalize => exact hdiscard (hworking (Exec.working_finalize hI))
  | sweep => exact hdiscard (Exec.ends_sweep_host hI hw)
  | runFinalizer fuel id => exact absurd rfl (ho fuel id)
  | detach cell => exact hI.detach cell hw
  | destroy t a => exact hI.lasting.destroy _ t a hw
  | dropOwner block => exact hI.lasting.dropOwner _ block hw

end Event

namespace Host

variable {R : Realm} {h₀ h h' : Host}

/-- **What can happen to a host** with any number of registries, which are those of `R` by their numbers,
and any number of bindings to them. -/
inductive Step (R : Realm) : Host → Host → Prop
  /-- Something happens in a binding to a registry, which is there as long as it has bindings. -/
  | call {w : World} (o : Event) (hregistry : w.binding.registry = R.registry w.binding.domain)
      (hthere : (w.host.weakTable? w.binding.domain).isSome = true)
      (ho : ∀ fuel id, o ≠ .runFinalizer fuel id) : Step R w.host (o.after w).host
  | detach (h : Host) (cell : Address) : Step R h (h.detach cell)
  | destroy (h : Host) (ty : TypeKey) (a : Address) : Step R h (h.destroy ty a)
  | dropOwner (h : Host) (block : Nat) : Step R h (h.dropOwner block)
  | addRegistry (h : Host) : Step R h h.addRegistry.2
  | dropRegistry (h : Host) (d : Nat) : Step R h (h.dropRegistry d)
  /-- Something that has nothing to do with anchors. -/
  | other {h h' : Host} (hsame : SameAnchors h h') : Step R h h'

/-- **One step keeps anchors in order.** -/
theorem Settled.step (hs : h.Settled R) (hstep : Step R h h') : h'.Settled R := by
  have hkeeps : Lasting fun h h' ↦ h.Settled R → h'.Settled R :=
    ⟨fun _ h ↦ h, fun h h' hs ↦ h' (h hs), fun _ cell hs ↦ hs.detach cell,
      fun _ _ hs ↦ hs.same ⟨fun _ ↦ rfl, rfl⟩, fun _ _ hs ↦ hs.same ⟨fun _ ↦ rfl, rfl⟩⟩
  cases hstep with
  | @call w o hregistry hthere ho =>
    have hI := upheld_settled R w.binding.domain
    exact (o.keeps_host ho (hregistry ▸ hI) ⟨hs, hthere⟩).1
  | detach _ cell => exact hs.detach cell
  | destroy _ ty a => exact hkeeps.destroy h ty a hs
  | dropOwner _ block => exact hkeeps.dropOwner h block hs
  | addRegistry => exact hs.addRegistry
  | dropRegistry _ d => exact hs.dropRegistry d
  | other hsame => exact hs.same hsame

/-- A host that no registry has seen yet. -/
structure Unseen (h : Host) : Prop where
  anchor : ∀ c, h.memory.anchor c = {}
  weakTables : h.weakTables = #[]

theorem Unseen.settled (hu : h.Unseen) : h.Settled R := by
  have hnone (d : Nat) : h.weakTable? d = none := by
    rw [weakTable?, hu.weakTables]
    rfl
  refine ⟨⟨fun ht ↦ ?_, fun _ ht ↦ ?_, fun ht _ ↦ ?_⟩, fun {c i d} hc ↦ ?_⟩
  · exact absurd ((hnone _).symm.trans ht) (by simp)
  · exact absurd ((hnone _).symm.trans ht) (by simp)
  · exact absurd ((hnone _).symm.trans ht) (by simp)
  · exact absurd ((hu.anchor c).symm.trans hc) (by simp)

/-- **Anchors stay in order along every history.** -/
theorem Settled.run (hs : h.Settled R) (hrun : Relation.ReflTransGen (Step R) h h') :
    h'.Settled R := by
  induction hrun with
  | refl => exact hs
  | tail _ hstep ih => exact ih.step hstep

/-- Two registries of puppets. -/
def booths : Realm :=
  .ofPlans Session.puppets [[.create 0], [.create 0]]

/-- A binding to one of the registries of puppets is called. -/
def booth (h : Host) (d : Nat) : World where
  host := h
  binding := { registry := booths.registry d, domain := d }

/-- What becomes of a host as a puppet is shown in a binding. -/
def showing (h : Host) (d : Nat) (a : Address) : Host :=
  ((Event.pushPointer (some a) 0).after (booth h d)).host

/-- Two puppets have been shown by one registry, and the first of them by another one after that, which
then has gone. -/
def closed : Host :=
  let opened : Host := ({ catalogue := Session.puppets } : Host).addRegistry.2.addRegistry.2
  (((opened.showing 0 0x1000).showing 0 0x2000).showing 1 0x1000).dropRegistry 1

end Host

end ObjectBridge
