import ObjectBridge.Proofs.Reached
import ObjectBridge.Proofs.Retiring

/-!
# Valid values and their names

Scripts tell what is left of a value in two ways: they ask whether it is valid, and for the name of
its type, which is the name of nil when there is nothing left. Both follow the stages of a value.
An object is live or stale, by whichever of an address, a handle or a packed word it is found
(`World.resolve`); everything else is foreign, and what carries no record is nil or valid.

The two part at one stage. When the userdata of a container is finalized its record is discarded as
that of an object is, but nothing is stale that is foreign: an emptied container is not valid, and
goes by the name of its kind of value (`World.isValid_eq_false_iff_typeName`). The stage is not a
rare one. Every container comes to it whose finalizer runs before its userdata is gone
(`World.Retires.emptied_iff`).
-/

namespace ObjectBridge

/-! ### Names -/

theorem Value.kindName_eq_nil_iff {v : Value} : v.kindName = "nil" ↔ v = .nil := by
  cases v <;> simp [kindName, kind, Kind.name]

theorem ContainerKind.name_ne_nil (kind : ContainerKind) : kind.name ≠ "nil" := by
  cases kind with
  | list shape item => cases shape <;> simp [name, ListShape.name]
  | map shape key value => cases shape <;> simp [name, MapShape.name]

/-- What is no type has a name as well, which is not that of nil either. -/
theorem Registry.nameOf_ne_nil {r : Registry} (hnames : ∀ id d, r.get? id = some d → d.name ≠ "nil")
    (id : Nat) : r.nameOf id ≠ "nil" := by
  rw [nameOf]
  cases hd : r.get? id with
  | some d => exact hnames id d hd
  | none =>
    show "?" ≠ "nil"
    decide

namespace World

variable {w w' : World} {v : Value}

/-! ### Emptied containers -/

/-- **A container that has been emptied**: its userdata is there, and the record is discarded. -/
def Emptied (w : World) (v : Value) : Prop :=
  ∃ id r kind, v = .userdata id ∧ w.record? id = some r ∧ r.exposed = .container kind ∧
    r.discarded = true

theorem Emptied.resolve (h : w.Emptied v) : w.resolve v = .foreign := by
  obtain ⟨id, r, kind, rfl, hr, hkind, -⟩ := h
  have hmachine : w.binding.machine.record? id = some r := hr
  simp only [World.resolve, hmachine, resolveRecord, hkind]

/-- An emptied container goes by the name of its kind of value. -/
theorem Emptied.typeName (h : w.Emptied v) : w.typeName v = "userdata" := by
  have hforeign := h.resolve
  obtain ⟨id, r, kind, rfl, hr, hkind, hd⟩ := h
  have hnone : w.container? (.userdata id) = none := by
    have hmachine : w.binding.machine.record? id = some r := hr
    have htarget : r.target = .discarded := of_decide_eq_true hd
    simp only [container?, Value.userdata?, Option.bind_some, hmachine, hkind, htarget]
  rw [World.typeName, hforeign, hnone]
  rfl

theorem Emptied.isValid (h : w.Emptied v) : w.isValid v = false := by
  have hforeign := h.resolve
  obtain ⟨id, r, kind, rfl, hr, -, hd⟩ := h
  have hmachine : w.binding.machine.record? id = some r := hr
  simp only [World.isValid, hforeign, hmachine, hd, Bool.not_true]

/-- **Finalizers empty the containers among the userdata that they take apart**, and no others; what
is emptied stays so. -/
theorem Retires.emptied_iff {ids : List Nat} (h : w.Retires ids w') :
    w'.Emptied v ↔ w.Emptied v ∨
      ∃ id ∈ ids, ∃ r kind, v = .userdata id ∧ w.record? id = some r ∧ r.exposed = .container kind := by
  constructor
  · rintro ⟨id, r', kind, rfl, hr', hkind, hd⟩
    rw [h.record?] at hr'
    split at hr'
    · rename_i hid
      obtain ⟨r, hr, rfl⟩ := Option.map_eq_some_iff.1 hr'
      exact .inr ⟨id, hid, r, kind, rfl, hr, hkind⟩
    · exact .inl ⟨id, r', kind, rfl, hr', hkind, hd⟩
  · have hretired {id : Nat} {r : Record} {kind : ContainerKind} (hid : id ∈ ids)
        (hr : w.record? id = some r) (hkind : r.exposed = .container kind) :
        w'.Emptied (.userdata id) := by
      refine ⟨id, r.retired, kind, rfl, ?_, hkind, decide_eq_true rfl⟩
      rw [h.record?, if_pos hid, hr, Option.map_some]
    rintro (⟨id, r, kind, rfl, hr, hkind, hd⟩ | ⟨id, hid, r, kind, rfl, hr, hkind⟩)
    · by_cases hid : id ∈ ids
      · exact hretired hid hr hkind
      · exact ⟨id, r, kind, rfl, by rw [h.record?, if_neg hid, hr], hkind, hd⟩
    · exact hretired hid hr hkind

/-! ### What is foreign -/

/-- The record of what is foreign exposes a container. -/
theorem exists_container_of_foreign {id : Nat} {r : Record} (hv : w.resolve (.userdata id) = .foreign)
    (hr : w.record? id = some r) : ∃ kind, r.exposed = .container kind := by
  have hmachine : w.binding.machine.record? id = some r := hr
  simp only [resolve, hmachine, resolveRecord] at hv
  cases hexposed : r.exposed with
  | container kind => exact ⟨kind, rfl⟩
  | declared type =>
    -- an object is live or stale, whatever its target
    rw [hexposed] at hv
    cases htarget : r.target with
    | pointer a => simp [htarget] at hv
    | discarded => simp [htarget] at hv
    | weak handle =>
      simp only [htarget] at hv
      split at hv <;> simp at hv

/-- **What is foreign is nil, or an emptied container, or valid.** -/
theorem isValid_eq_false_iff_of_foreign (hv : w.resolve v = .foreign) :
    w.isValid v = false ↔ v = .nil ∨ w.Emptied v := by
  cases v with
  | nil => simp [isValid, resolve]
  | userdata id =>
    refine ⟨fun h ↦ .inr ?_, fun h ↦ ?_⟩
    · simp only [isValid, hv] at h
      cases hr : w.binding.machine.record? id with
      | none => simp [hr] at h
      | some r =>
        obtain ⟨kind, hkind⟩ := exists_container_of_foreign hv hr
        exact ⟨id, r, kind, rfl, hr, hkind, by simpa [hr] using h⟩
    · exact (h.resolve_left (by simp)).isValid
  | word word =>
    have hnot : ¬ w.Emptied (.word word) := by
      rintro ⟨id, -, -, heq, -⟩
      exact absurd heq (by simp)
    simp [isValid, hv, hnot]
  | boolean | integer | number | string | table | function =>
    simp [isValid, resolve, Emptied]

/-- What is foreign has the name of nil only if it is nil. -/
theorem typeName_eq_nil_iff_of_foreign (hv : w.resolve v = .foreign) :
    w.typeName v = "nil" ↔ v = .nil := by
  simp only [typeName, hv]
  cases hc : w.container? v with
  | none => exact Value.kindName_eq_nil_iff
  | some c =>
    refine ⟨fun h ↦ absurd h c.1.name_ne_nil, ?_⟩
    rintro rfl
    simp [container?, Value.userdata?] at hc

/-! ### Validity and names -/

/-- **Values are invalid that have the name of nil, and emptied containers are**, which go by another
name; this holds in every world in which no type is exported under the name of nil. -/
theorem isValid_eq_false_iff_typeName
    (hnames : ∀ id d, w.binding.registry.get? id = some d → d.name ≠ "nil") (v : Value) :
    (w.isValid v = false ↔ w.typeName v = "nil" ∨ w.Emptied v) ∧
      (w.Emptied v → w.typeName v = "userdata") := by
  refine ⟨?_, Emptied.typeName⟩
  have hobject (h : w.resolve v ≠ .foreign) : ¬ w.Emptied v := fun he ↦ h he.resolve
  cases hv : w.resolve v with
  | live view =>
    have hname : w.typeName v ≠ "nil" := by
      rw [typeName, hv]
      exact Registry.nameOf_ne_nil hnames view.type
    simp [isValid, hv, hname, hobject (by simp [hv])]
  | stale type => simp [isValid, typeName, hv]
  | foreign => rw [isValid_eq_false_iff_of_foreign hv, typeName_eq_nil_iff_of_foreign hv]

/-- A script calls the finalizer of a vector itself, and keeps the vector. -/
def gutted : World :=
  (Session.lobby.run [
    .act (.container (.pushOwned (.list .vector (.int .i64)) (.list [.int 1]))),
    .act (.table (.getMetatable (.slot 1))), .act (.table (.getField 2 "__gc")),
    .act (.call (.callFunction (.slot 3) [.slot 1]))]).world

theorem reached_gutted : gutted.Reached :=
  .session Session.start_lobby _

/-- No type is exported there at all. -/
private theorem names_gutted (id : Nat) (d : Descriptor) (hd : gutted.binding.registry.get? id = some d) :
    d.name ≠ "nil" := by
  have hnone : gutted.binding.registry.types = #[] := by decide +kernel
  simp [Registry.get?, hnone] at hd

/-- The vector is on the stack and is not valid, and yet its name is not that of nil. -/
theorem isValid_eq_false_iff_typeName_gutted :
    (∀ id d, gutted.binding.registry.get? id = some d → d.name ≠ "nil") ∧
      gutted.binding.machine.valueAt 1 = .userdata 0 ∧ gutted.Emptied (.userdata 0) ∧
      gutted.isValid (.userdata 0) = false ∧ gutted.typeName (.userdata 0) = "userdata" := by
  have hrecord : (gutted.record? 0).map (fun r ↦ (r.exposed, r.discarded)) =
      some (.container (.list .vector (.int .i64)), true) := by decide +kernel
  obtain ⟨r, hr, heq⟩ := Option.map_eq_some_iff.1 hrecord
  have hemptied : gutted.Emptied (.userdata 0) :=
    ⟨0, r, _, rfl, hr, congrArg Prod.fst heq, congrArg Prod.snd heq⟩
  obtain ⟨hvalid, hname⟩ := isValid_eq_false_iff_typeName names_gutted (.userdata 0)
  exact ⟨names_gutted, by decide +kernel, hemptied, hvalid.2 (.inr hemptied), hname hemptied⟩

/-- **Not everything that is not valid has the name of nil**, in the worlds that are reached. -/
theorem not_isValid_iff_typeName : ¬ ∀ (w : World) (v : Value), w.Reached →
    (∀ id d, w.binding.registry.get? id = some d → d.name ≠ "nil") →
      (w.isValid v = false ↔ w.typeName v = "nil") := by
  intro hall
  have hagree := hall gutted (.userdata 0) reached_gutted names_gutted
  have hinvalid : gutted.isValid (.userdata 0) = false := by decide +kernel
  have hname : gutted.typeName (.userdata 0) ≠ "nil" := by decide +kernel
  exact hname (hagree.1 hinvalid)

end World

end ObjectBridge
