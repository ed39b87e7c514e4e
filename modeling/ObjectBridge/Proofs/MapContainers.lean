import Mathlib.Data.Finmap
import ObjectBridge.Proofs.ListContainers

/-!
# Map containers are finite maps

Both shapes of map containers behave as one finite map from native keys to native values. The map on
the abstract side is Mathlib's `Finmap`; what an operation answers of it, and what it makes of it, is
`MapOp.apply`, which knows nothing of the shape (`MapContainer.refines_map`).

Script keys are converted before anything else, and the conversion is the only way in which an operation
reads a key. Several script keys may convert to one native key: the integer 1, the float 1.0 and, where
keys are text, the string `1`. They address one binding, and keys that convert to different native keys
address different ones (`MapOp.same_binding_iff`).

Nil is a value like any other for an insertion, which stores it where the value type is optional, but
writing nil erases whatever the value type is.
-/

namespace ObjectBridge

/-! ### Dictionaries as finite maps -/

/-- A finite map from native keys to native values. -/
abbrev NativeMap :=
  Finmap fun _ : Datum ↦ Datum

namespace Dict

/-- The bindings of a dictionary as the entries of a finite map. -/
def entries (d : Dict Datum Datum) : List ((_ : Datum) × Datum) :=
  d.toList.map fun b ↦ ⟨b.1, b.2⟩

theorem keys_entries (d : Dict Datum Datum) : d.entries.keys = d.toList.map Prod.fst := by
  rw [entries, List.keys, List.map_map]
  rfl

theorem mem_entries {d : Dict Datum Datum} {k v : Datum} : ⟨k, v⟩ ∈ d.entries ↔ (k, v) ∈ d.toList := by
  rw [entries, List.mem_map]
  constructor
  · rintro ⟨b, hb, h⟩
    cases h
    exact hb
  · exact fun h ↦ ⟨(k, v), h, rfl⟩

/-- The finite map that a dictionary is: its bindings in no order. -/
def finmap (d : Dict Datum Datum) : NativeMap :=
  ⟨d.entries, show d.entries.keys.Nodup from d.keys_entries ▸ d.nodup_keys⟩

@[simp]
theorem lookup_finmap (d : Dict Datum Datum) (k : Datum) : d.finmap.lookup k = d.find? k := by
  refine Option.ext fun v ↦ ?_
  rw [Finmap.lookup_eq_some_iff, ← mem_toList_iff]
  exact mem_entries

theorem finmap_insert (d : Dict Datum Datum) (k v : Datum) :
    (d.insert k v).finmap = d.finmap.insert k v := by
  refine Finmap.ext_lookup fun k' ↦ ?_
  rw [lookup_finmap, find?_insert]
  split
  · rename_i h
    rw [h, Finmap.lookup_insert]
  · rename_i h
    rw [Finmap.lookup_insert_of_ne _ h, lookup_finmap]

theorem finmap_erase (d : Dict Datum Datum) (k : Datum) :
    (d.erase k).finmap = d.finmap.erase k := by
  refine Finmap.ext_lookup fun k' ↦ ?_
  rw [lookup_finmap, find?_erase]
  split
  · rename_i h
    rw [h, Finmap.lookup_erase]
  · rename_i h
    rw [Finmap.lookup_erase_ne h, lookup_finmap]

theorem card_keys_finmap (d : Dict Datum Datum) : d.finmap.keys.card = d.size := by
  show d.entries.keys.length = d.toList.length
  rw [keys_entries, List.length_map]

end Dict

/-! ### A plain map -/

/-- The operations that scripts have for the map containers. -/
inductive MapOp where
  | index
  | newIndex
  | insert
  | remove
  | clear
  | length
  deriving DecidableEq

/-- Why an operation fails. -/
inductive MapFailure where
  /-- The first argument is no key. -/
  | badKey (m : Mismatch)
  /-- The second argument is no value. -/
  | badValue (m : Mismatch)
  /-- Scripts have no value for what the map holds. -/
  | unrepresentable (n : Unrepresentable)
  deriving DecidableEq

/-- A failure as a map that goes by some name reports it. -/
def MapFailure.report (name : String) : MapFailure → Failure
  | badKey m => .badElement .key name m
  | badValue m => .badElement .value name m
  | unrepresentable n => .unrepresentable n

/-- What an operation answers of a map, and what it makes of the map. -/
abbrev MapAnswer :=
  Except MapFailure (List Plain × NativeMap)

namespace MapOp

/-- The native key that an argument converts to. -/
def native (key : ScalarType) (texts : Nat → Option String) (k : Value) : Except MapFailure Datum :=
  (key.read texts k).mapError .badKey

/-- The native value that an argument converts to. -/
def stored (value : ScalarType) (texts : Nat → Option String) (v : Value) :
    Except MapFailure Datum :=
  (value.read texts v).mapError .badValue

/-- A native value as a script sees it. -/
def shown (value : ScalarType) (d : Datum) : Except MapFailure Plain :=
  (value.write d).mapError .unrepresentable

/-- What an operation with arguments `k` and `v` answers of a map, and what it makes of it. -/
def apply (key value : ScalarType) (texts : Nat → Option String) (k v : Value) (m : NativeMap) :
    MapOp → MapAnswer
  | index => do
    let n ← native key texts k
    match m.lookup n with
    | some d => return ([← shown value d], m)
    | none => return ([.nil], m)
  | newIndex => do
    let n ← native key texts k
    if v.isNil then return ([], m.erase n)
    let d ← stored value texts v
    return ([], m.insert n d)
  | insert => do
    let n ← native key texts k
    let d ← stored value texts v
    match m.lookup n with
    | some _ => return ([.boolean false], m)
    | none => return ([.boolean true], m.insert n d)
  | remove => do
    let n ← native key texts k
    return ([], m.erase n)
  | clear => return ([], ∅)
  | length => return ([.integer (Int64.ofNat m.keys.card)], m)

/-- The function of the bridge that makes an operation. -/
def builtin : MapOp → Builtin
  | index => .containerIndex
  | newIndex => .containerNewIndex
  | insert => .insert
  | remove => .remove
  | clear => .clear
  | length => .containerLength

variable {key value : ScalarType} {texts : Nat → Option String} {k v : Value} {m : NativeMap}

private theorem ok_bind {α β : Type} (b : α) (g : α → Except MapFailure β) : (.ok b >>= g) = g b :=
  rfl

private theorem bind_eq_ok {α β : Type} {x : Except MapFailure α} {g : α → Except MapFailure β} {c : β} :
    (x >>= g) = .ok c ↔ ∃ b, x = .ok b ∧ g b = .ok c := by
  cases x with
  | error f => exact ⟨fun h ↦ (nomatch h), fun ⟨_, h, _⟩ ↦ (nomatch h)⟩
  | ok b => exact ⟨fun h ↦ ⟨b, rfl, h⟩, fun ⟨_, h, hg⟩ ↦ Except.ok.inj h ▸ hg⟩

theorem native_eq_ok {n : Datum} : native key texts k = .ok n ↔ key.read texts k = .ok n := by
  rw [native]
  cases key.read texts k with
  | error e => exact ⟨fun h ↦ (nomatch h), fun h ↦ (nomatch h)⟩
  | ok d => exact ⟨fun h ↦ congrArg _ (Except.ok.inj h), fun h ↦ congrArg _ (Except.ok.inj h)⟩

/-- **All other bindings stay untouched.** Only the clearing of a map reaches bindings of other keys than
the one that the argument converts to. -/
theorem lookup_of_ne {op : MapOp} {ps : List Plain} {m' : NativeMap}
    (h : op.apply key value texts k v m = .ok (ps, m')) (hop : op ≠ .clear) {n' : Datum}
    (hne : key.read texts k ≠ .ok n') : m'.lookup n' = m.lookup n' := by
  have hother {n : Datum} (hn : native key texts k = .ok n) : n' ≠ n := by
    rintro rfl
    exact hne (native_eq_ok.1 hn)
  cases op with
  | index =>
    obtain ⟨n, -, h⟩ := bind_eq_ok.1 h
    cases hm : m.lookup n with
    | some d =>
      rw [hm] at h
      obtain ⟨p, -, h⟩ := bind_eq_ok.1 h
      cases h
      rfl
    | none =>
      rw [hm] at h
      cases h
      rfl
  | newIndex =>
    obtain ⟨n, hn, h⟩ := bind_eq_ok.1 h
    split at h
    · cases h
      exact Finmap.lookup_erase_ne (hother hn)
    · obtain ⟨d, -, h⟩ := bind_eq_ok.1 h
      cases h
      exact Finmap.lookup_insert_of_ne m (hother hn)
  | insert =>
    obtain ⟨n, hn, h⟩ := bind_eq_ok.1 h
    obtain ⟨d, -, h⟩ := bind_eq_ok.1 h
    split at h
    · cases h
      rfl
    · cases h
      exact Finmap.lookup_insert_of_ne m (hother hn)
  | remove =>
    obtain ⟨n, hn, h⟩ := bind_eq_ok.1 h
    cases h
    exact Finmap.lookup_erase_ne (hother hn)
  | clear => exact absurd rfl hop
  | length =>
    cases h
    rfl

/-- An operation reads its key only through the conversion. -/
theorem apply_congr (op : MapOp) {k₁ k₂ : Value} (h : key.read texts k₁ = key.read texts k₂) :
    op.apply key value texts k₁ v m = op.apply key value texts k₂ v m := by
  have hnative : native key texts k₁ = native key texts k₂ := by rw [native, native, h]
  cases op <;> simp only [apply, hnative]

/-- **One binding for each native key.** Script keys that convert address one binding exactly when they
convert to equal native keys: then every operation does with either what it does with the other, and
only then. -/
theorem same_binding_iff {k₁ k₂ : Value} {n₁ n₂ : Datum} (h₁ : key.read texts k₁ = .ok n₁)
    (h₂ : key.read texts k₂ = .ok n₂) :
    (∀ (op : MapOp) (v : Value) (m : NativeMap),
      op.apply key value texts k₁ v m = op.apply key value texts k₂ v m) ↔ n₁ = n₂ := by
  constructor
  · intro hsame
    -- A removal of either key takes the binding of the other one out.
    let m : NativeMap := Finmap.singleton n₁ Datum.absent
    have hremove := hsame .remove .nil m
    rw [apply, apply, native_eq_ok.2 h₁, native_eq_ok.2 h₂, ok_bind, ok_bind] at hremove
    have herase : m.erase n₁ = m.erase n₂ := congrArg Prod.snd (Except.ok.inj hremove)
    by_contra hne
    have hlookup := congrArg (Finmap.lookup n₁) herase
    rw [Finmap.lookup_erase, Finmap.lookup_erase_ne hne, Finmap.lookup_singleton_eq] at hlookup
    cases hlookup
  · rintro rfl op v m
    exact op.apply_congr (h₁.trans h₂.symm)

end MapOp

/-! ### Arguments -/

/-- The map at an address holds some bindings. -/
def World.Maps (w : World) (a : Address) (d : Dict Datum Datum) : Prop :=
  w.host.memory.container? a = some (.map d)

instance (w : World) (a : Address) (d : Dict Datum Datum) : Decidable (w.Maps a d) :=
  match h : w.host.memory.container? a with
  | some (.map e) => decidable_of_iff (e.toList = d.toList) (by
      cases e
      cases d
      simp [World.Maps, h])
  | some (.list _) => isFalse (by simp [World.Maps, h])
  | none => isFalse (by simp [World.Maps, h])

/-- What an operation answers of a map in a world, where its arguments are. -/
def World.mapAnswer (w : World) (key value : ScalarType) (m : NativeMap) (op : MapOp) : MapAnswer :=
  op.apply key value w.binding.machine.heap.strings.text? (w.binding.machine.valueAt 2)
    (w.binding.machine.valueAt 3) m

namespace Exec

variable {w : World} {a : Address} {d : Dict Datum Datum} {shape : MapShape} {key value : ScalarType}

theorem ends_mapAt (h : w.Maps a d) {Q : Dict Datum Datum → World → Prop}
    {E : Interrupt → World → Prop} : Ends (mapAt a) Q E w ↔ Q d w := by
  simp only [mapAt, ends_bind, ends_host]
  rw [h]
  rfl

theorem ends_nativeKey {name : String} {Q : Datum → World → Prop} {E : Interrupt → World → Prop}
    (hQ : ∀ n, MapOp.native key w.binding.machine.heap.strings.text?
      (w.binding.machine.valueAt 2) = .ok n → Q n w)
    (hE : ∀ f, MapOp.native key w.binding.machine.heap.strings.text?
      (w.binding.machine.valueAt 2) = .error f → E (.failure (f.report name)) w) :
    Ends (element 2 key name .key) Q E w := by
  rw [MapOp.native] at hQ hE
  refine ends_converted (fun n hn ↦ hQ n (by rw [hn]; rfl)) fun m hm ↦ ?_
  exact hE (.badKey m) (by rw [hm]; rfl)

theorem ends_storedValue {name : String} {Q : Datum → World → Prop} {E : Interrupt → World → Prop}
    (hQ : ∀ n, MapOp.stored value w.binding.machine.heap.strings.text?
      (w.binding.machine.valueAt 3) = .ok n → Q n w)
    (hE : ∀ f, MapOp.stored value w.binding.machine.heap.strings.text?
      (w.binding.machine.valueAt 3) = .error f → E (.failure (f.report name)) w) :
    Ends (element 3 value name .value) Q E w := by
  rw [MapOp.stored] at hQ hE
  refine ends_converted (fun n hn ↦ hQ n (by rw [hn]; rfl)) fun m hm ↦ ?_
  exact hE (.badValue m) (by rw [hm]; rfl)

end Exec

/-! ### Operations -/

/-- What an operation does that answers: it pushes its answer, and the map is another one. -/
structure World.AnsweredMap (w : World) (a : Address) (ps : List Plain) (m : NativeMap)
    (w' : World) : Prop where
  machine : w'.binding.machine = ps.foldl Machine.pushPlain w.binding.machine
  maps : ∃ d, w'.Maps a d ∧ d.finmap = m
  elsewhere : ∀ b ≠ a, w'.host.memory.cells.find? b = w.host.memory.cells.find? b

namespace Exec

variable {w : World} {a : Address} {d : Dict Datum Datum} {shape : MapShape} {key value : ScalarType}

/-- An operation on the map at an address, which goes by some name, does what an answer of a plain map
says. -/
def ObeysMap (name : String) (x : Exec Nat) (w : World) (a : Address) (answer : MapAnswer) : Prop :=
  Ends x (fun n w' ↦ ∃ ps m, answer = .ok (ps, m) ∧ n = ps.length ∧ w.AnsweredMap a ps m w')
    (fun i w' ↦ ∃ f, answer = .error f ∧ i = .failure (f.report name) ∧ w.Refused w') w

/-- Nothing but values is pushed. -/
theorem answeredMap_of_pushed (h : w.Maps a d) (ps : List Plain) : w.AnsweredMap a ps d.finmap
    { w with binding.machine := ps.foldl Machine.pushPlain w.binding.machine } :=
  ⟨rfl, ⟨d, h, rfl⟩, fun _ _ ↦ rfl⟩

/-- The map is replaced, and values are pushed. -/
theorem answeredMap_of_written (w : World) (a : Address) (d : Dict Datum Datum) (ps : List Plain) :
    w.AnsweredMap a ps d.finmap
      { w with
        host := { w.host with memory := w.host.memory.write a (.container (.map d)) }
        binding := { w.binding with machine := ps.foldl Machine.pushPlain w.binding.machine } } := by
  refine ⟨rfl, ⟨d, ?_, rfl⟩, fun b hb ↦ Dict.find?_insert_of_ne _ _ hb⟩
  simp [World.Maps, Memory.container?, Memory.write]

/-- The last part of a reading: pushing the value. -/
theorem ends_pushShown (d : Datum) {Q : Nat → World → Prop} {E : Interrupt → World → Prop}
    (hQ : ∀ p, MapOp.shown value d = .ok p →
      Q 1 { w with binding.machine := w.binding.machine.pushPlain p })
    (hE : ∀ f, MapOp.shown value d = .error f → E (.failure (f.report shape.name)) w) :
    Ends (pushScalar value d) Q E w := by
  rw [MapOp.shown] at hQ hE
  refine ends_written d (fun p hp ↦ hQ p (by rw [hp]; rfl)) fun n hn ↦ ?_
  exact hE (.unrepresentable n) (by rw [hn]; rfl)

theorem obeys_mapIndex (h : w.Maps a d) :
    ObeysMap shape.name (mapIndex shape key value a) w a (w.mapAnswer key value d.finmap .index) := by
  rw [ObeysMap, mapIndex, ends_bind, World.mapAnswer, MapOp.apply]
  refine ends_nativeKey (fun n hn ↦ ?_) fun f hf ↦ ⟨f, by rw [hf]; rfl, rfl, rfl, rfl⟩
  rw [hn, ends_bind, ends_mapAt h, MapOp.ok_bind, Dict.lookup_finmap]
  cases d.find? n with
  | some v =>
    dsimp only
    exact ends_pushShown v
      (fun p hp ↦ ⟨[p], d.finmap, by rw [hp]; rfl, rfl, answeredMap_of_pushed h [p]⟩)
      fun f hf ↦ ⟨f, by rw [hf]; rfl, rfl, rfl, rfl⟩
  | none => exact ⟨[.nil], d.finmap, rfl, rfl, answeredMap_of_pushed h [.nil]⟩

theorem obeys_mapNewIndex (h : w.Maps a d) : ObeysMap shape.name (mapNewIndex shape key value a) w a
    (w.mapAnswer key value d.finmap .newIndex) := by
  rw [ObeysMap, mapNewIndex, ends_bind, World.mapAnswer, MapOp.apply]
  refine ends_nativeKey (fun n hn ↦ ?_) fun f hf ↦ ⟨f, by rw [hf]; rfl, rfl, rfl, rfl⟩
  rw [hn, MapOp.ok_bind, ends_bind]
  show Ends (if (w.binding.machine.valueAt 3).isNil then _ else _) _ _ w
  -- Nil is never converted: it erases even where the value type would take it.
  split
  · rw [ends_bind, ends_mapAt h]
    exact ⟨[], (d.erase n).finmap, by rw [d.finmap_erase n]; rfl, rfl,
      answeredMap_of_written w a (d.erase n) []⟩
  · rw [ends_bind]
    refine ends_storedValue (fun v hv ↦ ?_) fun f hf ↦ ⟨f, by rw [hf]; rfl, rfl, rfl, rfl⟩
    rw [hv, ends_bind, ends_mapAt h]
    exact ⟨[], (d.insert n v).finmap, by rw [d.finmap_insert n v]; rfl, rfl,
      answeredMap_of_written w a (d.insert n v) []⟩

theorem obeys_mapInsert (h : w.Maps a d) : ObeysMap shape.name (mapInsert shape key value a) w a
    (w.mapAnswer key value d.finmap .insert) := by
  rw [ObeysMap, mapInsert, ends_bind, World.mapAnswer, MapOp.apply]
  refine ends_nativeKey (fun n hn ↦ ?_) fun f hf ↦ ⟨f, by rw [hf]; rfl, rfl, rfl, rfl⟩
  rw [hn, MapOp.ok_bind, ends_bind]
  refine ends_storedValue (fun v hv ↦ ?_) fun f hf ↦ ⟨f, by rw [hf]; rfl, rfl, rfl, rfl⟩
  rw [hv, MapOp.ok_bind, ends_bind, ends_mapAt h, Dict.lookup_finmap, Dict.contains]
  cases d.find? n with
  | some u => exact ⟨[.boolean false], d.finmap, rfl, rfl, answeredMap_of_pushed h [.boolean false]⟩
  | none =>
    exact ⟨[.boolean true], (d.insert n v).finmap, by rw [d.finmap_insert n v]; rfl, rfl,
      answeredMap_of_written w a (d.insert n v) [.boolean true]⟩

theorem obeys_mapRemove (h : w.Maps a d) : ObeysMap shape.name (mapRemove shape key a) w a
    (w.mapAnswer key value d.finmap .remove) := by
  rw [ObeysMap, mapRemove, ends_bind, World.mapAnswer, MapOp.apply]
  refine ends_nativeKey (fun n hn ↦ ?_) fun f hf ↦ ⟨f, by rw [hf]; rfl, rfl, rfl, rfl⟩
  rw [hn, MapOp.ok_bind, ends_bind, ends_mapAt h]
  exact ⟨[], (d.erase n).finmap, by rw [d.finmap_erase n]; rfl, rfl,
      answeredMap_of_written w a (d.erase n) []⟩

/-- **Every operation on a map container does what it would do to a plain map.** -/
theorem obeysMap_builtin
    (hc : w.container? (w.binding.machine.valueAt 1) = some (.map shape key value, a))
    (h : w.Maps a d) (op : MapOp) :
    ObeysMap shape.name op.builtin.run w a (w.mapAnswer key value d.finmap op) := by
  have hargument {f : ContainerKind × Address → Exec Nat} {answer}
      (hf : ObeysMap shape.name (f (.map shape key value, a)) w a answer) :
      ObeysMap shape.name (containerArgument >>= f) w a answer := by
    rwa [ObeysMap, ends_bind, ends_containerArgument hc]
  cases op with
  | index => exact hargument (obeys_mapIndex h)
  | newIndex => exact hargument (obeys_mapNewIndex h)
  | insert => exact hargument (obeys_mapInsert h)
  | remove => exact hargument (obeys_mapRemove h)
  | clear =>
    refine @hargument _ (w.mapAnswer key value d.finmap .clear) ⟨[], ∅, rfl, rfl, ?_⟩
    have hempty : (Dict.empty : Dict Datum Datum).finmap = ∅ := rfl
    exact hempty ▸ answeredMap_of_written w a .empty []
  | length =>
    refine hargument ?_
    rw [ObeysMap, ends_bind, ends_map, ends_mapAt h]
    refine ⟨[.integer (Int64.ofNat d.size)], d.finmap, ?_, rfl, answeredMap_of_pushed h _⟩
    rw [World.mapAnswer, MapOp.apply, Dict.card_keys_finmap]
    rfl

end Exec

/-! ### Runs -/

/-- What is left of a map after an answer. -/
def MapAnswer.left (m : NativeMap) : MapAnswer → NativeMap
  | .ok (_, m') => m'
  | .error _ => m

/-- A call of an operation, and the world in which its function starts. -/
structure MapCall where
  op : MapOp
  world : World

namespace MapCall

/-- What a call comes to. -/
def outcome (c : MapCall) : Except Interrupt Nat × World :=
  c.op.builtin.run.outcome c.world

/-- A call on a map that goes by some name answers like a plain map: it pushes the answer, or it fails for
the same reason and leaves the host as it was. -/
def Answers (name : String) (c : MapCall) : Except MapFailure (List Plain) → Prop
  | .ok ps =>
    c.outcome.1 = .ok ps.length ∧
      c.outcome.2.binding.machine = ps.foldl Machine.pushPlain c.world.binding.machine
  | .error f =>
    c.outcome.1 = .error (.failure (f.report name)) ∧ c.outcome.2.host = c.world.host

/-- What a plain map answers to calls, and what is left of it. -/
def replay (key value : ScalarType) :
    NativeMap → List MapCall → List (Except MapFailure (List Plain)) × NativeMap
  | m, [] => ([], m)
  | m, c :: cs =>
    let answer := c.world.mapAnswer key value m c.op
    let (answers, m') := replay key value (answer.left m) cs
    (answer.map Prod.fst :: answers, m')

variable {shape : MapShape} {key value : ScalarType} {a : Address} {d : Dict Datum Datum} {c : MapCall}

/-- A call does to the map of a container what it would do to a plain map. -/
theorem answers_mapAnswer
    (hc : c.world.container? (c.world.binding.machine.valueAt 1) = some (.map shape key value, a))
    (h : c.world.Maps a d) :
    c.Answers shape.name ((c.world.mapAnswer key value d.finmap c.op).map Prod.fst) ∧
      ∃ d', c.outcome.2.Maps a d' ∧
        d'.finmap = (c.world.mapAnswer key value d.finmap c.op).left d.finmap := by
  have hobeys := Exec.obeysMap_builtin hc h c.op
  rcases hout : c.outcome with ⟨i | n, w'⟩
  · obtain ⟨f, hanswer, rfl, hrefused⟩ := hobeys.error hout
    rw [hanswer]
    refine ⟨⟨by rw [hout], by rw [hout]; exact hrefused.host⟩, d, ?_, rfl⟩
    rw [World.Maps, hrefused.host]
    exact h
  · obtain ⟨ps, m', hanswer, rfl, hanswered⟩ := hobeys.ok hout
    rw [hanswer]
    exact ⟨⟨by rw [hout], by rw [hout]; exact hanswered.machine⟩, hanswered.maps⟩

end MapCall

/-- Calls on the container at an address, each of which finds there what the one before it left. Much
else may happen between them. -/
inductive MapCalls (kind : ContainerKind) (a : Address) :
    Option Container → List MapCall → Option Container → Prop
  | nil {x : Option Container} : MapCalls kind a x [] x
  | cons {x y : Option Container} {c : MapCall} {cs : List MapCall}
      (container : c.world.container? (c.world.binding.machine.valueAt 1) = some (kind, a))
      (found : c.world.host.memory.container? a = x)
      (rest : MapCalls kind a (c.outcome.2.host.memory.container? a) cs y) :
      MapCalls kind a x (c :: cs) y

/-- The calls on a container answer what a finite map answers, and the container holds what is left of the
finite map. -/
theorem MapCalls.replayed {shape : MapShape} {key value : ScalarType} {a : Address}
    {d : Dict Datum Datum} {cs : List MapCall} {y : Option Container}
    (h : MapCalls (.map shape key value) a (some (.map d)) cs y) :
    cs.Forall₂ (MapCall.Answers shape.name) (MapCall.replay key value d.finmap cs).1 ∧
      ∃ d', y = some (.map d') ∧ d'.finmap = (MapCall.replay key value d.finmap cs).2 := by
  -- By induction on the calls: what one of them leaves of the map is what the next one finds.
  generalize hx : some (Container.map d) = x at h
  induction h generalizing d with
  | nil => exact ⟨.nil, d, hx.symm, rfl⟩
  | cons container found rest ih =>
    have hmaps : World.Maps _ a d := found.trans hx.symm
    obtain ⟨hanswers, d', hleft, hd'⟩ := MapCall.answers_mapAnswer container hmaps
    obtain ⟨hanswersRest, hleftRest⟩ := ih hleft.symm
    rw [hd'] at hanswersRest hleftRest
    exact ⟨.cons hanswers hanswersRest, hleftRest⟩

/-- **Map containers of both shapes refine one finite map.** Whatever the operations and their arguments,
the calls on a container answer what a finite map answers, whose failures know of the shape by its name
only, and the container holds what is left of the finite map. No operation but a clearing reaches the
bindings of other native keys than the one of its argument, and script keys that convert address one
binding exactly when they convert to equal native keys. -/
theorem MapContainer.refines_map {shape : MapShape} {key value : ScalarType} {a : Address}
    {d : Dict Datum Datum} {cs : List MapCall} {y : Option Container}
    (h : MapCalls (.map shape key value) a (some (.map d)) cs y) :
    cs.Forall₂ (MapCall.Answers shape.name) (MapCall.replay key value d.finmap cs).1 ∧
      (∃ d', y = some (.map d') ∧ d'.finmap = (MapCall.replay key value d.finmap cs).2) ∧
      (∀ c ∈ cs, c.op ≠ .clear → ∀ m ps m', c.world.mapAnswer key value m c.op = .ok (ps, m') →
        ∀ n', key.read c.world.binding.machine.heap.strings.text?
          (c.world.binding.machine.valueAt 2) ≠ .ok n' → m'.lookup n' = m.lookup n') ∧
      ∀ texts k₁ k₂ n₁ n₂, key.read texts k₁ = .ok n₁ → key.read texts k₂ = .ok n₂ →
        ((∀ (op : MapOp) v m, op.apply key value texts k₁ v m = op.apply key value texts k₂ v m) ↔
          n₁ = n₂) := by
  obtain ⟨hanswers, hleft⟩ := h.replayed
  refine ⟨hanswers, hleft, ?_, ?_⟩
  · intro c _ hop m ps m' hm n' hn'
    exact MapOp.lookup_of_ne hm hop hn'
  · intro texts k₁ k₂ n₁ n₂ h₁ h₂
    exact MapOp.same_binding_iff h₁ h₂

/-- On the stack are an ordered map of the host that binds the text `1` to 10, an integer key, and no
value. -/
def World.tally : World :=
  (Session.lobby.run [.act (.container (.pushOwned (.map .ordered .text (.optional (.int .i64)))
      (.map (.ofList [(.text "1", .present (.int 10))])))), .act (.stack (.push (.integer 1)))]).world

/-- The address of the map. -/
def World.tallyAddress : Address :=
  match World.tally.container? (World.tally.binding.machine.valueAt 1) with
  | some (_, a) => a
  | none => 0

/-- The integer reads what the text is bound to, and what it reads is not inserted again. Nil erases the
binding when it is written, and is a value when it is inserted. -/
def MapCall.counting : List MapCall :=
  let reading : MapCall := ⟨.index, World.tally⟩
  let erasure : MapCall := ⟨.newIndex, World.tally⟩
  [reading, ⟨.insert, reading.outcome.2⟩, erasure, ⟨.insert, erasure.outcome.2⟩]

theorem MapContainer.refines_map_counting : MapCall.counting.Forall₂ (MapCall.Answers "BTreeMap")
    [.ok [.integer 10], .ok [.boolean false], .ok [], .ok [.boolean true]] := by
  let kind : ContainerKind := .map .ordered .text (.optional (.int .i64))
  let bindings : Dict Datum Datum := .ofList [(.text "1", .present (.int 10))]
  have hreplay :
      (MapCall.replay .text (.optional (.int .i64)) bindings.finmap MapCall.counting).1 =
        [.ok [.integer 10], .ok [.boolean false], .ok [], .ok [.boolean true]] := by decide +kernel
  have hfound : World.tally.Maps World.tallyAddress bindings := by decide +kernel
  have hkept : (MapCall.mk .insert (MapCall.mk .index World.tally).outcome.2).outcome.2.Maps
      World.tallyAddress bindings := by decide +kernel
  have hcalls : MapCalls kind World.tallyAddress (some (.map bindings)) MapCall.counting _ :=
    .cons (by decide +kernel) hfound (.cons (by decide +kernel) rfl
      (.cons (by decide +kernel) (hfound.trans hkept.symm) (.cons (by decide +kernel) rfl .nil)))
  rw [← hreplay]
  exact (MapContainer.refines_map hcalls).1

end ObjectBridge
