import Mathlib.Data.List.TakeWhile
import ObjectBridge.Proofs.MapContainers
import ObjectBridge.Proofs.NativeCalls
import ObjectBridge.Proofs.StringPool

/-!
# Walks over maps

A walk over a value asks it for a function, a state and a first key, and then calls the function with the
state and the key it has last given, until that gives nil (`Exec.walk`). For a map container the state is
a cursor over the keys that the map had when the walk began.

The end of a walk and the keys go through one channel: a key that is shown as nil, such as the absent
value of an optional key type, is taken for the end. So a walk over a map that does not change visits the
bindings in the order of their keys up to the first key that is shown as nil
(`MapContainer.walk_visits`), and it is complete exactly when the map has no such key
(`MapContainer.not_walk_complete`).
-/

namespace ObjectBridge

/-! ### The order of keys -/

namespace ScalarType

variable {d : Datum}

attribute [local simp] Holds

theorem holds_bool : bool.Holds d ↔ ∃ b, d = .bool b := by
  cases d <;> simp

theorem exists_of_holds_int {k : IntKind} (h : (int k).Holds d) : ∃ n, d = .int n := by
  cases d <;> simp_all

theorem holds_text : text.Holds d ↔ ∃ s, d = .text s := by
  cases d <;> simp

theorem holds_compactText : compactText.Holds d ↔ ∃ s, d = .text s := by
  cases d <;> simp

theorem holds_single : single.Holds d ↔ ∃ x, d = .single x := by
  cases d <;> simp

theorem holds_double : double.Holds d ↔ ∃ x, d = .double x := by
  cases d <;> simp

theorem holds_optional {t : ScalarType} :
    t.optional.Holds d ↔ d = .absent ∨ ∃ e, d = .present e ∧ t.Holds e := by
  cases d <;> simp

end ScalarType

namespace Datum

open ScalarType

theorem le_total {t : ScalarType} {a b : Datum} (ha : t.Holds a) (hb : t.Holds b) :
    (a.le b || b.le a) = true := by
  induction t generalizing a b with
  | bool =>
    obtain ⟨a, rfl⟩ := holds_bool.1 ha
    obtain ⟨b, rfl⟩ := holds_bool.1 hb
    cases a <;> cases b <;> rfl
  | int k =>
    obtain ⟨a, rfl⟩ := exists_of_holds_int ha
    obtain ⟨b, rfl⟩ := exists_of_holds_int hb
    simpa [le] using Int.le_total a b
  | single =>
    obtain ⟨a, rfl⟩ := holds_single.1 ha
    obtain ⟨b, rfl⟩ := holds_single.1 hb
    rfl
  | double =>
    obtain ⟨a, rfl⟩ := holds_double.1 ha
    obtain ⟨b, rfl⟩ := holds_double.1 hb
    rfl
  | text =>
    obtain ⟨a, rfl⟩ := holds_text.1 ha
    obtain ⟨b, rfl⟩ := holds_text.1 hb
    simpa [le] using String.le_total a b
  | compactText =>
    obtain ⟨a, rfl⟩ := holds_compactText.1 ha
    obtain ⟨b, rfl⟩ := holds_compactText.1 hb
    simpa [le] using String.le_total a b
  | optional t ih =>
    obtain rfl | ⟨a, rfl, ha⟩ := holds_optional.1 ha
    · rfl
    · obtain rfl | ⟨b, rfl, hb⟩ := holds_optional.1 hb
      · rfl
      · show (a.le b || b.le a) = true
        exact ih ha hb

theorem le_trans {t : ScalarType} {a b c : Datum} (ha : t.Holds a) (hb : t.Holds b) (hc : t.Holds c)
    (hab : a.le b = true) (hbc : b.le c = true) : a.le c = true := by
  induction t generalizing a b c with
  | bool =>
    obtain ⟨a, rfl⟩ := holds_bool.1 ha
    obtain ⟨b, rfl⟩ := holds_bool.1 hb
    obtain ⟨c, rfl⟩ := holds_bool.1 hc
    cases a <;> cases b <;> cases c <;> first | rfl | exact hab | exact hbc
  | int k =>
    obtain ⟨a, rfl⟩ := exists_of_holds_int ha
    obtain ⟨b, rfl⟩ := exists_of_holds_int hb
    obtain ⟨c, rfl⟩ := exists_of_holds_int hc
    simp only [le, decide_eq_true_eq] at hab hbc ⊢
    omega
  | single =>
    obtain ⟨a, rfl⟩ := holds_single.1 ha
    obtain ⟨c, rfl⟩ := holds_single.1 hc
    rfl
  | double =>
    obtain ⟨a, rfl⟩ := holds_double.1 ha
    obtain ⟨c, rfl⟩ := holds_double.1 hc
    rfl
  | text =>
    obtain ⟨a, rfl⟩ := holds_text.1 ha
    obtain ⟨b, rfl⟩ := holds_text.1 hb
    obtain ⟨c, rfl⟩ := holds_text.1 hc
    simp only [le, decide_eq_true_eq] at hab hbc ⊢
    exact String.le_trans hab hbc
  | compactText =>
    obtain ⟨a, rfl⟩ := holds_compactText.1 ha
    obtain ⟨b, rfl⟩ := holds_compactText.1 hb
    obtain ⟨c, rfl⟩ := holds_compactText.1 hc
    simp only [le, decide_eq_true_eq] at hab hbc ⊢
    exact String.le_trans hab hbc
  | optional t ih =>
    obtain rfl | ⟨a, rfl, ha⟩ := holds_optional.1 ha
    · rfl
    · obtain rfl | ⟨b, rfl, hb⟩ := holds_optional.1 hb
      · cases hab
      · obtain rfl | ⟨c, rfl, hc⟩ := holds_optional.1 hc
        · cases hbc
        · show a.le c = true
          exact ih ha hb hc hab hbc

end Datum
namespace MapShape

variable {shape : MapShape} {d : Dict Datum Datum}

/-- The listing has the keys of a map and no others. -/
theorem perm_keys (shape : MapShape) (d : Dict Datum Datum) : (shape.keys d).Perm d.keys := by
  cases shape with
  | hashed => exact .refl _
  | ordered => exact List.mergeSort_perm _ _

theorem nodup_keys (shape : MapShape) (d : Dict Datum Datum) : (shape.keys d).Nodup :=
  (shape.perm_keys d).nodup_iff.2 d.nodup_keys

theorem mem_keys_iff {k : Datum} : k ∈ shape.keys d ↔ d.contains k = true :=
  (shape.perm_keys d).mem_iff.trans (d.mem_keys_iff k)

theorem length_keys (shape : MapShape) (d : Dict Datum Datum) : (shape.keys d).length = d.size := by
  rw [(shape.perm_keys d).length_eq, Dict.keys, List.length_map, Dict.size]

/-- The keys of an ordered map are listed in their order. -/
theorem pairwise_keys {t : ScalarType} (h : ∀ k ∈ d.keys, t.Holds k) :
    (ordered.keys d).Pairwise fun a b ↦ a.le b = true := by
  -- The order is one among the data of the type only, so the keys are sorted as such.
  let typed : List { k // t.Holds k } := d.keys.attach.map fun k ↦ ⟨k.1, h k.1 k.2⟩
  have hkeys : typed.map Subtype.val = d.keys := by simp [typed, Function.comp_def]
  let le (a b : { k // t.Holds k }) : Bool := a.1.le b.1
  have hsorted : (typed.mergeSort le).Pairwise fun a b ↦ le a b = true :=
    List.pairwise_mergeSort (fun a b c (hab : le a b = true) (hbc : le b c = true) ↦
      (Datum.le_trans a.2 b.2 c.2 hab hbc : le a c = true))
      (fun a b ↦ (Datum.le_total a.2 b.2 : (le a b || le b a) = true)) typed
  have hmap : (typed.mergeSort le).map Subtype.val = (typed.map Subtype.val).mergeSort Datum.le :=
    List.map_mergeSort fun _ _ _ _ ↦ rfl
  rw [keys, ← hkeys, ← hmap, List.pairwise_map]
  exact hsorted

end MapShape

/-! ### Bindings as a script sees them -/

/-- A scalar as a script sees it. -/
def ScalarType.shown? (t : ScalarType) (d : Datum) : Option Plain :=
  (t.write d).toOption

/-- A value as the scalar that it is; `texts` knows the strings of the heap. -/
def Value.plain? (texts : Nat → Option String) : Value → Option Plain
  | .nil => some .nil
  | .boolean b => some (.boolean b)
  | .integer i => some (.integer i)
  | .number x => some (.number x)
  | .string id => (texts id).map .text
  | _ => none

/-- A value as the scalar that it is. -/
def World.scalar? (w : World) (v : Value) : Option Plain :=
  v.plain? w.binding.machine.heap.strings.text?

/-- A binding that a walk visits: its key and its value as they read then. -/
abbrev Visit :=
  Option Plain × Option Plain

/-- The bindings of some keys of a map. -/
def Dict.visits (d : Dict Datum Datum) (key value : ScalarType) (keys : List Datum) : List Visit :=
  keys.map fun k ↦ (key.shown? k, (d.find? k).bind value.shown?)

/-- The keys that a walk comes to: those before the first one that is shown as nil. -/
def MapShape.visited (shape : MapShape) (key : ScalarType) (d : Dict Datum Datum) : List Datum :=
  (shape.keys d).takeWhile fun k ↦ key.shown? k ≠ some .nil

/-- A walk comes to all keys if none of them is shown as nil, and only then. -/
theorem MapShape.visited_eq_iff {shape : MapShape} {key : ScalarType} {d : Dict Datum Datum} :
    shape.visited key d = shape.keys d ↔ ∀ k, d.contains k = true → key.shown? k ≠ some .nil := by
  rw [visited, List.takeWhile_eq_self_iff]
  simp only [decide_eq_true_eq, shape.mem_keys_iff]

namespace Value

variable {texts texts' : Nat → Option String} {v : Value} {p : Plain}

theorem plain?_mono (h : ∀ id s, texts id = some s → texts' id = some s)
    (hv : v.plain? texts = some p) : v.plain? texts' = some p := by
  cases v with
  | string id =>
    obtain ⟨s, hs, rfl⟩ := Option.map_eq_some_iff.1 hv
    exact Option.map_eq_some_iff.2 ⟨s, h id s hs, rfl⟩
  | _ => exact hv

theorem plain?_eq_nil : v.plain? texts = some .nil ↔ v.isNil = true := by
  cases v <;> simp [plain?, isNil]

end Value

/-! ### Walks -/

namespace Exec

/-- The bindings that a walk visits from a key on. After each of them `body` is run. -/
def walkFrom (run : Runner) (body : Value → Value → Exec Unit) (next state : Value) :
    Nat → Value → Exec (List Visit)
  | 0, _ => throw .exhausted
  | fuel + 1, key => do
    let results ← callFunction run next [state, key]
    let k := results.headD .nil
    let x := results.getD 1 .nil
    if k.isNil then return []
    let w ← get
    body k x
    let visits ← walkFrom run body next state fuel k
    return (w.scalar? k, w.scalar? x) :: visits

/-- The standard walk over a value, of less than `fuel` bindings. -/
def walk (run : Runner) (body : Value → Value → Exec Unit) (fuel : Nat) (obj : Value) :
    Exec (List Visit) := do
  let (next, state, first) ← iterate run obj
  walkFrom run body next state fuel first

end Exec

/-! ### What a walk needs -/

/-- There is a frame and room on the stack for a step of a walk, and strings are found by their texts. -/
structure World.Calm (w : World) : Prop where
  framed : w.Framed
  depth : w.binding.machine.frames.length < w.binding.settings.maxDepth
  room : (w.binding.machine.stack.size + 3) * stackValueBytes ≤ maxArrayBytes
  strings : w.binding.machine.heap.strings.Consistent

/-- A value is a container of the host over which a walk can begin. -/
structure World.Walkable (w : World) (v : Value) (shape : MapShape) (key value : ScalarType)
    (a : Address) (d : Dict Datum Datum) : Prop where
  calm : w.Calm
  functions : w.binding.machine.heap.functions.Sound
  userdata : w.binding.machine.heap.userdata.Sound
  container : w.container? v = some (.map shape key value, a)
  maps : w.Maps a d
  /-- The metatable of the container asks the bridge for walks. -/
  pairs : w.binding.machine.callable? (w.binding.machine.metafield v "__pairs") =
    some (.builtin .containerPairs)

instance (w : World) : Decidable w.Calm :=
  decidable_of_iff ((w.binding.machine.frames.Pairwise (· ≥ ·) ∧
      w.binding.machine.base ≤ w.binding.machine.stack.size ∧
      w.binding.machine.frames.length ≤ w.binding.settings.maxDepth) ∧
      w.binding.machine.frames.length < w.binding.settings.maxDepth ∧
      (w.binding.machine.stack.size + 3) * stackValueBytes ≤ maxArrayBytes ∧
      w.binding.machine.heap.strings.Consistent)
    ⟨fun ⟨⟨hsorted, hbase, hle⟩, hdepth, hroom, hstrings⟩ ↦
      ⟨⟨hsorted, hbase, hle⟩, hdepth, hroom, hstrings⟩,
      fun h ↦ ⟨⟨h.framed.sorted, h.framed.base_le, h.framed.depth_le⟩, h.depth, h.room, h.strings⟩⟩

instance (o : Option Callable) (b : Builtin) : Decidable (o = some (.builtin b)) :=
  match o with
  | some (.builtin b') => decidable_of_iff (b' = b) (by simp)
  | some (.routine _) | some (.method _ _) | some (.program _) | none => isFalse (by simp)

instance (w : World) (v : Value) (shape : MapShape) (key value : ScalarType) (a : Address)
    (d : Dict Datum Datum) : Decidable (w.Walkable v shape key value a d) :=
  decidable_of_iff (w.Calm ∧ w.binding.machine.heap.functions.Sound ∧
      w.binding.machine.heap.userdata.Sound ∧ w.container? v = some (.map shape key value, a) ∧
      w.Maps a d ∧ w.binding.machine.callable? (w.binding.machine.metafield v "__pairs") =
        some (.builtin .containerPairs))
    ⟨fun ⟨hcalm, hfunctions, huserdata, hcontainer, hmaps, hpairs⟩ ↦
      ⟨hcalm, hfunctions, huserdata, hcontainer, hmaps, hpairs⟩,
      fun h ↦ ⟨h.calm, h.functions, h.userdata, h.container, h.maps, h.pairs⟩⟩

/-- A walk with a function and a cursor has some keys of the map at an address still to come. -/
structure World.Walking (w : World) (shape : MapShape) (key value : ScalarType) (a : Address)
    (d : Dict Datum Datum) (next : Value) (cursor : Nat) (keys : List Datum) : Prop where
  calm : w.Calm
  callee : w.binding.machine.callable? next = some (.builtin (.advance (.map shape key value)))
  cursor : ∃ u c, w.binding.machine.heap.userdata.get? cursor = some u ∧ u.content = .cursor c ∧
    c.keyType = key ∧ c.keys.drop c.position = keys ∧
    w.container? u.userValue = some (.map shape key value, a)
  maps : w.Maps a d

/-- A computation leaves walks over the map at an address as they are: it changes neither the map nor
their cursors, and it ends well. -/
def Exec.Spares (shape : MapShape) (key value : ScalarType) (a : Address) (d : Dict Datum Datum)
    (x : Exec Unit) : Prop :=
  ∀ w next cursor keys, w.Walking shape key value a d next cursor keys →
    Ends x (fun _ w' ↦ w'.Walking shape key value a d next cursor keys) (fun _ _ ↦ False) w

/-! ### Pushing scalars -/

namespace Machine

variable {m : Machine}

/-- Pushing a scalar pushes a value that reads as the scalar. It may give the heap a string more. -/
theorem exists_pushPlain (hm : m.heap.strings.Consistent) (p : Plain) :
    ∃ v strings, m.pushPlain p = { m with
        heap := { m.heap with strings := strings }, stack := m.stack.push v } ∧
      strings.Consistent ∧ v.plain? strings.text? = some p ∧
      ∀ id s, m.heap.strings.text? id = some s → strings.text? id = some s := by
  cases p with
  | nil => exact ⟨.nil, m.heap.strings, rfl, hm, rfl, fun _ _ h ↦ h⟩
  | boolean b => exact ⟨.boolean b, m.heap.strings, rfl, hm, rfl, fun _ _ h ↦ h⟩
  | integer i => exact ⟨.integer i, m.heap.strings, rfl, hm, rfl, fun _ _ h ↦ h⟩
  | number x => exact ⟨.number x, m.heap.strings, rfl, hm, rfl, fun _ _ h ↦ h⟩
  | text s =>
    refine ⟨.string (m.heap.strings.intern s).1, (m.heap.strings.intern s).2, rfl, hm.intern s, ?_,
      fun _ _ h ↦ hm.text?_intern_of_some s h⟩
    rw [Value.plain?, hm.intern_text? s]
    rfl

/-- Two scalars that are pushed can both be read afterwards. -/
theorem exists_pushPlain_pushPlain (hm : m.heap.strings.Consistent) (p q : Plain) :
    ∃ y z strings, (m.pushPlain p).pushPlain q = { m with
        heap := { m.heap with strings := strings }, stack := (m.stack.push y).push z } ∧
      strings.Consistent ∧ y.plain? strings.text? = some p ∧ z.plain? strings.text? = some q := by
  obtain ⟨y, strings₁, hpush₁, hstrings₁, hy, -⟩ := exists_pushPlain hm p
  obtain ⟨z, strings₂, hpush₂, hstrings₂, hz, hkept⟩ := exists_pushPlain
    (m := m.pushPlain p) (by rw [hpush₁]; exact hstrings₁) q
  rw [hpush₁] at hpush₂ hkept
  exact ⟨y, z, strings₂, hpush₁ ▸ hpush₂, hstrings₂, Value.plain?_mono hkept hy, hz⟩

end Machine

/-! ### Steps -/

namespace World

variable {w : World} {shape : MapShape} {key value : ScalarType} {a : Address} {d : Dict Datum Datum}
  {f next v : Value} {cursor : Nat} {keys : List Datum}

@[simp]
theorem userdata_entering (args : List Value) :
    (w.entering f args).binding.machine.heap.userdata = w.binding.machine.heap.userdata := by
  obtain ⟨tables, h⟩ := w.heap_entering f args
  rw [h]

@[simp]
theorem strings_entering (args : List Value) :
    (w.entering f args).binding.machine.heap.strings = w.binding.machine.heap.strings := by
  obtain ⟨tables, h⟩ := w.heap_entering f args
  rw [h]

@[simp]
theorem functions_entering (args : List Value) :
    (w.entering f args).binding.machine.heap.functions = w.binding.machine.heap.functions := by
  obtain ⟨tables, h⟩ := w.heap_entering f args
  rw [h]

/-- The container of a value depends on records alone. -/
theorem container?_congr {w' : World}
    (h : ∀ id, w'.binding.machine.record? id = w.binding.machine.record? id) :
    w'.container? v = w.container? v := by
  rw [container?, container?, funext h]

/-- After a call the stack and the frames are as before, so the next call has room as well. -/
theorem Calm.returning {w' : World} (h : w.Calm)
    (hsettings : w'.binding.settings = w.binding.settings)
    (hstrings : w'.binding.machine.heap.strings.Consistent) : (w'.returning w).Calm where
  framed := ⟨h.framed.sorted, h.framed.base_le, hsettings ▸ h.framed.depth_le⟩
  depth := hsettings ▸ h.depth
  room := h.room
  strings := hstrings

end World

/-- A machine in which a cursor has come to a position. -/
def Machine.advance (m : Machine) (id : Nat) (c : Cursor) (position : Nat) : Machine :=
  { m with heap := m.heap.modifyUserdata id fun u ↦
      { u with content := .cursor { c with position := position } } }

/-- A cursor is no record, wherever it stands. -/
theorem Machine.record?_advance {m : Machine} {id : Nat} {u : Userdata} {c c' : Cursor} (position : Nat)
    (hu : m.heap.userdata.get? id = some u) (hcursor : u.content = .cursor c') (j : Nat) :
    (m.advance id c position).record? j = m.record? j := by
  have hget : (m.advance id c position).heap.userdata.get? j = _ := m.heap.userdata.get?_modify id j _
  rw [record?, record?, hget]
  split
  · rename_i hj
    rw [← hj, hu, Option.map_some, Option.bind_some, Option.bind_some, Userdata.record?, Userdata.record?,
      hcursor]
  · rfl

/-- **What a step of a walk keeps**: when the cursor has moved on, the walk goes on from there. -/
theorem World.Walking.returning {w w' : World} {shape : MapShape} {key value : ScalarType} {a : Address}
    {d : Dict Datum Datum} {next : Value} {cursor : Nat} {keys : List Datum}
    (hw : w.Walking shape key value a d next cursor keys) {u : Userdata} {c : Cursor}
    (hu : w.binding.machine.heap.userdata.get? cursor = some u) (hcursor : u.content = .cursor c)
    (position : Nat) (hhost : w'.host = w.host) (hsettings : w'.binding.settings = w.binding.settings)
    (hfunctions : w'.binding.machine.heap.functions = w.binding.machine.heap.functions)
    (huserdata : w'.binding.machine.heap.userdata =
      (w.binding.machine.advance cursor c position).heap.userdata)
    (hstrings : w'.binding.machine.heap.strings.Consistent) :
    (w'.returning w).Walking shape key value a d next cursor (c.keys.drop position) where
  calm := hw.calm.returning hsettings hstrings
  callee := by
    have hcallee : (w'.returning w).binding.machine.callable? next =
        w.binding.machine.callable? next := by
      show w'.binding.machine.callable? next = _
      simp only [Machine.callable?, hfunctions]
    rw [hcallee]
    exact hw.callee
  cursor := by
    obtain ⟨u', c', hu', hcursor', hkey, -, hcontainer⟩ := hw.cursor
    obtain rfl : u = u' := Option.some.inj (hu.symm.trans hu')
    obtain rfl : c = c' := Content.cursor.inj (hcursor.symm.trans hcursor')
    refine ⟨{ u with content := .cursor { c with position := position } },
      { c with position := position }, ?_, rfl, hkey, rfl, ?_⟩
    · show w'.binding.machine.heap.userdata.get? cursor = _
      rw [huserdata, Machine.advance, Heap.modifyUserdata, SlotStore.get?_modify, if_pos rfl, hu]
      rfl
    · have hrecord (id : Nat) : (w'.returning w).binding.machine.record? id =
          w.binding.machine.record? id := by
        rw [← Machine.record?_advance (c := c) position hu hcursor id]
        show (w'.binding.machine.heap.userdata.get? id).bind _ = _
        rw [huserdata]
        rfl
      exact (World.container?_congr hrecord).trans hcontainer
  maps := by
    rw [World.Maps]
    show w'.host.memory.container? a = _
    rw [hhost]
    exact hw.maps

namespace Exec

variable {w : World} {shape : MapShape} {key value : ScalarType} {a : Address} {d : Dict Datum Datum}
  {id : Nat} {u : Userdata} {c : Cursor}

/-- What a step of a walk finds. -/
theorem ends_mapNext (hstate : w.binding.machine.valueAt 1 = .userdata id)
    (hu : w.binding.machine.heap.userdata.get? id = some u) (hcursor : u.content = .cursor c)
    (hkey : c.keyType = key) (hc : w.container? u.userValue = some (.map shape key value, a))
    (hd : w.Maps a d) {Q : Nat → World → Prop} {E : Interrupt → World → Prop} :
    Ends (mapNext shape key value) Q E w ↔
      Ends (match (nextBinding d (c.keys.drop c.position) c.position).1 with
        | some (k, x) => do
          let _ ← pushScalar key k
          let _ ← pushScalar value x
          return 2
        | none => do
          push .nil
          return 1) Q E { w with
            binding.machine := w.binding.machine.advance id c
              (nextBinding d (c.keys.drop c.position) c.position).2 } := by
  subst hkey
  simp only [mapNext, valueAt, ends_bind, ends_machine, ends_pure, hstate, userValue, Value.userdata?,
    Option.bind_some, hu, containerOf, ends_get, hc, if_true, cursor?, Option.map_some, hcursor]
  rw [ends_mapAt hd, ends_bind]
  rfl

/-- A walk that has come to its end gives nil. -/
theorem ends_step_nil {next : Value} {cursor : Nat}
    (hw : w.Walking shape key value a d next cursor []) (fuel : Nat) (last : Value) :
    Ends (callFunction (runner fuel) next [.userdata cursor, last]) (fun vs _ ↦ vs = [.nil])
      (fun _ _ ↦ False) w := by
  obtain ⟨u, c, hu, hcursor, hkey, hkeys, hcontainer⟩ := hw.cursor
  refine ends_callFunction_builtin hw.calm.framed hw.callee hw.calm.depth fuel ?_
  have hrecord (id : Nat) : (w.entering next [.userdata cursor, last]).binding.machine.record? id =
      w.binding.machine.record? id := by
    rw [Machine.record?, Machine.record?, World.userdata_entering]
  rw [Builtin.run, containerNext, ends_mapNext
    (World.valueAt_entering (n := 1) Nat.one_pos (by simp)) (by rw [World.userdata_entering]; exact hu)
    hcursor hkey ((World.container?_congr hrecord).trans hcontainer) hw.maps, hkeys]
  refine ⟨[.nil], rfl, rfl, Array.push_eq_append, ?_, rfl⟩
  exact Nat.le_trans (Nat.mul_le_mul_right _ (by simp)) hw.calm.room

/-- **A step of a walk** gives the next binding. -/
theorem ends_step_cons {next : Value} {cursor : Nat} {k x : Datum} {rest : List Datum} {p q : Plain}
    (hw : w.Walking shape key value a d next cursor (k :: rest)) (hx : d.find? k = some x)
    (hp : key.write k = .ok p) (hq : value.write x = .ok q) (fuel : Nat) (last : Value) :
    Ends (callFunction (runner fuel) next [.userdata cursor, last])
      (fun vs w' ↦ ∃ y z, vs = [y, z] ∧ w'.scalar? y = some p ∧ w'.scalar? z = some q ∧
        w'.Walking shape key value a d next cursor rest)
      (fun _ _ ↦ False) w := by
  obtain ⟨u, c, hu, hcursor, hkey, hkeys, hcontainer⟩ := hw.cursor
  refine ends_callFunction_builtin hw.calm.framed hw.callee hw.calm.depth fuel ?_
  have hrecord (id : Nat) : (w.entering next [.userdata cursor, last]).binding.machine.record? id =
      w.binding.machine.record? id := by
    rw [Machine.record?, Machine.record?, World.userdata_entering]
  have hnext : nextBinding d (k :: rest) c.position = (some (k, x), c.position + 1) := by
    rw [nextBinding, hx]
  have hrest : c.keys.drop (c.position + 1) = rest := by
    rw [← List.drop_drop, hkeys, List.drop_one, List.tail_cons]
  rw [Builtin.run, containerNext, ends_mapNext
    (World.valueAt_entering (n := 1) Nat.one_pos (by simp)) (by rw [World.userdata_entering]; exact hu)
    hcursor hkey ((World.container?_congr hrecord).trans hcontainer) hw.maps, hkeys, hnext]
  generalize hm : (w.entering next [.userdata cursor, last]).binding.machine.advance cursor c
    (c.position + 1) = m
  have hframes : m.frames = (w.entering next [.userdata cursor, last]).binding.machine.frames :=
    hm ▸ rfl
  have hstack : m.stack = (w.entering next [.userdata cursor, last]).binding.machine.stack := hm ▸ rfl
  have hfunctions : m.heap.functions = w.binding.machine.heap.functions := by
    rw [← hm, Machine.advance, Heap.modifyUserdata, World.functions_entering]
  have huserdata : m.heap.userdata =
      (w.binding.machine.advance cursor c (c.position + 1)).heap.userdata := by
    rw [← hm, Machine.advance, Heap.modifyUserdata, World.userdata_entering]
    rfl
  have hstrings : m.heap.strings.Consistent := by
    rw [← hm, Machine.advance, Heap.modifyUserdata, World.strings_entering]
    exact hw.calm.strings
  obtain ⟨y, z, strings, hpush, hstrings', hy, hz⟩ := Machine.exists_pushPlain_pushPlain hstrings p q
  dsimp only
  rw [ends_bind]
  refine ends_written k (fun p' hp' ↦ ?_) fun n hn ↦ by rw [hp] at hn; cases hn
  obtain rfl : p = p' := Except.ok.inj (hp.symm.trans hp')
  rw [ends_bind]
  refine ends_written x (fun q' hq' ↦ ?_) fun n hn ↦ by rw [hq] at hn; cases hn
  obtain rfl : q = q' := Except.ok.inj (hq.symm.trans hq')
  simp only [ends_pure, hpush]
  refine ⟨[y, z], rfl, hframes, ?_, Nat.le_trans (Nat.mul_le_mul_right _ (by simp)) hw.calm.room,
    y, z, rfl, hy, hz, ?_⟩
  · rw [hstack, Array.push_eq_append, Array.push_eq_append, Array.append_assoc]
    rfl
  · rw [← hrest]
    exact hw.returning hu hcursor (c.position + 1) rfl rfl hfunctions huserdata hstrings'

end Exec

/-! ### Beginnings -/

/-- The machine of a world in which a walk with some keys begins: the step function, a cursor before the
first key, and no key are pushed. -/
def Machine.beginWalk (m : Machine) (kind : ContainerKind) (cursor : Userdata) : Machine :=
  { m with
    heap := { m.heap with
      functions := m.heap.functions.insert ⟨.builtin (.advance kind), "next"⟩
      userdata := m.heap.userdata.insert cursor }
    stack := ((m.stack.push (.function m.heap.functions.nextId)).push
      (.userdata m.heap.userdata.nextId)).push .nil }

/-- When a cursor before the first key has been made, all keys are still to come. -/
theorem World.Walkable.returning {w w' : World} {v : Value} {shape : MapShape} {key value : ScalarType}
    {a : Address} {d : Dict Datum Datum} (hw : w.Walkable v shape key value a d) {u : Userdata}
    {keys : List Datum} (hcursor : u.content = .cursor ⟨key, keys, 0⟩) (huser : u.userValue = v)
    (hhost : w'.host = w.host) (hsettings : w'.binding.settings = w.binding.settings)
    (hfunctions : w'.binding.machine.heap.functions =
      w.binding.machine.heap.functions.insert ⟨.builtin (.advance (.map shape key value)), "next"⟩)
    (huserdata : w'.binding.machine.heap.userdata = w.binding.machine.heap.userdata.insert u)
    (hstrings : w'.binding.machine.heap.strings = w.binding.machine.heap.strings) :
    (w'.returning w).Walking shape key value a d (.function w.binding.machine.heap.functions.nextId)
      w.binding.machine.heap.userdata.nextId keys where
  calm := hw.calm.returning hsettings (hstrings ▸ hw.calm.strings)
  callee := by
    show (w'.binding.machine.heap.functions.get? _).map _ = _
    rw [hfunctions, hw.functions.get?_insert, if_pos rfl]
    rfl
  cursor := by
    refine ⟨u, ⟨key, keys, 0⟩, ?_, hcursor, rfl, rfl, ?_⟩
    · show w'.binding.machine.heap.userdata.get? _ = _
      rw [huserdata, hw.userdata.get?_insert, if_pos rfl]
    · -- The cursor is new, and it is no record, so all containers are where they were.
      have hrecord (id : Nat) : (w'.returning w).binding.machine.record? id =
          w.binding.machine.record? id := by
        show (w'.binding.machine.heap.userdata.get? id).bind _ = _
        rw [huserdata, hw.userdata.get?_insert, Machine.record?]
        split
        · rename_i hid
          rw [hid, hw.userdata.get?_nextId, Option.bind_some, Userdata.record?, hcursor]
          rfl
        · rfl
      rw [World.container?_congr hrecord, huser]
      exact hw.container
  maps := by
    rw [World.Maps]
    show w'.host.memory.container? a = _
    rw [hhost]
    exact hw.maps

namespace Exec

variable {w : World} {v : Value} {shape : MapShape} {key value : ScalarType} {a : Address}
  {d : Dict Datum Datum}

theorem ends_containerPairs (hv : w.binding.machine.valueAt 1 = v)
    (hc : w.container? v = some (.map shape key value, a)) (hd : w.Maps a d)
    {Q : Nat → World → Prop} {E : Interrupt → World → Prop} :
    Ends containerPairs Q E w ↔ Q 3 { w with
      binding.machine := w.binding.machine.beginWalk (.map shape key value)
        ⟨.cursor ⟨key, shape.keys d, 0⟩, some w.binding.tables.cursorMetatable, v, false⟩ } := by
  rw [containerPairs, ends_bind, ends_containerArgument (hv ▸ hc)]
  simp only [valueAt, ends_bind, ends_machine, ends_pure, hv]
  rw [ends_updateMachine, ends_bind, ends_push, ends_bind, ends_mapAt]
  · rfl
  · exact hd

/-- **A walk begins** with all keys of the map still to come. -/
theorem ends_iterate (hw : w.Walkable v shape key value a d) (fuel : Nat) :
    Ends (iterate (runner fuel) v)
      (fun r w' ↦ ∃ cursor, r.2.1 = .userdata cursor ∧
        w'.Walking shape key value a d r.1 cursor (shape.keys d))
      (fun _ _ ↦ False) w := by
  have hhandler : (w.binding.machine.metafield v "__pairs").isNil = false := by
    cases hh : w.binding.machine.metafield v "__pairs" with
    | nil =>
      have hpairs := hw.pairs
      rw [hh] at hpairs
      cases hpairs
    | _ => rfl
  rw [iterate, ends_bind, ends_machine]
  dsimp only
  rw [hhandler, if_neg Bool.false_ne_true, ends_bind]
  refine ends_callFunction_builtin hw.calm.framed hw.pairs hw.calm.depth fuel ?_
  have hself : (w.entering (w.binding.machine.metafield v "__pairs") [v]).binding.machine.valueAt 1 = v :=
    World.valueAt_entering (n := 1) Nat.one_pos (by simp)
  have hrecord (id : Nat) : (w.entering (w.binding.machine.metafield v "__pairs")
      [v]).binding.machine.record? id = w.binding.machine.record? id := by
    rw [Machine.record?, Machine.record?, World.userdata_entering]
  rw [Builtin.run, ends_containerPairs hself
    ((World.container?_congr hrecord).trans hw.container) hw.maps]
  generalize hm : (w.entering (w.binding.machine.metafield v "__pairs") [v]).binding.machine = m
  have hfunctions : m.heap.functions = w.binding.machine.heap.functions :=
    hm ▸ World.functions_entering [v]
  have huserdata : m.heap.userdata = w.binding.machine.heap.userdata :=
    hm ▸ World.userdata_entering [v]
  have hstrings : m.heap.strings = w.binding.machine.heap.strings :=
    hm ▸ World.strings_entering [v]
  refine ⟨[.function m.heap.functions.nextId, .userdata m.heap.userdata.nextId, .nil], rfl, rfl, ?_,
    hw.calm.room, m.heap.userdata.nextId, rfl, ?_⟩
  · exact Array.toList_inj.1 (by simp [Machine.beginWalk])
  · rw [hfunctions, huserdata]
    refine hw.returning (u := ⟨.cursor ⟨key, shape.keys d, 0⟩,
      some w.binding.tables.cursorMetatable, v, false⟩) rfl rfl rfl rfl ?_ ?_ hstrings
    · rw [← hfunctions]
      rfl
    · rw [← huserdata]
      rfl

/-- **A whole walk**, from a point on. -/
theorem ends_walkFrom {body : Value → Value → Exec Unit}
    (hbody : ∀ k x, (body k x).Spares shape key value a d) {next : Value} {cursor : Nat}
    {keys : List Datum}
    (hkeys : ∀ k ∈ keys, ∃ x p q, d.find? k = some x ∧ key.write k = .ok p ∧ value.write x = .ok q)
    (hw : w.Walking shape key value a d next cursor keys) (n : Nat) {fuel : Nat}
    (hfuel : keys.length < fuel) (last : Value) :
    Ends (walkFrom (runner n) body next (.userdata cursor) fuel last)
      (fun bs _ ↦ bs = d.visits key value (keys.takeWhile fun k ↦ key.shown? k ≠ some .nil))
      (fun _ _ ↦ False) w := by
  -- By induction on the keys that are still to come: a step leaves the cursor at the next one.
  induction keys generalizing w fuel last with
  | nil =>
    obtain ⟨fuel, rfl⟩ := Nat.exists_eq_succ_of_ne_zero (Nat.ne_of_gt hfuel)
    rw [walkFrom, ends_bind]
    refine (ends_step_nil hw n last).imp (fun vs w' h ↦ ?_) fun _ _ h ↦ h
    rw [h]
    rfl
  | cons k rest ih =>
    obtain ⟨fuel, rfl⟩ := Nat.exists_eq_succ_of_ne_zero (Nat.ne_of_gt (Nat.zero_lt_of_lt hfuel))
    obtain ⟨x, p, q, hx, hp, hq⟩ := hkeys k List.mem_cons_self
    rw [walkFrom, ends_bind]
    refine (ends_step_cons hw hx hp hq n last).imp (fun vs w' h ↦ ?_) fun _ _ h ↦ h
    obtain ⟨y, z, rfl, hy, hz, hw'⟩ := h
    have hkey : key.shown? k = some p := by rw [ScalarType.shown?, hp]; rfl
    have hvalue : (d.find? k).bind value.shown? = some q := by
      rw [hx, Option.bind_some, ScalarType.shown?, hq]
      rfl
    have hsecond : [y, z].getD 1 .nil = z := rfl
    rw [List.headD_cons, hsecond]
    by_cases hnil : p = .nil
    · subst hnil
      rw [if_pos (Value.plain?_eq_nil.1 hy), List.takeWhile_cons_of_neg (by simp [hkey])]
      rfl
    · have hne : ¬ y.isNil = true := fun h ↦
        hnil (Option.some.inj (hy.symm.trans (Value.plain?_eq_nil.2 h)))
      rw [if_neg hne, List.takeWhile_cons_of_pos (by simp [hkey, hnil]), ends_bind, ends_get, ends_bind]
      refine (hbody y z w' next cursor rest hw').imp (fun _ w'' hw'' ↦ ?_) fun _ _ h ↦ h
      have hrest := ih (fun k hk ↦ hkeys k (List.mem_cons_of_mem _ hk)) hw''
        (Nat.lt_of_succ_lt_succ hfuel) y
      rw [ends_bind]
      refine hrest.imp (fun bs _ h ↦ ?_) fun _ _ h ↦ h
      subst h
      rw [ends_pure, hy, hz, Dict.visits, Dict.visits, List.map_cons, hkey, hvalue]

end Exec

/-- All keys and values of a map have script values. -/
def Dict.Shown (d : Dict Datum Datum) (key value : ScalarType) : Prop :=
  ∀ k x, d.find? k = some x → (∃ p, key.write k = .ok p) ∧ ∃ q, value.write x = .ok q

instance (d : Dict Datum Datum) (key value : ScalarType) : Decidable (d.Shown key value) :=
  have hok {t : ScalarType} {x : Datum} : (t.write x).isOk = true ↔ ∃ p, t.write x = .ok p := by
    cases t.write x <;> simp [Except.isOk, Except.toBool]
  decidable_of_iff
    (∀ b ∈ d.toList, (key.write b.1).isOk = true ∧ (value.write b.2).isOk = true)
    ⟨fun h k x hx ↦ (h (k, x) ((d.mem_toList_iff k x).2 hx)).imp hok.1 hok.1,
      fun h b hb ↦ (h b.1 b.2 ((d.mem_toList_iff b.1 b.2).1 hb)).imp hok.2 hok.2⟩

theorem Exec.ends_walk {w : World} {v : Value} {shape : MapShape} {key value : ScalarType} {a : Address}
    {d : Dict Datum Datum} (hw : w.Walkable v shape key value a d) (hshown : d.Shown key value)
    {body : Value → Value → Exec Unit} (hbody : ∀ k x, (body k x).Spares shape key value a d)
    {fuel : Nat} (hfuel : d.size < fuel) (n : Nat) :
    Ends (walk (runner n) body fuel v) (fun bs _ ↦ bs = d.visits key value (shape.visited key d))
      (fun _ _ ↦ False) w := by
  have hkeys : ∀ k ∈ shape.keys d,
      ∃ x p q, d.find? k = some x ∧ key.write k = .ok p ∧ value.write x = .ok q := by
    intro k hk
    obtain ⟨x, hx⟩ := Option.isSome_iff_exists.1 (shape.mem_keys_iff.1 hk)
    obtain ⟨⟨p, hp⟩, q, hq⟩ := hshown k x hx
    exact ⟨x, p, q, hx, hp, hq⟩
  rw [walk, ends_bind]
  refine (ends_iterate hw n).imp (fun r w' h ↦ ?_) fun _ _ h ↦ h
  obtain ⟨next, state, first⟩ := r
  obtain ⟨cursor, rfl, hw'⟩ := h
  exact ends_walkFrom hbody hkeys hw' n (by rwa [shape.length_keys]) first

/-- **A walk over a map that does not change visits its bindings in the order of the keys, up to the first
key that is shown as nil**, and then it ends. The listing has each key of the map once, those of an ordered
map in their order, and all of them are visited if and only if none of them is shown as nil. -/
theorem MapContainer.walk_visits {w : World} {v : Value} {shape : MapShape} {key value : ScalarType}
    {a : Address} {d : Dict Datum Datum} (hw : w.Walkable v shape key value a d)
    (hshown : d.Shown key value) {body : Value → Value → Exec Unit}
    (hbody : ∀ k x, (body k x).Spares shape key value a d) {fuel : Nat} (hfuel : d.size < fuel)
    (n : Nat) :
    (∃ w', (Exec.walk (Exec.runner n) body fuel v).outcome w =
        (.ok (d.visits key value (shape.visited key d)), w')) ∧
      (shape.keys d).Nodup ∧ (∀ k, k ∈ shape.keys d ↔ d.contains k = true) ∧
      (shape = .ordered → (∀ k, d.contains k = true → key.Holds k) →
        (shape.keys d).Pairwise fun k k' ↦ k.le k' = true) ∧
      (shape.visited key d = shape.keys d ↔
        ∀ k, d.contains k = true → key.shown? k ≠ some .nil) := by
  refine ⟨?_, shape.nodup_keys d, fun k ↦ shape.mem_keys_iff, ?_, shape.visited_eq_iff⟩
  · obtain ⟨bs, w', hout, rfl⟩ := (Exec.ends_walk hw hshown hbody hfuel n).exists_ok
    exact ⟨w', hout⟩
  · rintro rfl hholds
    exact MapShape.pairwise_keys fun k hk ↦ hholds k ((d.mem_keys_iff k).1 hk)

/-- On the stack is an ordered map of the host from optional integers to texts. -/
def World.charting (d : Dict Datum Datum) : World :=
  (Session.lobby.run
    [.act (.container (.pushOwned (.map .ordered (.optional (.int .i64)) .text) (.map d)))]).world

/-- The address of the container at the first index. -/
def World.charted (w : World) : Address :=
  match w.container? (w.binding.machine.valueAt 1) with
  | some (_, a) => a
  | none => 0

/-- A walk in which nothing else happens. -/
theorem Exec.spares_pure {shape : MapShape} {key value : ScalarType} {a : Address}
    {d : Dict Datum Datum} : (pure () : Exec Unit).Spares shape key value a d :=
  fun _ _ _ _ hw ↦ hw

/-- Two integers, the greater one bound last. -/
def Dict.chart : Dict Datum Datum :=
  .ofList [(.present (.int 1), .text "x"), (.present (.int 2), .text "y")]

/-- The smaller integer is visited first. -/
theorem MapContainer.walk_visits_chart : ∃ w',
    (Exec.walk (Exec.runner 0) (fun _ _ ↦ pure ()) 3
      ((World.charting .chart).binding.machine.valueAt 1)).outcome (World.charting .chart) =
        (.ok [(some (.integer 1), some (.text "x")), (some (.integer 2), some (.text "y"))], w') := by
  have hwalkable : (World.charting .chart).Walkable ((World.charting .chart).binding.machine.valueAt 1)
      .ordered (.optional (.int .i64)) .text (World.charting .chart).charted .chart := by
    decide +kernel
  have hkeys : MapShape.ordered.keys .chart = [.present (.int 1), .present (.int 2)] := by
    have hbound : Dict.chart.keys = [.present (.int 2), .present (.int 1)] := by decide
    have hle : (Datum.present (.int 2)).le (.present (.int 1)) = false := by decide
    rw [MapShape.keys, hbound]
    simp [List.mergeSort, hle]
  have hvisits : Dict.chart.visits (.optional (.int .i64)) .text
      (MapShape.ordered.visited (.optional (.int .i64)) .chart) =
        [(some (.integer 1), some (.text "x")), (some (.integer 2), some (.text "y"))] := by
    rw [MapShape.visited, hkeys]
    decide
  rw [← hvisits]
  exact (MapContainer.walk_visits hwalkable (by decide) (fun _ _ ↦ Exec.spares_pure)
    (by decide +kernel) 0).1

/-- An absent key and an integer. -/
def Dict.gap : Dict Datum Datum :=
  .ofList [(.present (.int 1), .text "y"), (.absent, .text "x")]

/-- **A key that is shown as nil ends a walk.** The absent key of an ordered map comes first, so a walk
visits nothing, though the map has two bindings and all its keys and values have script values. -/
theorem MapContainer.not_walk_complete :
    (World.charting .gap).Walkable ((World.charting .gap).binding.machine.valueAt 1) .ordered
        (.optional (.int .i64)) .text (World.charting .gap).charted .gap ∧
      Dict.gap.Shown (.optional (.int .i64)) .text ∧
      MapShape.ordered.keys .gap = [.absent, .present (.int 1)] ∧
      ∃ w', (Exec.walk (Exec.runner 0) (fun _ _ ↦ pure ()) 3
        ((World.charting .gap).binding.machine.valueAt 1)).outcome (World.charting .gap) =
          (.ok [], w') := by
  have hwalkable : (World.charting .gap).Walkable ((World.charting .gap).binding.machine.valueAt 1)
      .ordered (.optional (.int .i64)) .text (World.charting .gap).charted .gap := by
    decide +kernel
  have hshown : Dict.gap.Shown (.optional (.int .i64)) .text := by decide
  have hkeys : MapShape.ordered.keys .gap = [.absent, .present (.int 1)] :=
    List.mergeSort_of_pairwise (by decide)
  have hvisits : Dict.gap.visits (.optional (.int .i64)) .text
      (MapShape.ordered.visited (.optional (.int .i64)) .gap) = [] := by
    rw [MapShape.visited, hkeys]
    decide
  obtain ⟨bs, w', hout, rfl⟩ := (Exec.ends_walk hwalkable hshown (fun _ _ ↦ Exec.spares_pure)
    (show Dict.gap.size < 3 by decide) 0).exists_ok
  exact ⟨hwalkable, hshown, hkeys, w', hvisits ▸ hout⟩

end ObjectBridge
