import ObjectBridge.Proofs.MapWalks
import ObjectBridge.Proofs.Metatables

/-!
# Access to members

What a script gets when it reads a member of an object, and what it brings about when it writes one,
is told by the object alone, as the registry and the memory of the host have it: `Registry.reads` and
`Registry.writes`. Whichever value of the object a script has, a packed word or a userdata, its members
are read and written just so, as long as its metatable has the functions of the bridge
(`World.Faces.readTop_eq`, `World.Faces.writeTop_eq`).
-/

namespace ObjectBridge

/-! ### How values appear -/

/-- What a script can tell of a value, whatever the numbers in the heap: a scalar with its text, what a
function runs, and of anything else the kind. -/
inductive Appearance where
  | scalar (p : Plain)
  | function (c : Callable)
  | other (k : Kind)

/-- A value that appears so, where strings have the text that goes with it. -/
def Appearance.value : Appearance → Value
  | .scalar .nil => .nil
  | .scalar (.boolean b) => .boolean b
  | .scalar (.integer i) => .integer i
  | .scalar (.number x) => .number x
  | .scalar (.text _) => .string 0
  | .function _ => .function 0
  | .other .table => .table 0
  | .other .lightUserdata => .word 0
  | .other _ => .userdata 0

/-- The text that goes with an appearance. -/
def Appearance.text? : Appearance → Option String
  | .scalar (.text s) => some s
  | _ => none

/-- What a value that appears so is as a scalar of a type. -/
def Appearance.read (A : Appearance) (t : ScalarType) : Except Mismatch Datum :=
  t.read (fun _ ↦ A.text?) A.value

/-- How a value appears; `none` for a string or a function that the heap does not have. -/
def World.appearance? (w : World) (v : Value) : Option Appearance :=
  match v with
  | .function _ => (w.binding.machine.callable? v).map .function
  | .table _ | .word _ | .userdata _ => some (.other v.kind)
  | _ => (w.scalar? v).map .scalar

/-- Strings are converted by their texts. -/
private theorem ScalarType.read_string {texts : Nat → Option String} {id : Nat} {s : String}
    (h : texts id = some s) (t : ScalarType) :
    t.read texts (.string id) = t.read (fun _ ↦ some s) (.string 0) := by
  induction t with
  | optional t ih => simp only [read, Value.isNil, Bool.false_eq_true, if_false, ih]
  | _ => simp [read, IntKind.read, readText, Value.integer?, Value.number?, Value.kind, h]

/-- Other scalars are converted whatever the strings. -/
private theorem ScalarType.read_scalar {v : Value} (hv : v.string? = none) (texts texts' : Nat → Option String)
    (t : ScalarType) : t.read texts v = t.read texts' v := by
  induction t with
  | optional t ih => simp only [read, ih]
  | text | compactText => cases v <;> first | rfl | exact absurd hv (by simp [Value.string?])
  | _ => rfl

/-- What is no scalar is converted by its kind. -/
private theorem ScalarType.read_kind (v v' : Value) (hkind : v.kind = v'.kind)
    (hv : v.kind = .table ∨ v.kind = .function ∨ v.kind = .lightUserdata ∨ v.kind = .userdata)
    (texts texts' : Nat → Option String) (t : ScalarType) : t.read texts v = t.read texts' v' := by
  induction t with
  | optional t ih => cases v <;> cases v' <;> simp_all [read, Value.kind, Value.isNil]
  | _ =>
    cases v <;> cases v' <;>
      simp_all [read, IntKind.read, readText, Value.integer?, Value.number?, Value.kind]

/-- **How a value appears tells what it is as a scalar.** -/
theorem World.read_of_appearance {w : World} {v : Value} {A : Appearance} (h : w.appearance? v = some A)
    (t : ScalarType) : t.read w.binding.machine.heap.strings.text? v = A.read t := by
  cases v with
  | string id =>
    obtain ⟨p, hp, rfl⟩ := Option.map_eq_some_iff.1 h
    obtain ⟨s, hs, rfl⟩ := Option.map_eq_some_iff.1 hp
    exact ScalarType.read_string hs t
  | function id =>
    obtain ⟨c, -, rfl⟩ := Option.map_eq_some_iff.1 h
    exact ScalarType.read_kind (.function id) (.function 0) rfl (.inr (.inl rfl)) _ _ t
  | table id =>
    obtain rfl := Option.some.inj h
    exact ScalarType.read_kind (.table id) (.table 0) rfl (.inl rfl) _ _ t
  | word word =>
    obtain rfl := Option.some.inj h
    exact ScalarType.read_kind (.word word) (.word 0) rfl (.inr (.inr (.inl rfl))) _ _ t
  | userdata id =>
    obtain rfl := Option.some.inj h
    exact ScalarType.read_kind (.userdata id) (.userdata 0) rfl (.inr (.inr (.inr rfl))) _ _ t
  | nil | boolean | integer | number =>
    obtain rfl := Option.some.inj h
    exact ScalarType.read_scalar rfl _ _ t

/-- A scalar appears as what it is. -/
theorem World.appearance?_of_scalar {w : World} {v : Value} {p : Plain} (h : w.scalar? v = some p) :
    w.appearance? v = some (.scalar p) := by
  cases v with
  | nil | boolean | integer | number | string => exact congrArg (Option.map Appearance.scalar) h
  | table | function | word | userdata => exact absurd h (by simp [scalar?, Value.plain?])

/-! ### What members are -/

namespace Registry

/-- What a script gets for a member of the object seen as `v`. -/
def reads (r : Registry) (m : Memory) (v : View) (name : String) : Except Failure Appearance :=
  match offered (r.typeFunctions v.type) name with
  | some c => .ok (.function c)
  | none =>
    match r.findMember? v.type name with
    | some (owner, .variable t get _) =>
      match r.toSuper? v owner with
      | some a =>
        match t.write (get m a) with
        | .ok p => .ok (.scalar p)
        | .error n => .error (.unrepresentable n)
      | none => .error (.invalidCast (r.nameOf v.type) (r.nameOf owner))
    | _ => .ok (.scalar .nil)

/-- What becomes of the memory when a script writes a member of the object seen as `v`. -/
def writes (r : Registry) (m : Memory) (v : View) (name : String) (A : Appearance) :
    Except Failure Memory :=
  match r.findMember? v.type name with
  | some (owner, .variable t _ (some set)) =>
    match r.toSuper? v owner with
    | some a =>
      match A.read t with
      | .ok d => .ok (set m a d)
      | .error e => .error (.conversion e)
    | none => .error (.invalidCast (r.nameOf v.type) (r.nameOf owner))
  | some (_, .variable _ _ none) => .error (.readOnly (r.nameOf v.type) name)
  | _ => .error (.unknownMember (r.nameOf v.type) name)

end Registry

/-! ### The functions of the bridge -/

namespace Exec

variable {w : World} {v : View} {d : Descriptor} {k : Nat} {name : String} {A : Appearance}

theorem ends_objectArgument (hv : w.resolve (w.binding.machine.valueAt 1) = .live v)
    {Q : Nat × Option View → World → Prop} {E : Interrupt → World → Prop} :
    Ends objectArgument Q E w ↔ Q (v.type, some v) w := by
  simp only [objectArgument, valueAt, resolve, ends_bind, ends_machine, ends_pure, ends_get, hv]

/-- A function that a type offers is found under its name. -/
theorem ends_memberFunction?_some (hw : w.Equipped) {type : Nat}
    (hd : w.binding.registry.get? type = some d) (hk : w.text? k = some name) {c : Callable}
    (hc : offered (w.binding.registry.typeFunctions type) name = some c)
    {Q : Option Value → World → Prop} {E : Interrupt → World → Prop}
    (hQ : ∀ f, w.binding.machine.callable? (.function f) = some c → Q (some (.function f)) w) :
    Ends (memberFunction? type (.string k)) Q E w := by
  obtain ⟨mt, htype, hserves⟩ := hw.types hd
  obtain ⟨f, hget, hcallable⟩ := hserves.rawGet hw.strings hk hc
  rw [World.typeMetatable?] at htype
  simp only [memberFunction?, ends_bind, ends_machine, ends_typeMetatable, htype, Option.map_some, hget]
  exact hQ f hcallable

/-- No function is found under a name under which a type offers none. -/
theorem ends_memberFunction?_none (hw : w.Equipped) {type : Nat}
    (hd : w.binding.registry.get? type = some d) (hk : w.text? k = some name)
    (hc : offered (w.binding.registry.typeFunctions type) name = none)
    {Q : Option Value → World → Prop} {E : Interrupt → World → Prop} (hQ : Q none w) :
    Ends (memberFunction? type (.string k)) Q E w := by
  obtain ⟨mt, htype, hserves⟩ := hw.types hd
  have hne := hserves.rawGet_ne hk hc
  rw [World.typeMetatable?] at htype
  simp only [memberFunction?, ends_bind, ends_machine, ends_typeMetatable, htype, Option.map_some]
  split
  · rename_i f hf
    exact absurd (Option.some.inj hf) (hne f)
  · exact hQ

/-- The address of a base of an object. -/
theorem ends_ownerAddress {owner : Nat} {Q : Address → World → Prop} {E : Interrupt → World → Prop}
    (hQ : ∀ a, w.binding.registry.toSuper? v owner = some a → Q a w)
    (hE : w.binding.registry.toSuper? v owner = none → E (.failure (.invalidCast
      (w.binding.registry.nameOf v.type) (w.binding.registry.nameOf owner))) w) :
    Ends (ownerAddress v owner) Q E w := by
  simp only [ownerAddress, ends_bind, ends_registry]
  cases ha : w.binding.registry.toSuper? v owner with
  | some a => exact hQ a ha
  | none => exact hE ha

/-- **Reading a member** pushes what the object tells, and fails if the object tells a failure. -/
theorem ends_objectIndex (hw : w.Equipped) (hv : w.resolve (w.binding.machine.valueAt 1) = .live v)
    (hd : w.binding.registry.get? v.type = some d)
    (hkey : w.binding.machine.valueAt 2 = .string k) (hk : w.text? k = some name) :
    Ends objectIndex
      (fun n w' ↦ n = 1 ∧ ∃ y strings A, w' = { w with binding.machine := { w.binding.machine with
          heap := { w.binding.machine.heap with strings := strings }
          stack := w.binding.machine.stack.push y } } ∧
        w.binding.registry.reads w.host.memory v name = .ok A ∧ w'.appearance? y = some A)
      (fun i w' ↦ w' = w ∧ ∃ f, i = .failure f ∧
        w.binding.registry.reads w.host.memory v name = .error f) w := by
  have htext : w.binding.machine.textAt? 2 = some name := by
    rw [Machine.textAt?, hkey]
    exact hk
  simp only [objectIndex, ends_bind, ends_objectArgument hv, ends_registry, ends_machine, htext, valueAt,
    ends_pure, hkey]
  rw [Registry.reads]
  cases hc : offered (w.binding.registry.typeFunctions v.type) name with
  | some c =>
    refine ends_memberFunction?_some hw hd hk hc fun f hf ↦ ?_
    simp only [ends_bind, ends_push, ends_pure]
    refine ⟨trivial, .function f, w.binding.machine.heap.strings, _, rfl, rfl, ?_⟩
    exact congrArg (Option.map Appearance.function) hf
  | none =>
    refine ends_memberFunction?_none hw hd hk hc ?_
    simp only
    split
    · rename_i owner t get set? hmember
      rw [ends_bind]
      refine ends_ownerAddress ?_ fun hnone ↦ ?_
      · intro a ha
        simp only [ends_bind, ends_host, hmember, ha]
        refine ends_written _ (fun p hp ↦ ?_) fun n hn ↦ ?_
        · obtain ⟨y, strings, hpush, hstrings, hy, -⟩ := Machine.exists_pushPlain hw.strings p
          rw [hp, hpush]
          exact ⟨rfl, y, strings, .scalar p, rfl, rfl, World.appearance?_of_scalar hy⟩
        · rw [hn]
          exact ⟨rfl, _, rfl, rfl⟩
      · simp only [hmember, hnone]
        exact ⟨trivial, _, rfl, rfl⟩
    · simp only [ends_bind, ends_push, ends_pure]
      exact ⟨trivial, .nil, w.binding.machine.heap.strings, .scalar .nil, rfl, rfl, rfl⟩

/-- **Writing a member** changes the memory as the object tells, and fails if the object tells a
failure. -/
theorem ends_objectNewIndex (hv : w.resolve (w.binding.machine.valueAt 1) = .live v)
    (hkey : w.binding.machine.valueAt 2 = .string k) (hk : w.text? k = some name)
    (hA : w.appearance? (w.binding.machine.valueAt 3) = some A) :
    Ends objectNewIndex
      (fun n w' ↦ n = 0 ∧ ∃ m, w' = { w with host := { w.host with memory := m } } ∧
        w.binding.registry.writes w.host.memory v name A = .ok m)
      (fun i w' ↦ w' = w ∧ ∃ f, i = .failure f ∧
        w.binding.registry.writes w.host.memory v name A = .error f) w := by
  have htext : w.binding.machine.textAt? 2 = some name := by
    rw [Machine.textAt?, hkey]
    exact hk
  simp only [objectNewIndex, ends_bind, ends_objectArgument hv, ends_registry, ends_machine, htext,
    Option.getD_some]
  rw [Registry.writes]
  rcases w.binding.registry.findMember? v.type name with
    _ | ⟨owner, ⟨t, get, _ | set⟩ | ⟨c⟩⟩
  · exact ⟨rfl, _, rfl, rfl⟩
  · exact ⟨rfl, _, rfl, rfl⟩
  · simp only [ends_bind]
    refine ends_ownerAddress (fun a ha ↦ ?_) fun hnone ↦ ?_
    · simp only [ends_bind, fieldArgument, ends_machine, World.read_of_appearance hA, ha]
      cases A.read t with
      | ok d => exact ⟨rfl, _, rfl, rfl⟩
      | error e => exact ⟨rfl, _, rfl, rfl⟩
    · simp only [hnone]
      exact ⟨trivial, _, rfl, rfl⟩
  · exact ⟨rfl, _, rfl, rfl⟩

end Exec

/-! ### Values of objects -/

namespace World

variable {w w' : World} {x : Value} {v : View} {f : Value}

/-- What a value leads to is told by the host, the records, and what the binding is tied to. -/
theorem resolve_congr (hhost : w'.host = w.host) (hregistry : w'.binding.registry = w.binding.registry)
    (hdomain : w'.binding.domain = w.binding.domain)
    (hsettings : w'.binding.settings = w.binding.settings)
    (hrecord : ∀ id, w'.record? id = w.record? id) (x : Value) : w'.resolve x = w.resolve x := by
  have hword (word : UInt64) : w'.resolveWord word = w.resolveWord word := by
    simp only [resolveWord, weakTable, hhost, hregistry, hdomain]
  have hresolve (r : Record) : w'.resolveRecord r = w.resolveRecord r := by
    simp only [resolveRecord, hhost, hregistry, hdomain]
  have hmachine (id : Nat) : w'.binding.machine.record? id = w.binding.machine.record? id := hrecord id
  cases x <;> simp only [resolve, hsettings, hword, hmachine, hresolve]

/-- **A value has the members of the object seen as `v`**: it leads to the object, and its metatable
asks the bridge. -/
structure Faces (w : World) (x : Value) (v : View) : Prop where
  live : w.resolve x = .live v
  registered : ∃ d, w.binding.registry.get? v.type = some d
  served : ∃ mt entries, w.binding.machine.metatable? x = some mt ∧ w.Serves mt entries ∧
    offered entries "__index" = some (.builtin .objectIndex) ∧
    offered entries "__newindex" = some (.builtin .objectNewIndex)

/-- A value of an object is no table. -/
theorem Faces.table?_eq_none (h : w.Faces x v) : x.table? = none := by
  have hlive := h.live
  cases x with
  | table id => exact absurd hlive (by simp [resolve])
  | _ => rfl

/-- It has them as long as the tables, the userdata and the host are left alone. -/
theorem Faces.of_keepsTables (h : w.Faces x v) (hk : w.KeepsTables w') (hhost : w'.host = w.host)
    (hdomain : w'.binding.domain = w.binding.domain)
    (huserdata : w'.binding.machine.heap.userdata = w.binding.machine.heap.userdata) :
    w'.Faces x v where
  live := by
    rw [resolve_congr hhost hk.registry hdomain hk.settings fun id ↦ ?_]
    · exact h.live
    · simp only [record?, Machine.record?, huserdata]
  registered := by
    rw [hk.registry]
    exact h.registered
  served := by
    obtain ⟨mt, entries, hmt, hserves, hoffered⟩ := h.served
    refine ⟨mt, entries, ?_, hk.serves hserves, hoffered⟩
    have hlive := h.live
    cases x with
    | word word => exact hk.light.trans hmt
    | userdata id =>
      rw [← hmt]
      simp only [Machine.metatable?, Heap.metatable?, huserdata]
    | _ => exact absurd hlive (by simp [resolve])

/-- Entering a function leaves the tables alone but for that of the pins. -/
theorem keepsTables_entering (hw : w.binding.machine.heap.strings.Consistent) (args : List Value) :
    w.KeepsTables (w.entering f args) := by
  obtain ⟨tables, hmachine, hkept⟩ := Exec.machine_flushed (w.calling f args)
  have hentering : (w.entering f args).binding.machine = { w.binding.machine with
      heap := { w.binding.machine.heap with tables := tables }
      stack := w.binding.machine.stack.push f ++ args.toArray
      frames := (w.binding.machine.stack.size + 1) :: w.binding.machine.frames } := by
    rw [entering, withFrames, hmachine]
    rfl
  refine ⟨rfl, rfl, rfl, ?_, ?_, fun ht ↦ ?_, fun hf ↦ ?_, fun {id} _ hpinned ↦ ?_⟩
  · rw [hentering]
  · rw [hentering]
    exact hw
  · rw [text?, hentering]
    exact ht
  · rw [function?, hentering]
    exact hf
  · rw [table?, hentering]
    exact hkept id hpinned.symm

/-- A member is asked for where the value has it. -/
theorem Faces.entering (h : w.Faces x v) (hw : w.binding.machine.heap.strings.Consistent)
    (args : List Value) : (w.entering f args).Faces x v :=
  h.of_keepsTables (keepsTables_entering hw args) rfl rfl (userdata_entering args)

/-- How a value appears is told by the strings and the functions of the heap. -/
theorem appearance?_congr
    (hstrings : w'.binding.machine.heap.strings = w.binding.machine.heap.strings)
    (hfunctions : w'.binding.machine.heap.functions = w.binding.machine.heap.functions) (x : Value) :
    w'.appearance? x = w.appearance? x := by
  cases x <;> simp only [appearance?, scalar?, Machine.callable?, hstrings, hfunctions]

end World

namespace Exec

variable {w : World} {x y : Value} {v : View} {k : Nat} {name : String} {A : Appearance}

/-- A value that is no table is read by the function in its metatable. -/
theorem ends_indexFrom_function {run : Runner} (n : Nat) {key : Value} {f : Nat} (hx : x.table? = none)
    (hmeta : w.binding.machine.metafield x "__index" = .function f) {Q : Value → World → Prop}
    {E : Interrupt → World → Prop} :
    Ends (indexFrom run (n + 1) x key) Q E w ↔
      Ends (callMetamethod run (.function f) [x, key]) Q E w := by
  cases x with
  | table id => exact absurd hx (by simp [Value.table?])
  | _ =>
    simp only [indexFrom, ends_bind, ends_machine, hmeta]
    rfl

/-- A value that is no table is written by the function in its metatable. -/
theorem ends_newIndexFrom_function {run : Runner} (n : Nat) {key : Value} {f : Nat} (hx : x.table? = none)
    (hmeta : w.binding.machine.metafield x "__newindex" = .function f) {Q : Unit → World → Prop}
    {E : Interrupt → World → Prop} :
    Ends (newIndexFrom run (n + 1) x key y) Q E w ↔
      Ends (callFunction run (.function f) [x, key, y]) (fun _ ↦ Q ()) E w := by
  cases x with
  | table id => exact absurd hx (by simp [Value.table?])
  | _ =>
    simp only [newIndexFrom, ends_bind, ends_machine, hmeta, Value.isNil, Bool.false_eq_true, if_false]
    rfl

/-- **Reading a member of a value** gives what the object tells. -/
theorem ends_index (hcalm : w.Calm) (hw : w.Equipped) (hx : w.Faces x v) (hk : w.text? k = some name)
    (fuel : Nat) :
    Ends (index (runner fuel) x (.string k))
      (fun y w' ↦ ∃ A, w.binding.registry.reads w.host.memory v name = .ok A ∧ w'.appearance? y = some A)
      (fun i _ ↦ ∃ f, i = .failure f ∧
        w.binding.registry.reads w.host.memory v name = .error f) w := by
  obtain ⟨mt, entries, hmt, hserves, hindex, -⟩ := hx.served
  obtain ⟨f, hget, hcallable⟩ := hserves.rawGetField hw.strings hindex
  have hmeta : w.binding.machine.metafield x "__index" = .function f := by
    simp only [Machine.metafield, hmt, hget]
  have hkept := World.keepsTables_entering (f := .function f) hcalm.strings [x, .string k]
  have hentered := hx.entering (f := .function f) hcalm.strings [x, .string k]
  obtain ⟨d, hd⟩ := hentered.registered
  have hself : (w.entering (.function f) [x, .string k]).binding.machine.valueAt 1 = x :=
    World.valueAt_entering (n := 1) Nat.one_pos (by simp)
  have hkey : (w.entering (.function f) [x, .string k]).binding.machine.valueAt 2 = .string k :=
    World.valueAt_entering (n := 2) Nat.two_pos (by simp)
  refine (ends_indexFrom_function 1999 hx.table?_eq_none hmeta).2 ?_
  rw [callMetamethod, ends_bind]
  refine ends_callFunction hcalm.framed hcallable hcalm.depth fuel ?_
  refine (ends_objectIndex (hw.of_keepsTables hkept) ((congrArg _ hself).trans hentered.live)
    hd hkey (hkept.text hk)).imp (fun n w₂ h ↦ ?_) fun i w₂ h ↦ ?_
  · obtain ⟨rfl, y, strings, A, rfl, hreads, hy⟩ := h
    refine ⟨[y], rfl, rfl, Array.push_eq_append, Nat.le_trans (Nat.mul_le_mul_right _ (by simp)) hcalm.room, A,
      hreads, ?_⟩
    exact (World.appearance?_congr rfl rfl y).trans hy
  · obtain ⟨rfl, e, rfl, hreads⟩ := h
    exact ⟨⟨e, rfl⟩, fun _ _ ↦ ⟨e, rfl, hreads⟩⟩

/-- **Writing a member of a value** brings about what the object tells. -/
theorem ends_newIndex (hcalm : w.Calm) (hw : w.Equipped) (hx : w.Faces x v) (hk : w.text? k = some name)
    (hA : w.appearance? y = some A) (fuel : Nat) :
    Ends (newIndex (runner fuel) x (.string k) y)
      (fun _ w' ↦ ∃ m, w'.host = { w.host with memory := m } ∧
        w.binding.registry.writes w.host.memory v name A = .ok m)
      (fun i w' ↦ w'.host = w.host ∧ ∃ f, i = .failure f ∧
        w.binding.registry.writes w.host.memory v name A = .error f) w := by
  obtain ⟨mt, entries, hmt, hserves, -, hnewIndex⟩ := hx.served
  obtain ⟨f, hget, hcallable⟩ := hserves.rawGetField hw.strings hnewIndex
  have hmeta : w.binding.machine.metafield x "__newindex" = .function f := by
    simp only [Machine.metafield, hmt, hget]
  have hkept := World.keepsTables_entering (f := .function f) hcalm.strings [x, .string k, y]
  have hentered := hx.entering (f := .function f) hcalm.strings [x, .string k, y]
  have hself : (w.entering (.function f) [x, .string k, y]).binding.machine.valueAt 1 = x :=
    World.valueAt_entering (n := 1) Nat.one_pos (by simp)
  have hkey : (w.entering (.function f) [x, .string k, y]).binding.machine.valueAt 2 = .string k :=
    World.valueAt_entering (n := 2) Nat.two_pos (by simp)
  have hvalue : (w.entering (.function f) [x, .string k, y]).binding.machine.valueAt 3 = y :=
    World.valueAt_entering (n := 3) (by decide) (by simp)
  have hA' : (w.entering (.function f) [x, .string k, y]).appearance? y = some A :=
    (World.appearance?_congr (World.strings_entering _) (World.functions_entering _) y).trans hA
  refine (ends_newIndexFrom_function 1999 hx.table?_eq_none hmeta).2 ?_
  refine ends_callFunction hcalm.framed hcallable hcalm.depth fuel ?_
  refine (ends_objectNewIndex ((congrArg _ hself).trans hentered.live) hkey
    (hkept.text hk) ((congrArg _ hvalue).trans hA')).imp (fun n w₂ h ↦ ?_) fun i w₂ h ↦ ?_
  · obtain ⟨rfl, m, rfl, hwrites⟩ := h
    exact ⟨[], rfl, rfl, by simp, Nat.le_trans (Nat.mul_le_mul_right _ (by simp)) hcalm.room, m, rfl,
      hwrites⟩
  · obtain ⟨rfl, e, rfl, hwrites⟩ := h
    exact ⟨⟨e, rfl⟩, fun _ hhost ↦ ⟨hhost, e, rfl, hwrites⟩⟩

end Exec

/-! ### Access on the stack -/

/-- What has been pushed can be taken off again. -/
theorem Machine.popValue_push {m : Machine} (hm : m.base ≤ m.stack.size) (v : Value) :
    (m.push v).popValue = (v, m) := by
  have hbase : (m.push v).base = m.base := rfl
  have hstack : (m.push v).stack = m.stack.push v := rfl
  have htop : (m.push v).top ≠ 0 := by
    rw [top, hbase, hstack, Array.size_push]
    omega
  rw [popValue, if_neg htop, hstack, Array.back?_push, Option.getD_some, Array.pop_push]
  rfl

namespace World

variable {w : World} {x y : Value} {v : View} {A : Appearance}

/-- What reading a member of the value on top of the stack comes to: how the member appears, or what
interrupts the reading. -/
def readTop (w : World) (fuel : Nat) (name : String) : Except Interrupt (Option Appearance) :=
  match (Exec.getField (Exec.runner fuel) (-1) name).outcome w with
  | (.ok _, w') => .ok (w'.top?.bind w'.appearance?)
  | (.error i, _) => .error i

/-- What writing a member of the value on top of the stack comes to: whether it is interrupted, and the
host afterwards. -/
def writeTop (w : World) (fuel : Nat) (name : String) (y : Value) : Except Interrupt Unit × Host :=
  let (outcome, w') := (Exec.push y *> Exec.setField (Exec.runner fuel) (-2) name).outcome w
  (outcome, w'.host)

/-- The world in which a text has been interned. -/
def interning (w : World) (s : String) : World :=
  { w with binding.machine := (w.binding.machine.intern s).2 }

theorem keepsTables_interning (hw : w.binding.machine.heap.strings.Consistent) (s : String) :
    w.KeepsTables (w.interning s) :=
  ⟨rfl, rfl, rfl, rfl, hw.intern s, fun ht ↦ hw.text?_intern_of_some s ht, fun hf ↦ hf, fun _ _ ↦ rfl⟩

theorem Calm.interning (h : w.Calm) (s : String) : (w.interning s).Calm :=
  ⟨⟨h.framed.sorted, h.framed.base_le, h.framed.depth_le⟩, h.depth, h.room, h.strings.intern s⟩

/-- A value appears as it did when texts have been interned. -/
theorem appearance?_interning (hw : w.binding.machine.heap.strings.Consistent) (s : String)
    (hy : w.appearance? y = some A) : (w.interning s).appearance? y = some A := by
  cases y with
  | string id =>
    obtain ⟨p, hp, rfl⟩ := Option.map_eq_some_iff.1 hy
    exact congrArg (Option.map Appearance.scalar)
      (Value.plain?_mono (fun _ _ ↦ hw.text?_intern_of_some s) hp)
  | _ => exact hy

/-- The value on top of the stack is the last but one when another has been pushed. -/
theorem valueAt_pushing (hx : w.binding.machine.valueAt (-1) = x) (hne : x ≠ .nil) (y : Value) :
    (w.pushing y).binding.machine.valueAt (-2) = x := by
  have hone : ((-(-1) : Int)).toNat = 1 := rfl
  have htwo : ((-(-2) : Int)).toNat = 2 := rfl
  have hbase : (w.pushing y).binding.machine.base = w.binding.machine.base := rfl
  have hsize : (w.pushing y).binding.machine.stack.size = w.binding.machine.stack.size + 1 :=
    Array.size_push _
  simp only [Machine.valueAt, Machine.position?, hone] at hx
  rw [if_neg (by decide), if_pos (by decide)] at hx
  split at hx
  · rename_i pos hpos
    obtain ⟨hle, hsome⟩ := Option.ite_none_right_eq_some.1 hpos
    obtain rfl := Option.some.inj hsome
    have hposition : (w.pushing y).binding.machine.position? (-2) =
        some (w.binding.machine.stack.size - 1) := by
      simp only [Machine.position?, htwo, hbase, hsize]
      rw [if_neg (by decide), if_pos (by decide), if_pos (by omega)]
      exact congrArg some (by omega)
    have hget : (w.pushing y).binding.machine.stack[w.binding.machine.stack.size - 1]? =
        w.binding.machine.stack[w.binding.machine.stack.size - 1]? := by
      show (w.binding.machine.stack.push y)[_]? = _
      rw [Array.getElem?_push, if_neg (by omega)]
    simp only [Machine.valueAt, hposition, hget]
    exact hx
  · exact absurd hx.symm hne

/-- **What reading a member of a value comes to** is told by its object. -/
theorem Faces.readTop_eq (h : w.Faces x v) (hcalm : w.Calm) (hw : w.Equipped)
    (htop : w.binding.machine.valueAt (-1) = x) (fuel : Nat) (name : String) :
    w.readTop fuel name = match w.binding.registry.reads w.host.memory v name with
      | .ok A => .ok (some A)
      | .error f => .error (.failure f) := by
  have hkept := keepsTables_interning hcalm.strings name
  have hends : Exec.Ends (Exec.getField (Exec.runner fuel) (-1) name)
      (fun _ w' ↦ ∃ A, w.binding.registry.reads w.host.memory v name = .ok A ∧
        w'.top?.bind w'.appearance? = some A)
      (fun i _ ↦ ∃ f, i = .failure f ∧ w.binding.registry.reads w.host.memory v name = .error f) w := by
    simp only [Exec.getField, Exec.valueAt, Exec.intern, Exec.ends_bind, Exec.ends_machine,
      Exec.ends_pure, Exec.ends_updateMachine, htop]
    refine (Exec.ends_index (hcalm.interning name) (hw.of_keepsTables hkept)
      (h.of_keepsTables hkept rfl rfl rfl) (hcalm.strings.intern_text? name) fuel).imp (fun y w₁ hy ↦ ?_)
      fun _ _ hf ↦ hf
    obtain ⟨A, hreads, hA⟩ := hy
    refine ⟨A, hreads, ?_⟩
    show ((w₁.pushing y).top?.bind (w₁.pushing y).appearance?) = some A
    rw [top?_pushing]
    exact (appearance?_congr rfl rfl y).trans hA
  unfold readTop
  split
  · rename_i w' hok
    obtain ⟨A, hreads, hA⟩ := hends.ok hok
    rw [hreads, hA]
  · rename_i i w' herror
    obtain ⟨f, rfl, hreads⟩ := hends.error herror
    rw [hreads]

/-- **What writing a member of a value comes to** is told by its object. -/
theorem Faces.writeTop_eq (h : w.Faces x v) (hcalm : w.Calm) (hw : w.Equipped)
    (htop : w.binding.machine.valueAt (-1) = x) (fuel : Nat) (name : String)
    (hA : w.appearance? y = some A) :
    w.writeTop fuel name y = match w.binding.registry.writes w.host.memory v name A with
      | .ok m => (.ok (), { w.host with memory := m })
      | .error f => (.error (.failure f), w.host) := by
  have hkept := keepsTables_interning hcalm.strings name
  have hnil : x ≠ .nil := by
    have hlive := h.live
    rintro rfl
    exact absurd hlive (by simp [resolve])
  have hends : Exec.Ends (Exec.push y *> Exec.setField (Exec.runner fuel) (-2) name)
      (fun _ w' ↦ ∃ m, w'.host = { w.host with memory := m } ∧
        w.binding.registry.writes w.host.memory v name A = .ok m)
      (fun i w' ↦ w'.host = w.host ∧ ∃ f, i = .failure f ∧
        w.binding.registry.writes w.host.memory v name A = .error f) w := by
    have hpop := Machine.popValue_push hcalm.framed.base_le y
    have hself : (w.binding.machine.push y).valueAt (-2) = x := valueAt_pushing htop hnil y
    simp only [seqRight_eq_bind, Exec.setField, Exec.valueAt, Exec.intern, Exec.popValue, Exec.ends_bind,
      Exec.ends_machine, Exec.ends_pure, Exec.ends_updateMachine, Exec.ends_push, hpop, hself]
    exact Exec.ends_newIndex (hcalm.interning name) (hw.of_keepsTables hkept)
      (h.of_keepsTables hkept rfl rfl rfl) (hcalm.strings.intern_text? name)
      (appearance?_interning hcalm.strings name hA) fuel
  unfold writeTop
  rcases houtcome : (Exec.push y *> Exec.setField (Exec.runner fuel) (-2) name).outcome w with
    ⟨i | ⟨⟩, w'⟩
  · obtain ⟨hhost, f, rfl, hwrites⟩ := hends.error houtcome
    rw [hwrites]
    exact Prod.ext rfl hhost
  · obtain ⟨m, hhost, hwrites⟩ := hends.ok houtcome
    rw [hwrites]
    exact Prod.ext rfl hhost

end World

end ObjectBridge
