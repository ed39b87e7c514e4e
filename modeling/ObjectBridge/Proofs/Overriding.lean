import ObjectBridge.Proofs.PackingParity

/-!
# Members that override one another

A type and its bases may declare members under one name; the nearest declaration is meant then
(`Registry.Nearest`). Members are found in two ways. Variables are looked for along the line of the type, and
so is what is written (`Registry.Sound.findMember?_eq_some_iff`); functions have been put into the metatable
of the type, those of bases first, after the functions of the bridge
(`Registry.Sound.offered_lineFunctions_eq_some_iff`).

What is written is written to the nearest declaration. What is read is the nearest declaration if that is a
function; but the metatable is asked first, and so a variable is read only if no base declares a function
under its name, and the name is none under which the bridge has a function (`Session.members_nearest`). A
variable that overrides a function can be written, and reads as the function (`Session.not_reads_nearest`).
-/

namespace ObjectBridge

/-! ### Functions by name -/

/-- The function that is offered under a name is one of those that were put there. -/
theorem mem_of_offered {entries : List (String × Callable)} {name : String} {c : Callable}
    (h : offered entries name = some c) : (name, c) ∈ entries := by
  obtain ⟨front, back, hentries, -⟩ := List.lookup_eq_some_iff.1 h
  rw [← List.mem_reverse, hentries]
  exact List.mem_append_right _ List.mem_cons_self

theorem offered_ne_none {entries : List (String × Callable)} {name : String} {c : Callable}
    (h : (name, c) ∈ entries) : offered entries name ≠ none := fun hnone ↦
  absurd (List.lookup_eq_none_iff.1 hnone _ (List.mem_reverse.2 h)) (by simp)

/-! ### Nearest declarations -/

/-- The function that a member is. -/
def Member.function? : Member → Option Callable
  | .function c => some c
  | .variable _ _ _ => none

theorem Member.function?_eq_some_iff {m : Member} {c : Callable} :
    m.function? = some c ↔ m = .function c := by
  cases m <;> simp [function?]

theorem Member.function?_eq_none_iff {m : Member} :
    m.function? = none ↔ ∃ t get set?, m = .variable t get set? := by
  cases m <;> simp [function?]

namespace Registry

variable {α : Type} {r : Registry} {f : Nat → Option α} {id owner offset : Nat} {b : α} {name : String}

/-- **The nearest of a type and its bases for which there is something**: `owner`, which is embedded at
`offset`, and for which there is `b`. The others for which there is something are bases of it. -/
structure Nearest (r : Registry) (f : Nat → Option α) (id owner offset : Nat) (b : α) : Prop where
  mem : (owner, offset) ∈ r.views id
  here : f owner = some b
  nearest : ∀ {base n}, (base, n) ∈ r.views id → (f base).isSome = true → r.isBaseOf base owner = true

theorem Nearest.unique (hs : r.Sound) {owner' offset' : Nat} {b' : α}
    (h : r.Nearest f id owner offset b) (h' : r.Nearest f id owner' offset' b') :
    owner = owner' ∧ offset = offset' ∧ b = b' := by
  have hle := h'.nearest h.mem (by rw [h.here]; rfl)
  have hge := h.nearest h'.mem (by rw [h'.here]; rfl)
  obtain rfl := hs.isBaseOf_antisymm hle hge
  have hoffset := (hs.lookup_views.2 h.mem).symm.trans (hs.lookup_views.2 h'.mem)
  exact ⟨rfl, Option.some.inj hoffset, Option.some.inj (h.here.symm.trans h'.here)⟩

/-- What there is for the type itself is nearest. -/
theorem Nearest.self (hs : r.Sound) (h : f id = some b) : r.Nearest f id id 0 b :=
  ⟨hs.mem_views_self id, h, fun hmem _ ↦ isBaseOf_iff.2 ⟨_, hmem⟩⟩

/-- What is found along the line of a type is the nearest. -/
theorem Sound.nearest_of_findSome? (hs : r.Sound)
    (h : (r.views id).findSome? (fun v ↦ f v.1) = some b) :
    ∃ owner offset, r.Nearest f id owner offset b := by
  induction id using Nat.strongRecOn with
  | ind id ih =>
    have hv := hs.views_eq id
    have hbase {base n : Nat} (hm : (base, n) ∈ r.views id) : r.isBaseOf base id = true :=
      isBaseOf_iff.2 ⟨n, hm⟩
    rw [hv, List.findSome?_cons] at h
    cases hid : f id with
    | some b' =>
      simp only [hid, Option.some.injEq] at h
      exact ⟨id, 0, .self hs (hid.trans (by rw [h]))⟩
    | none =>
      -- The type itself is passed over, and the line of its direct base decides.
      cases hl : (r.get? id).bind (·.super) with
      | none => simp [hid, hl] at h
      | some link =>
        obtain ⟨d, hd, hsuper⟩ := Option.bind_eq_some_iff.1 hl
        simp only [hid, hl, shift, List.findSome?_map] at h
        obtain ⟨owner, offset, hnear⟩ := ih link.id (hs.super_lt hd hsuper) h
        simp only [hl] at hv
        refine ⟨owner, link.offset + offset, ?_, hnear.here, fun {base n} hm hsome ↦ ?_⟩
        · rw [hv]
          exact List.mem_cons_of_mem _ (mem_shift.2 ⟨offset, hnear.mem, rfl⟩)
        · rw [hv] at hm
          rcases List.mem_cons.1 hm with hm | hm
          · obtain ⟨rfl, -⟩ := Prod.mk.inj hm
            rw [hid] at hsome
            exact absurd hsome (by simp)
          · obtain ⟨k, hk, -⟩ := mem_shift.1 hm
            exact hnear.nearest hk hsome

/-- **Looking along the line of a type finds the nearest**, and nothing if there is none. -/
theorem Sound.findSome?_views_eq_some_iff (hs : r.Sound) :
    (r.views id).findSome? (fun v ↦ f v.1) = some b ↔ ∃ owner offset, r.Nearest f id owner offset b := by
  refine ⟨hs.nearest_of_findSome?, ?_⟩
  rintro ⟨owner, offset, h⟩
  have hsome : ((r.views id).findSome? fun v ↦ f v.1).isSome = true :=
    List.findSome?_isSome_iff.2 ⟨_, h.mem, by rw [h.here]; rfl⟩
  obtain ⟨b', hb'⟩ := Option.isSome_iff_exists.1 hsome
  obtain ⟨owner', offset', h'⟩ := hs.nearest_of_findSome? hb'
  rw [hb', (h'.unique hs h).2.2]

/-! ### Declared members -/

/-- What a type declares under a name. -/
def declared (r : Registry) (name : String) (id : Nat) : Option Member :=
  (r.get? id).bind (·.members.find? name)

/-- The function that a type declares under a name. -/
def declaredFunction (r : Registry) (name : String) (id : Nat) : Option Callable :=
  (r.declared name id).bind Member.function?

theorem declaredFunction_eq_some_iff {c : Callable} :
    r.declaredFunction name id = some c ↔ r.declared name id = some (.function c) := by
  rw [declaredFunction, Option.bind_eq_some_iff]
  exact ⟨fun ⟨m, hm, hc⟩ ↦ Member.function?_eq_some_iff.1 hc ▸ hm, fun h ↦ ⟨_, h, rfl⟩⟩

/-- **The member that is found for a name is the nearest that is declared under it.** -/
theorem Sound.findMember?_eq_some_iff (hs : r.Sound) {m : Member} :
    r.findMember? id name = some (owner, m) ↔ ∃ offset, r.Nearest (r.declared name) id owner offset m := by
  refine (hs.findSome?_views_eq_some_iff (f := fun base ↦ (r.declared name base).map (base, ·))).trans ?_
  constructor
  · rintro ⟨base, offset, hmem, hhere, hnearest⟩
    obtain ⟨m', hm, hpair⟩ := Option.map_eq_some_iff.1 hhere
    obtain ⟨rfl, rfl⟩ := Prod.mk.inj hpair
    exact ⟨offset, hmem, hm, fun h hsome ↦ hnearest h (by rwa [Option.isSome_map])⟩
  · rintro ⟨offset, hmem, hhere, hnearest⟩
    refine ⟨owner, offset, hmem, by rw [hhere]; rfl, fun h hsome ↦ hnearest h ?_⟩
    rwa [Option.isSome_map] at hsome

/-- A type offers under a name the function that it declares. -/
theorem offered_declaredFunctions (d : Descriptor) (name : String) :
    offered (Exec.declaredFunctions d) name = (d.members.find? name).bind Member.function? := by
  have hmem {c : Callable} : (name, c) ∈ Exec.declaredFunctions d ↔
      (d.members.find? name).bind Member.function? = some c := by
    rw [Exec.declaredFunctions, List.mem_filterMap, Option.bind_eq_some_iff]
    constructor
    · rintro ⟨⟨name', m⟩, hm, hc⟩
      cases m with
      | «variable» t get set? => exact absurd hc (by simp)
      | function c' =>
        obtain ⟨rfl, rfl⟩ := Prod.mk.inj (Option.some.inj hc)
        exact ⟨_, (Dict.mem_toList_iff _ _ _).1 hm, rfl⟩
    · rintro ⟨m, hm, hc⟩
      obtain rfl := Member.function?_eq_some_iff.1 hc
      exact ⟨(name, .function c), (Dict.mem_toList_iff _ _ _).2 hm, rfl⟩
  cases hoffered : offered (Exec.declaredFunctions d) name with
  | some c => exact (hmem.1 (mem_of_offered hoffered)).symm
  | none =>
    refine (Option.eq_none_iff_forall_ne_some.2 fun c hc ↦ ?_).symm
    exact offered_ne_none (hmem.2 hc) hoffered

/-- Of the functions of several types, that of the first is offered that declares one, if they are put last
to first. -/
theorem offered_flatMap {ι : Type} (line : List ι) (g : ι → Option Descriptor) (name : String) :
    offered ((line.filterMap g).reverse.flatMap Exec.declaredFunctions) name =
      line.findSome? fun i ↦ ((g i).bind (·.members.find? name)).bind Member.function? := by
  induction line with
  | nil => rfl
  | cons i line ih =>
    cases hi : g i with
    | none =>
      rw [List.filterMap_cons_none hi, List.findSome?_cons, hi]
      exact ih
    | some d =>
      rw [List.filterMap_cons_some hi, List.reverse_cons, List.flatMap_append, offered_append, ih,
        List.flatMap_singleton, offered_declaredFunctions, List.findSome?_cons, hi, Option.bind_some]
      cases (d.members.find? name).bind Member.function? <;> rfl

/-- **The function that a metatable has from a type and its bases is the nearest that is declared** under
the name. -/
theorem Sound.offered_lineFunctions_eq_some_iff (hs : r.Sound) {c : Callable} :
    offered (r.lineFunctions id) name = some c ↔
      ∃ owner offset, r.Nearest (r.declaredFunction name) id owner offset c := by
  rw [← hs.findSome?_views_eq_some_iff, lineFunctions, offered_flatMap]
  rfl

/-- There is nothing for a type and its bases. -/
def Lacks (r : Registry) (f : Nat → Option α) (id : Nat) : Prop :=
  ∀ owner offset, (owner, offset) ∈ r.views id → f owner = none

theorem lacks_iff : r.Lacks f id ↔ (r.views id).findSome? (fun v ↦ f v.1) = none := by
  rw [List.findSome?_eq_none_iff]
  exact ⟨fun h v hv ↦ h v.1 v.2 hv, fun h owner offset hv ↦ h (owner, offset) hv⟩

/-- No member is found for a name under which none is declared. -/
theorem Lacks.findMember? (h : r.Lacks (r.declared name) id) : r.findMember? id name = none :=
  List.findSome?_eq_none_iff.2 fun v hv ↦ Option.map_eq_none_iff.2 (h v.1 v.2 hv)

theorem Lacks.offered_lineFunctions (h : r.Lacks (r.declaredFunction name) id) :
    offered (r.lineFunctions id) name = none := by
  rw [lineFunctions, offered_flatMap]
  exact lacks_iff.1 h

theorem Lacks.declaredFunction (h : r.Lacks (r.declared name) id) :
    r.Lacks (r.declaredFunction name) id := fun owner offset hmem ↦ by
  rw [Registry.declaredFunction, h owner offset hmem]
  rfl

/-- A function that is the nearest member is the nearest function. -/
theorem Nearest.declaredFunction {c : Callable}
    (h : r.Nearest (r.declared name) id owner offset (.function c)) :
    r.Nearest (r.declaredFunction name) id owner offset c where
  mem := h.mem
  here := declaredFunction_eq_some_iff.2 h.here
  nearest hmem hsome := by
    obtain ⟨c', hc'⟩ := Option.isSome_iff_exists.1 hsome
    exact h.nearest hmem (Option.isSome_iff_exists.2 ⟨_, declaredFunction_eq_some_iff.1 hc'⟩)

end Registry

/-! ### Access to objects -/

namespace World

variable {w : World} {x : Value} {v : View}

/-- **A value stands for the object seen as `v`**, of an exported type. A userdata has the metatable of the
type, and no function of a member takes the place of those by which the bridge reads and writes. -/
structure StandsFor (w : World) (x : Value) (v : View) : Prop where
  live : w.resolve x = .live v
  registered : (w.binding.registry.get? v.type).isSome = true
  metatable : ∀ id u, x = .userdata id → w.binding.machine.heap.userdata.get? id = some u →
    u.metatable = w.typeMetatable? v.type
  served : ∀ id, x = .userdata id → ∀ name ∈ ["__index", "__newindex"],
    w.binding.registry.Lacks (w.binding.registry.declaredFunction name) v.type

/-- It has the members of the object. -/
theorem StandsFor.faces (h : w.StandsFor x v) (hw : w.Equipped) : w.Faces x v where
  live := h.live
  registered := Option.isSome_iff_exists.1 h.registered
  served := by
    have hlive := h.live
    cases x with
    | word word =>
      simp only [resolve] at hlive
      split at hlive
      · rename_i hlight
        obtain ⟨mt, hmt, hserves⟩ := hw.words hlight
        exact ⟨mt, wordFunctions, hmt, hserves, rfl, rfl⟩
      · exact absurd hlive (by simp)
    | userdata id =>
      obtain ⟨d, hd⟩ := Option.isSome_iff_exists.1 h.registered
      obtain ⟨mt, hmt, hserves⟩ := hw.types hd
      cases hu : w.binding.machine.heap.userdata.get? id with
      | none => exact absurd hlive (by simp [resolve, Machine.record?, hu])
      | some u =>
        have hoffered (name : String) (hname : name ∈ ["__index", "__newindex"]) :
            offered (w.binding.registry.typeFunctions v.type) name = offered objectFunctions name := by
          rw [Registry.typeFunctions, offered_append,
            (h.served id rfl name hname).offered_lineFunctions, Option.none_or]
        refine ⟨mt, _, ?_, hserves, hoffered _ (by simp), hoffered _ (by simp)⟩
        simp only [Machine.metatable?, Heap.metatable?, hu, Option.bind_some, h.metatable id u rfl hu, hmt]
    | _ => exact absurd hlive (by simp [resolve])

/-- What reading a variable comes to that has a value. -/
def reading (t : ScalarType) (d : Datum) : Except Interrupt (Option Appearance) :=
  match t.write d with
  | .ok p => .ok (some (.scalar p))
  | .error n => .error (.failure (.unrepresentable n))

/-- What writing a variable comes to, where `set` puts what is written into the memory. -/
def writing (w : World) (t : ScalarType) (set : Datum → Memory) (A : Appearance) :
    Except Interrupt Unit × Host :=
  match A.read t with
  | .ok d => (.ok (), { w.host with memory := set d })
  | .error e => (.error (.failure (.conversion e)), w.host)

/-- **What is read under a name from the object seen as `v`** on top of the stack. It is what the nearest of
the type and its bases declares, if the metatable of the type leaves it to that: a function in there is read
even if a variable is nearer. -/
structure ReadsNearest (w : World) (v : View) (name : String) : Prop where
  function : ∀ {owner offset c},
    w.binding.registry.Nearest (w.binding.registry.declared name) v.type owner offset (.function c) →
    ∀ fuel, w.readTop fuel name = .ok (some (.function c))
  /-- The variable of an object is read at the base that declares it. -/
  «variable» : ∀ {owner offset t get set?},
    w.binding.registry.Nearest (w.binding.registry.declared name) v.type owner offset
      (.variable t get set?) →
    w.binding.registry.Lacks (w.binding.registry.declaredFunction name) v.type →
    offered objectFunctions name = none →
    ∀ fuel, w.readTop fuel name = reading t (get w.host.memory (v.address.up offset))
  undeclared : w.binding.registry.Lacks (w.binding.registry.declared name) v.type →
    offered objectFunctions name = none → ∀ fuel, w.readTop fuel name = .ok (some (.scalar .nil))
  /-- The nearest function is read whatever else is declared. -/
  eclipsed : ∀ {owner offset c},
    w.binding.registry.Nearest (w.binding.registry.declaredFunction name) v.type owner offset c →
    ∀ fuel, w.readTop fuel name = .ok (some (.function c))
  /-- Of the functions of the bridge, those are read for which there is no function of a member. -/
  reserved : ∀ {c}, w.binding.registry.Lacks (w.binding.registry.declaredFunction name) v.type →
    offered objectFunctions name = some c → ∀ fuel, w.readTop fuel name = .ok (some (.function c))

/-- **What is written under a name to the object seen as `v`** on top of the stack goes to the variable that
the nearest of the type and its bases declares, and fails if that declares none. -/
structure WritesNearest (w : World) (v : View) (name : String) : Prop where
  «variable» : ∀ {owner offset t get set},
    w.binding.registry.Nearest (w.binding.registry.declared name) v.type owner offset
      (.variable t get (some set)) →
    ∀ fuel {y A}, w.appearance? y = some A → w.writeTop fuel name y =
      w.writing t (set w.host.memory (v.address.up offset)) A
  readOnly : ∀ {owner offset t get},
    w.binding.registry.Nearest (w.binding.registry.declared name) v.type owner offset
      (.variable t get none) →
    ∀ fuel {y A}, w.appearance? y = some A → w.writeTop fuel name y =
      (.error (.failure (.readOnly (w.binding.registry.nameOf v.type) name)), w.host)
  unknown : (∀ owner offset t get set?, ¬ w.binding.registry.Nearest (w.binding.registry.declared name)
      v.type owner offset (.variable t get set?)) →
    ∀ fuel {y A}, w.appearance? y = some A → w.writeTop fuel name y =
      (.error (.failure (.unknownMember (w.binding.registry.nameOf v.type) name)), w.host)

section Access

variable (h : w.StandsFor x v) (hcalm : w.Calm) (hw : w.Equipped) (hr : w.binding.registry.Sound)
  (htop : w.binding.machine.valueAt (-1) = x) (name : String)

include h hcalm hw hr htop

/-- **Reading a member** gives the nearest declaration where the metatable has no function of the name. -/
theorem StandsFor.readsNearest : w.ReadsNearest v name := by
  have hread := (h.faces hw).readTop_eq hcalm hw htop
  have htypes : offered (w.binding.registry.typeFunctions v.type) name =
      (offered (w.binding.registry.lineFunctions v.type) name).or (offered objectFunctions name) :=
    offered_append _ _ _
  have heclipsed {owner offset : Nat} {c : Callable}
      (hc : w.binding.registry.Nearest (w.binding.registry.declaredFunction name) v.type owner offset c)
      (fuel : Nat) : w.readTop fuel name = .ok (some (.function c)) := by
    have hoffered := hr.offered_lineFunctions_eq_some_iff.2 ⟨owner, offset, hc⟩
    rw [hread, Registry.reads, htypes, hoffered]
    rfl
  refine ⟨fun hc ↦ heclipsed hc.declaredFunction, ?_, ?_, heclipsed, ?_⟩
  · intro owner offset t get set? hvariable hlacks hbridge fuel
    have hmember := hr.findMember?_eq_some_iff.2 ⟨offset, hvariable⟩
    have hbase := hr.toSuper?_eq_some_iff.2 ⟨offset, hvariable.mem, rfl⟩
    rw [hread, Registry.reads, htypes, hlacks.offered_lineFunctions, hbridge]
    simp only [Option.or_none, hmember, hbase, reading]
    cases t.write (get w.host.memory (v.address.up offset)) <;> rfl
  · intro hlacks hbridge fuel
    rw [hread, Registry.reads, htypes, hlacks.declaredFunction.offered_lineFunctions, hbridge]
    simp only [Option.or_none, hlacks.findMember?]
  · intro c hlacks hbridge fuel
    rw [hread, Registry.reads, htypes, hlacks.offered_lineFunctions, hbridge]
    rfl

/-- **Writing a member** goes to the nearest declaration. -/
theorem StandsFor.writesNearest : w.WritesNearest v name := by
  have hwrite (fuel : Nat) {y : Value} {A : Appearance} (hA : w.appearance? y = some A) :=
    (h.faces hw).writeTop_eq hcalm hw htop fuel name hA
  refine ⟨?_, ?_, ?_⟩
  · intro owner offset t get set hvariable fuel y A hA
    have hmember := hr.findMember?_eq_some_iff.2 ⟨offset, hvariable⟩
    have hbase := hr.toSuper?_eq_some_iff.2 ⟨offset, hvariable.mem, rfl⟩
    rw [hwrite fuel hA, Registry.writes, hmember]
    simp only [hbase, writing]
    cases A.read t <;> rfl
  · intro owner offset t get hvariable fuel y A hA
    rw [hwrite fuel hA, Registry.writes, hr.findMember?_eq_some_iff.2 ⟨offset, hvariable⟩]
  · intro hnone fuel y A hA
    rw [hwrite fuel hA, Registry.writes]
    rcases hmember : w.binding.registry.findMember? v.type name with
      _ | ⟨owner, ⟨t, get, set?⟩ | ⟨c⟩⟩
    · rfl
    · obtain ⟨offset, hvariable⟩ := hr.findMember?_eq_some_iff.1 hmember
      exact absurd hvariable (hnone _ _ _ _ _)
    · rfl

end Access

/-- What is presented stands for its object. -/
theorem Presents.standsFor {s : Sight} {n : Nat} (h : w.Presents s n) :
    w.StandsFor (w.binding.machine.valueAt (-1)) s.view where
  live := h.faces.live
  registered := h.sees.registered
  metatable id u hx hu := by
    have hdisplays := h.displays
    rw [hx] at hdisplays
    cases hdisplays with
    | userdata there _ _ _ _ metatable =>
      obtain rfl := Option.some.inj (hu.symm.trans there)
      exact metatable
  served _ _ name hname owner offset _ := by
    have hadorned : ['_', '_'] <+: name.toList := by
      rcases List.mem_pair.1 hname with rfl | rfl <;> decide
    refine Option.eq_none_iff_forall_ne_some.2 fun c hc ↦ ?_
    obtain ⟨d, hd, hm⟩ := Option.bind_eq_some_iff.1 (Registry.declaredFunction_eq_some_iff.1 hc)
    exact h.names hd hm hadorned

end World

/-! ### Sessions -/

namespace Session

/-- **The nearest member is meant.** Start a session with any number of bindings, let anything happen to it,
and look at a binding that has a value on top of its stack that stands for an object, be it a word or a
userdata. What is written under a name to the object goes to the variable that the nearest of its type and the
bases declares under the name, and what is read is what the nearest of them declares, provided that the
metatable of the type has no function of that name for a variable that is nearer, or for nothing.

The metatables of the binding are as they were made, though scripts could have changed them, and there is
room on its stack, and a frame, for the call of a function. -/
theorem members_nearest {c : Catalogue} {registries : List (List PlanStep)} {plans : List BindingPlan}
    (hne : plans ≠ []) (hplans : ∀ p ∈ plans, p.registry < registries.length) {s₀ s : Session}
    (hstart : start c registries plans = .ok s₀) (before : Run KeepsFrames s₀ s) {k : Nat} {w : World}
    (hw : s.seen k = some w) (hattends : w.Attends 0) {v : View}
    (hv : w.StandsFor (w.binding.machine.valueAt (-1)) v) (name : String) :
    w.ReadsNearest v name ∧ w.WritesNearest v name := by
  have hsound := (before.sound (sound_start hne hplans hstart)).seen hw
  have hframed := (before.framed (fun _ _ h ↦ h) (framed_start hstart)).seen hw
  have hcalm := hattends.calm hframed
  exact ⟨hv.readsNearest hcalm hattends.equipped hsound.registrySound rfl name,
    hv.writesNearest hcalm hattends.equipped hsound.registrySound rfl name⟩

/-- Players, and stars, which are players as well. -/
def ensemble : Catalogue where
  types := #[{ name := "Player", size := 16 }, { name := "Star", size := 32, base := some ⟨0, 8⟩ }]
  bases_first := by decide

/-- A number that an object keeps where it lies. -/
def score : Member :=
  .variable (.int .i64) (fun m a ↦ (m.datum? a).getD (.int 0)) (some fun m a d ↦ m.write a (.datum d))

/-- Players can take a bow, and have some fame. Stars have a fame of their own, and what they have for a bow
is a number. -/
def roles : List PlanStep :=
  [.declare 0 [("bow", .function (.routine .nothing)), ("fame", score)] true,
    .declare 1 [("bow", score), ("fame", score)] true]

/-- A session with players and stars. -/
@[irreducible]
def revue : Session :=
  match start ensemble [roles] [{}] with
  | .ok s => s
  | .error _ => {}

theorem start_revue : start ensemble [roles] [{}] = .ok revue := by
  have hok : (match start ensemble [roles] [{}] with
    | .ok _ => true
    | .error _ => false) = true := by decide +kernel
  unfold revue
  generalize start ensemble [roles] [{}] = result at hok ⊢
  cases result with
  | ok s => rfl
  | error f => exact absurd hok (by simp)

/-- The session after a star has been pushed. -/
def debut : Session :=
  revue.move (.happen (.pushPointer (some 0x1000) 1))

theorem run_debut : Run KeepsFrames revue debut := by
  have hnone : revue.world.binding.registry.NoneWeak := by decide +kernel
  exact .step (.refl revue) (allowed_pushPointer hnone _ _) trivial

/-- The star is on top of the stack. -/
theorem presents_debut : debut.world.Presents ⟨⟨0x1000, 1⟩, .pointer 0x1000⟩ 0 := by
  have hfacts : (revue.world.binding.registry.AllLight ∧ revue.world.binding.registry.Unadorned ∧
        revue.world.binding.registry.idOf? 1 = some 1 ∧
        revue.world.binding.registry.isWeak 1 = false ∧
        (revue.world.binding.registry.get? 1).isSome = true ∧
        ∀ target < revue.world.binding.registry.types.size,
          ∀ line ∈ revue.world.binding.registry.views target, line.1 = 1 → line.2 < 0x1000) ∧
      revue.world.weakTable.nextIndex ≤ LightWord.maxIndex ∧
      revue.world.binding.machine.frames.length < revue.world.binding.settings.maxDepth ∧
      (revue.world.binding.machine.stack.size + 4) * stackValueBytes ≤ maxArrayBytes := by
    decide +kernel
  obtain ⟨⟨hlight, hnames, hexported, hstrong, hregistered, hfits⟩, hslot, hdepth, hroom⟩ := hfacts
  have hseen := revue.seen_current
  have hpush := World.presents_pushPointer (a := 0x1000) (n := 0)
    ((sound_start (by decide) (by decide) start_revue).seen hseen)
    ((framed_start start_revue).seen hseen)
    ⟨equipped_start (by decide) (by decide) start_revue hseen, hdepth, hroom⟩ hlight hnames hexported
    hregistered hstrong (Registry.packable_of_types (by decide) (by decide) hfits)
    (unseen_start (by decide) (by decide) start_revue hseen _) hslot
  obtain ⟨⟨⟩, w, houtcome, hpresents, -⟩ := hpush.exists_ok
  have hw : debut.world = w := congrArg Prod.snd houtcome
  exact hw ▸ hpresents

/-- **The fame of the star** is that of a star and not that of a player. -/
theorem members_nearest_star : ∃ (s : Session) (w : World) (t : ScalarType) (get : Memory → Address → Datum)
    (set? : Option (Memory → Address → Datum → Memory)), Run KeepsFrames revue s ∧
    s.seen s.current = some w ∧
    w.binding.registry.Nearest (w.binding.registry.declared "fame") 1 1 0 (.variable t get set?) ∧
    ∀ fuel, w.readTop fuel "fame" = World.reading t (get w.host.memory 0x1000) := by
  have hfacts : (debut.world.binding.registry.declared "fame" 1).isSome ∧
      ((debut.world.binding.registry.declared "fame" 1).bind Member.function?).isNone ∧
      ((debut.world.binding.registry.views 1).findSome? fun v ↦
        debut.world.binding.registry.declaredFunction "fame" v.1).isNone := by
    decide +kernel
  obtain ⟨hsome, hnone, hlacks⟩ := hfacts
  obtain ⟨m, hm⟩ := Option.isSome_iff_exists.1 hsome
  rw [hm, Option.bind_some, Option.isNone_iff_eq_none] at hnone
  obtain ⟨t, get, set?, rfl⟩ := Member.function?_eq_none_iff.1 hnone
  have hnearest := Registry.Nearest.self presents_debut.registrySound hm
  have hreads := (members_nearest (by decide) (by decide) start_revue run_debut debut.seen_current
    presents_debut.toAttends presents_debut.standsFor "fame").1
  exact ⟨debut, debut.world, t, get, set?, run_debut, debut.seen_current, hnearest,
    hreads.variable hnearest (Registry.lacks_iff.2 (Option.isNone_iff_eq_none.1 hlacks)) rfl⟩

/-- **What is nearest is not always what is read**: the star keeps a number under a name under which players
have a function, and what is read is the function. -/
theorem not_reads_nearest : ∃ (s₀ s : Session) (w : World) (t : ScalarType) (get : Memory → Address → Datum)
    (set? : Option (Memory → Address → Datum → Memory)) (c : Callable),
    start ensemble [roles] [{}] = .ok s₀ ∧ Run KeepsFrames s₀ s ∧ s.seen s.current = some w ∧
    w.Attends 0 ∧ w.StandsFor (w.binding.machine.valueAt (-1)) ⟨0x1000, 1⟩ ∧
    w.binding.registry.Nearest (w.binding.registry.declared "bow") 1 1 0 (.variable t get set?) ∧
    ∀ fuel, w.readTop fuel "bow" = .ok (some (.function c)) ∧
      w.readTop fuel "bow" ≠ World.reading t (get w.host.memory 0x1000) := by
  have hfacts : (debut.world.binding.registry.declared "bow" 1).isSome ∧
      ((debut.world.binding.registry.declared "bow" 1).bind Member.function?).isNone ∧
      ((debut.world.binding.registry.views 1).findSome? fun v ↦
        debut.world.binding.registry.declaredFunction "bow" v.1).isSome := by
    decide +kernel
  obtain ⟨hsome, hnone, hfunction⟩ := hfacts
  obtain ⟨m, hm⟩ := Option.isSome_iff_exists.1 hsome
  rw [hm, Option.bind_some, Option.isNone_iff_eq_none] at hnone
  obtain ⟨t, get, set?, rfl⟩ := Member.function?_eq_none_iff.1 hnone
  obtain ⟨c, hc⟩ := Option.isSome_iff_exists.1 hfunction
  have hsound := presents_debut.registrySound
  obtain ⟨owner, offset, hnearest⟩ := hsound.nearest_of_findSome? hc
  have hread (fuel : Nat) := (presents_debut.standsFor.readsNearest presents_debut.calm
    presents_debut.equipped hsound rfl "bow").eclipsed hnearest fuel
  refine ⟨revue, debut, debut.world, t, get, set?, c, start_revue, run_debut, debut.seen_current,
    presents_debut.toAttends, presents_debut.standsFor, .self hsound hm, fun fuel ↦ ⟨hread fuel, ?_⟩⟩
  rw [hread fuel, World.reading]
  cases t.write (get debut.world.host.memory 0x1000) <;> simp

end Session

end ObjectBridge
