import ObjectBridge.Proofs.Registration

/-!
# What the descriptors of a registry say

A plan asks for types and for members, and `Registry.WellFormed` says what becomes of it: which types
are exported and under which numbers and names, how they are linked to their bases and families,
which members they have, and which slots of packed words. Every registry that a plan leads to is well
formed (`Registry.wellFormed_ofPlan`).

A descriptor is put behind the others once all its bases are there. What it is created with, its
`Outline`, is never changed afterwards, apart from the children that it gains; so `Builder.Charted`,
which is about outlines, has to be looked at only where a descriptor is created. Members are followed
by the type they are exported for (`Builder.membersOf`), which makes them independent of the number
that the type has been given. Slots are handed out at the end, and one is refused only when there
are no more (`Slots.Sound.exhausted`).
-/

namespace ObjectBridge

/-! ### What a plan asks for -/

/-- The types that a plan is about, and their bases. -/
def Exports (c : Catalogue) (plan : List PlanStep) (t : TypeKey) : Prop :=
  ∃ s ∈ plan, ∃ u ∈ Builder.stepTypes s, t ∈ (c.lineage u).map Prod.fst

namespace PlanStep

/-- The members that a step defines for a type. -/
def members (t : TypeKey) : PlanStep → List (String × Member)
  | .declare u members _ => if u = t then members else []
  | _ => []

/-- A step ends the export of a type. -/
def closes (t : TypeKey) : PlanStep → Bool
  | .declare u _ close => u = t && close
  | _ => false

end PlanStep

/-- The members that are defined for a type up to the end of its export, in order. -/
def definitions (t : TypeKey) : List PlanStep → List (String × Member)
  | [] => []
  | s :: plan => s.members t ++ if s.closes t then [] else definitions t plan

/-- **A registry is what a plan asks for.** -/
structure Registry.WellFormed (c : Catalogue) (plan : List PlanStep) (r : Registry) : Prop where
  /-- The number of a descriptor is its position. -/
  id_eq : ∀ {i d}, r.get? i = some d → d.id = i
  /-- Every exported type has exactly one descriptor, and no other type has any. -/
  exported : ∀ t, Exports c plan t → ∃! i, ∃ d, r.get? i = some d ∧ d.key = t
  exports : ∀ {i d}, r.get? i = some d → Exports c plan d.key
  idOf : ∀ t i, r.idOf? t = some i ↔ ∃ d, r.get? i = some d ∧ d.key = t
  name : ∀ {i d}, r.get? i = some d → d.name = c.name d.key
  /-- A name stands for the first type that was registered under it. -/
  find : ∀ name, r.find? name = r.types.toList.findIdx? fun d ↦ d.name = name
  /-- A descriptor links to that of its base, which is an earlier one. -/
  super : ∀ {i d}, r.get? i = some d → d.super = (c.declaration d.key).base.bind fun link ↦
    (r.idOf? link.type).map fun id ↦ ⟨id, link.offset⟩
  isSome_super : ∀ {i d}, r.get? i = some d →
    d.super.isSome = (c.declaration d.key).base.isSome
  super_lt : ∀ {i d link}, r.get? i = some d → d.super = some link → link.id < i
  /-- The children of a type are the types that link to it, each once. -/
  mem_children : ∀ {i d}, r.get? i = some d → ∀ j, j ∈ d.children ↔
    ∃ e link, r.get? j = some e ∧ e.super = some link ∧ link.id = i
  nodup_children : ∀ {i d}, r.get? i = some d → d.children.Nodup
  /-- Of the members that are defined for a type, the first of each name counts. -/
  members : ∀ {i d}, r.get? i = some d → ∀ name,
    d.members.find? name = (definitions d.key plan).lookup name
  /-- A type belongs to the weak family of its base, or starts one. -/
  weakRoot : ∀ {i d}, r.get? i = some d → d.weakRoot =
    (d.super.bind fun link ↦ (r.get? link.id).bind (·.weakRoot)).or
      ((c.declaration d.key).anchor.map fun _ ↦ i)
  /-- A slot belongs to the type that has it, or to its weak family. -/
  slot_le : ∀ {i d}, r.get? i = some d → d.lightSlot ≤ maxLightSlots
  slot_owner : ∀ {i d}, r.get? i = some d → d.lightSlot ≠ 0 →
    r.lightSlots[d.lightSlot - 1]? = some (match d.weakRoot with
      | some root => .weakFamily root
      | none => .declared i)
  /-- Different types that are not weak, and different families, have different slots. -/
  slot_inj : ∀ {i j d e}, r.get? i = some d → r.get? j = some e → d.lightSlot ≠ 0 →
    d.lightSlot = e.lightSlot → d.weakRoot = e.weakRoot ∧ (d.weakRoot = none → i = j)
  /-- A type has no slot only when there are no more. -/
  exhausted : ∀ {i d}, r.get? i = some d → d.lightSlot = 0 → r.lightSlots.size = maxLightSlots

/-! ### Lines of bases in the catalogue -/

namespace Catalogue

variable (c : Catalogue)

/-- The base of a type is listed before it. -/
theorem base_lt {t : TypeKey} {link : BaseLink} (h : (c.declaration t).base = some link) :
    link.type < t := by
  cases hd : c.types[t]? with
  | none =>
    rw [declaration, hd] at h
    exact absurd h (by simp [default, instInhabitedDeclaration.default])
  | some d =>
    rw [declaration, hd] at h
    have hall := List.all_eq_true.1 c.bases_first (d, t)
      (List.mem_zipIdx_iff_getElem?.2 (by simpa using hd))
    have hbase : d.base = some link := h
    simpa [hbase] using hall

/-- The types in a line do not depend on where it begins in an object, nor on spare fuel. -/
private theorem lineageFrom_types {m n : Nat} : ∀ {t : TypeKey} (o o' : Nat), t < m → t < n →
    (c.lineageFrom m t o).map Prod.fst = (c.lineageFrom n t o').map Prod.fst := by
  induction m generalizing n with
  | zero => exact fun _ _ h ↦ absurd h (Nat.not_lt_zero _)
  | succ m ih =>
    intro t o o' hm hn
    obtain ⟨n, rfl⟩ := Nat.exists_eq_succ_of_ne_zero (Nat.ne_zero_of_lt hn)
    rw [lineageFrom, lineageFrom, List.map_cons, List.map_cons]
    cases hbase : (c.declaration t).base with
    | none => rfl
    | some link =>
      have hlt := c.base_lt hbase
      simp only
      rw [ih (n := n) (o + link.offset) (o' + link.offset)
        (Nat.lt_of_lt_of_le hlt (Nat.lt_succ_iff.1 hm)) (Nat.lt_of_lt_of_le hlt (Nat.lt_succ_iff.1 hn))]

/-- **The line of a type is the type, and behind it the line of its base.** -/
theorem lineage_types (t : TypeKey) : (c.lineage t).map Prod.fst =
    t :: ((c.declaration t).base.map fun link ↦ (c.lineage link.type).map Prod.fst).getD [] := by
  rw [lineage, lineageFrom, List.map_cons]
  cases hbase : (c.declaration t).base with
  | none => rfl
  | some link =>
    have hlt := c.base_lt hbase
    simp only [Option.map_some, Option.getD_some, lineage]
    rw [c.lineageFrom_types (0 + link.offset) 0 hlt (Nat.lt_succ_self _)]

end Catalogue

/-! ### Outlines -/

/-- What a descriptor is created with, and the children that it gains. -/
structure Outline where
  key : TypeKey
  name : String
  super : Option SuperLink
  weakRoot : Option Nat
  children : List Nat

def Descriptor.outline (d : Descriptor) : Outline :=
  ⟨d.key, d.name, d.super, d.weakRoot, d.children⟩

namespace Builder

variable {c : Catalogue} {b b' : Builder} {t : TypeKey}

/-- The outline of the descriptor with a number. -/
def outline? (b : Builder) (i : Nat) : Option Outline :=
  b.types[i]?.map Descriptor.outline

theorem lt_of_outline? {i : Nat} {o : Outline} (h : b.outline? i = some o) : i < b.types.size := by
  obtain ⟨d, hd, -⟩ := Option.map_eq_some_iff.1 h
  exact (Array.getElem?_eq_some_iff.1 hd).1

/-- The names of the types in the order of their registration. -/
def names (b : Builder) : List String :=
  b.types.toList.map (·.name)

/-- The same types with the same outlines. -/
structure SameOutlines (b b' : Builder) : Prop where
  byKey : b'.byKey = b.byKey
  byName : b'.byName = b.byName
  outline? : ∀ i, b'.outline? i = b.outline? i

theorem SameOutlines.refl (b : Builder) : SameOutlines b b :=
  ⟨rfl, rfl, fun _ ↦ rfl⟩

theorem SameOutlines.trans {b'' : Builder} (h : SameOutlines b b') (h' : SameOutlines b' b'') :
    SameOutlines b b'' :=
  ⟨h'.byKey.trans h.byKey, h'.byName.trans h.byName,
    fun i ↦ (h'.outline? i).trans (h.outline? i)⟩

theorem names_getElem? (b : Builder) (i : Nat) : b.names[i]? = (b.outline? i).map (·.name) := by
  rw [names, List.getElem?_map, Array.getElem?_toList, outline?, Option.map_map]
  rfl

theorem SameOutlines.names (h : SameOutlines b b') : b'.names = b.names := by
  refine List.ext_getElem? fun i ↦ ?_
  rw [names_getElem?, names_getElem?, h.outline?]

theorem sameOutlines_modify (b : Builder) (j : Nat) {f : Descriptor → Descriptor}
    (hf : ∀ d, (f d).outline = d.outline) :
    SameOutlines b { b with types := b.types.modify j f } := by
  refine ⟨rfl, rfl, fun i ↦ ?_⟩
  rw [Builder.outline?, Builder.outline?, Array.getElem?_modify]
  split
  · cases b.types[i]? <;> simp [hf]
  · rfl

theorem sameOutlines_addMember (b : Builder) (id : Nat) (entry : String × Member) :
    SameOutlines b (b.addMember id entry) := by
  rw [addMember]
  split
  · split
    · exact ⟨rfl, rfl, fun _ ↦ rfl⟩
    · exact sameOutlines_modify b id fun _ ↦ rfl
  · exact .refl b

theorem sameOutlines_addMembers (b : Builder) (id : Nat) (members : List (String × Member)) :
    SameOutlines b (members.foldl (fun b entry ↦ b.addMember id entry) b) := by
  induction members generalizing b with
  | nil => exact .refl b
  | cons entry members ih => exact (sameOutlines_addMember b id entry).trans (ih _)

/-! ### Creating a descriptor -/

/-- The outline of a new descriptor. -/
def newOutline (b : Builder) (c : Catalogue) (t : TypeKey) : Outline :=
  (b.describe (c.declaration t) t (b.baseLink? c t)).outline

/-- The descriptors after one has been created: the base has one child more, and the new one stands
behind the others. -/
theorem getElem?_create (b : Builder) (c : Catalogue) (t : TypeKey) (i : Nat) :
    (b.create c t).types[i]? =
      if i = b.types.size then some (b.describe (c.declaration t) t (b.baseLink? c t))
      else b.types[i]?.map fun d ↦ { d with
        children := if (b.baseLink? c t).map (·.id) = some i then d.children ++ [b.types.size]
          else d.children } := by
  have htypes : (b.claimName (c.declaration t).name).types = b.types := by
    rw [claimName]
    split <;> rfl
  rw [create, ← baseLink?]
  cases hlink : b.baseLink? c t with
  | none =>
    simp only [htypes, Array.getElem?_push, Option.map_none]
    split
    · rfl
    · cases b.types[i]? <;> rfl
  | some link =>
    simp only [htypes, Array.getElem?_push, Array.size_modify, Option.map_some,
      Array.getElem?_modify, Option.some.injEq]
    split
    · rfl
    · split <;> cases b.types[i]? <;> rfl

theorem outline?_create (b : Builder) (c : Catalogue) (t : TypeKey) (i : Nat) :
    (b.create c t).outline? i =
      if i = b.types.size then some (b.newOutline c t)
      else (b.outline? i).map fun o ↦ { o with
        children := if (b.baseLink? c t).map (·.id) = some i then o.children ++ [b.types.size]
          else o.children } := by
  rw [outline?, outline?, getElem?_create]
  split
  · rfl
  · cases b.types[i]? <;> rfl

theorem names_create (b : Builder) (c : Catalogue) (t : TypeKey) :
    (b.create c t).names = b.names ++ [c.name t] := by
  refine List.ext_getElem? fun i ↦ ?_
  have hlength : b.names.length = b.types.size := by simp [names]
  rw [names_getElem?, outline?_create]
  by_cases hi : i = b.types.size
  · rw [if_pos hi, List.getElem?_append_right (by omega), hi, hlength, Nat.sub_self]
    rfl
  · rw [if_neg hi]
    rcases Nat.lt_or_gt_of_ne hi with hlt | hgt
    · rw [List.getElem?_append_left (by omega), names_getElem?, Option.map_map]
      rfl
    · have hnone : b.outline? i = none := by
        rw [outline?, Array.getElem?_eq_none (by omega)]
        rfl
      rw [hnone, List.getElem?_eq_none (by simp; omega)]
      rfl

/-! ### What outlines say of one another -/

/-- **The outlines of the types registered so far fit the catalogue and one another.** -/
structure Charted (c : Catalogue) (b : Builder) : Prop where
  byKey : ∀ {t i}, b.byKey.find? t = some i ↔ ∃ o, b.outline? i = some o ∧ o.key = t
  byName : ∀ name, b.byName.find? name = b.names.findIdx? (· = name)
  name : ∀ {i o}, b.outline? i = some o → o.name = c.name o.key
  super : ∀ {i o}, b.outline? i = some o → o.super = b.baseLink? c o.key
  based : ∀ {i o link}, b.outline? i = some o → (c.declaration o.key).base = some link →
    (b.byKey.find? link.type).isSome = true
  weakRoot : ∀ {i o}, b.outline? i = some o → o.weakRoot =
    (o.super.bind fun link ↦ (b.outline? link.id).bind (·.weakRoot)).or
      ((c.declaration o.key).anchor.map fun _ ↦ i)
  mem_children : ∀ {i o}, b.outline? i = some o → ∀ j, j ∈ o.children ↔
    ∃ o', b.outline? j = some o' ∧ o'.super.map (·.id) = some i
  nodup_children : ∀ {i o}, b.outline? i = some o → o.children.Nodup

theorem charted_empty (c : Catalogue) : Charted c {} where
  byKey := by simp [outline?, Dict.empty, Dict.find?]
  byName name := by simp [names, Dict.empty, Dict.find?]
  name h := by simp [outline?] at h
  super h := by simp [outline?] at h
  based h := by simp [outline?] at h
  weakRoot h := by simp [outline?] at h
  mem_children h := by simp [outline?] at h
  nodup_children h := by simp [outline?] at h

theorem Charted.same (hb : Charted c b) (h : SameOutlines b b') : Charted c b' where
  byKey := by
    intro t i
    rw [h.byKey, h.outline?]
    exact hb.byKey
  byName name := by
    rw [h.byName, h.names]
    exact hb.byName name
  name ho := hb.name (h.outline? _ ▸ ho)
  super ho := by
    rw [baseLink?, h.byKey]
    exact hb.super (h.outline? _ ▸ ho)
  based ho hbase := by
    rw [h.byKey]
    exact hb.based (h.outline? _ ▸ ho) hbase
  weakRoot ho := by
    simp only [h.outline?] at ho ⊢
    exact hb.weakRoot ho
  mem_children ho j := by
    simp only [h.outline?] at ho ⊢
    exact hb.mem_children ho j
  nodup_children ho := hb.nodup_children (h.outline? _ ▸ ho)

/-- The base of a type is there before the type is registered. -/
def Grounded (c : Catalogue) (b : Builder) (t : TypeKey) : Prop :=
  ∀ link, (c.declaration t).base = some link → (b.byKey.find? link.type).isSome = true

/-- A type that is registered keeps its number when another one is. -/
theorem baseLink?_create (hnew : b.byKey.find? t = none) {u : TypeKey} (hu : Grounded c b u) :
    (b.create c t).baseLink? c u = b.baseLink? c u := by
  rw [baseLink?, baseLink?, byKey_create]
  cases hbase : (c.declaration u).base with
  | none => rfl
  | some link =>
    have hne : link.type ≠ t := by
      rintro rfl
      have hsome := hu link hbase
      rw [hnew] at hsome
      exact absurd hsome (by simp)
    rw [Option.bind_some, Option.bind_some, Dict.find?_insert_of_ne _ _ hne]

/-- The number under which a name is found after the next type has claimed its name. -/
theorem find?_claimName (b : Builder) (name other : String) :
    (b.claimName name).byName.find? other = (b.byName.find? other).or
      (if name = other then some b.types.size else none) := by
  rw [claimName]
  split
  · rename_i hcontains
    show b.byName.find? other = _
    obtain ⟨i, hi⟩ := Option.isSome_iff_exists.1 hcontains
    by_cases hname : name = other
    · rw [← hname, hi]
      rfl
    · rw [if_neg hname, Option.or_none]
  · rename_i hcontains
    rw [Dict.find?_insert]
    by_cases hname : other = name
    · subst hname
      have hnone : b.byName.find? other = none := by
        simpa [Dict.contains] using hcontains
      rw [if_pos rfl, if_pos rfl, hnone]
      rfl
    · rw [if_neg hname, if_neg fun h ↦ hname h.symm, Option.or_none]

/-- An outline after a descriptor has been created is the new one, or one that was there, perhaps with
one child more. -/
theorem outline?_create_cases {i : Nat} {o : Outline} (h : (b.create c t).outline? i = some o) :
    i = b.types.size ∧ o = b.newOutline c t ∨ ∃ o₀, b.outline? i = some o₀ ∧ o = { o₀ with
      children := if (b.baseLink? c t).map (·.id) = some i then o₀.children ++ [b.types.size]
        else o₀.children } := by
  rw [outline?_create] at h
  split at h
  · rename_i hi
    exact Or.inl ⟨hi, (Option.some.inj h).symm⟩
  · obtain ⟨o₀, ho₀, rfl⟩ := Option.map_eq_some_iff.1 h
    exact Or.inr ⟨o₀, ho₀, rfl⟩

/-- All but the children of an outline stays as it is. -/
theorem exists_outline?_create {i : Nat} {o : Outline} (h : b.outline? i = some o) :
    ∃ children, (b.create c t).outline? i = some { o with children := children } := by
  rw [outline?_create, if_neg (Nat.ne_of_lt (lt_of_outline? h)), h, Option.map_some]
  exact ⟨_, rfl⟩

theorem outline?_create_self (b : Builder) (c : Catalogue) (t : TypeKey) :
    (b.create c t).outline? b.types.size = some (b.newOutline c t) := by
  rw [outline?_create, if_pos rfl]

/-- A number is that of a new type or of an old one. -/
theorem Charted.byKey_create (hb : Charted c b) (hnew : b.byKey.find? t = none) {u : TypeKey}
    {i : Nat} : (b.create c t).byKey.find? u = some i ↔
      ∃ o, (b.create c t).outline? i = some o ∧ o.key = u := by
  have hold : ∀ {i o}, b.outline? i = some o → o.key ≠ t := by
    rintro i o h rfl
    exact absurd (hnew.symm.trans (hb.byKey.2 ⟨o, h, rfl⟩)) (by simp)
  rw [Builder.byKey_create, Dict.find?_insert]
  constructor
  · intro h
    split at h
    · rename_i hu
      obtain rfl := Option.some.inj h
      exact ⟨_, outline?_create_self b c t, hu.symm⟩
    · obtain ⟨o, ho, hkey⟩ := hb.byKey.1 h
      obtain ⟨children, ho'⟩ := exists_outline?_create (c := c) (t := t) ho
      exact ⟨_, ho', hkey⟩
  · rintro ⟨o, ho, rfl⟩
    rcases outline?_create_cases ho with ⟨rfl, rfl⟩ | ⟨o₀, ho₀, rfl⟩
    · exact if_pos rfl
    · rw [if_neg (hold ho₀)]
      exact hb.byKey.2 ⟨o₀, ho₀, rfl⟩

/-- A name stands for the first type of the name also after another type has been registered. -/
theorem Charted.byName_create (hb : Charted c b) (t : TypeKey) (name : String) :
    (b.create c t).byName.find? name = (b.create c t).names.findIdx? (· = name) := by
  have hlength : b.names.length = b.types.size := by simp [names]
  rw [names_create, List.findIdx?_append, hlength, ← hb.byName]
  show ((b.claimName (c.declaration t).name).byName.find? name) = _
  rw [find?_claimName]
  by_cases hname : (c.declaration t).name = name
  · simp [Catalogue.name, hname]
  · simp [Catalogue.name, hname]

/-- A type belongs to the weak family of its base, or starts one. -/
theorem weakRoot_newOutline (hs : b.Sound) (c : Catalogue) (t : TypeKey) :
    (b.newOutline c t).weakRoot =
      ((b.baseLink? c t).bind fun link ↦ (b.outline? link.id).bind (·.weakRoot)).or
        ((c.declaration t).anchor.map fun _ ↦ b.types.size) := by
  show (b.describe (c.declaration t) t (b.baseLink? c t)).stem.weakRoot = _
  rw [describe_stem]
  have hroot : ∀ i, (b.outline? i).bind (·.weakRoot) = (b.stem? i).bind (·.weakRoot) := by
    intro i
    rw [outline?, stem?]
    cases b.types[i]? <;> rfl
  cases hlink : b.baseLink? c t with
  | none => rfl
  | some link =>
    simp only [Option.bind_some, hroot]
    cases hbase : b.stem? link.id with
    | none => rfl
    | some base =>
      -- a base that is not weak has no anchor that the type could inherit
      have hsome := hs.isSome_anchor hbase
      cases ha : base.anchor <;> cases hw : base.weakRoot <;> simp_all

theorem Charted.weakRoot_create (hb : Charted c b) (hs : b.Sound) {i : Nat} {o : Outline}
    (ho : (b.create c t).outline? i = some o) : o.weakRoot =
      (o.super.bind fun link ↦ ((b.create c t).outline? link.id).bind (·.weakRoot)).or
        ((c.declaration o.key).anchor.map fun _ ↦ i) := by
  have hfamily : ∀ {u : TypeKey}, ((b.baseLink? c u).bind fun link ↦
      ((b.create c t).outline? link.id).bind (·.weakRoot)) =
        (b.baseLink? c u).bind fun link ↦ (b.outline? link.id).bind (·.weakRoot) := by
    intro u
    cases hlink : b.baseLink? c u with
    | none => rfl
    | some link =>
      have hlt := hs.lt_of_baseLink? hlink
      rw [Option.bind_some, Option.bind_some, outline?_create, if_neg (Nat.ne_of_lt hlt)]
      cases b.outline? link.id <;> rfl
  rcases outline?_create_cases ho with ⟨rfl, rfl⟩ | ⟨o₀, ho₀, rfl⟩
  · rw [weakRoot_newOutline hs]
    show _ = ((b.baseLink? c t).bind _).or _
    rw [hfamily]
    rfl
  · have hroot := hb.weakRoot ho₀
    rw [hb.super ho₀, ← hfamily, ← hb.super ho₀] at hroot
    exact hroot

/-- The children of a type are still the types that link to it. -/
theorem Charted.mem_children_create (hb : Charted c b) (hs : b.Sound) {i : Nat} {o : Outline}
    (ho : (b.create c t).outline? i = some o) (j : Nat) : j ∈ o.children ↔
      ∃ o', (b.create c t).outline? j = some o' ∧ o'.super.map (·.id) = some i := by
  have hlinks : ∀ {o'}, b.outline? j = some o' → (o'.super.map (·.id) = some i ↔
      ∃ o'', (b.create c t).outline? j = some o'' ∧ o''.super.map (·.id) = some i) := by
    intro o' ho'
    obtain ⟨children, hcreated⟩ := exists_outline?_create (c := c) (t := t) ho'
    constructor
    · exact fun h ↦ ⟨_, hcreated, h⟩
    · rintro ⟨o'', ho'', h⟩
      obtain rfl := Option.some.inj (hcreated.symm.trans ho'')
      exact h
  have hnew : j = b.types.size → ((b.baseLink? c t).map (·.id) = some i ↔
      ∃ o'', (b.create c t).outline? j = some o'' ∧ o''.super.map (·.id) = some i) := by
    rintro rfl
    rw [outline?_create_self]
    simp only [Option.some.injEq, exists_eq_left']
    rfl
  have hmem : ∀ {i' o₀}, b.outline? i' = some o₀ → j ∈ o₀.children → j < b.types.size := by
    intro i' o₀ ho₀ hj
    obtain ⟨o', ho', -⟩ := (hb.mem_children ho₀ j).1 hj
    exact lt_of_outline? ho'
  rcases outline?_create_cases ho with ⟨rfl, rfl⟩ | ⟨o₀, ho₀, rfl⟩
  · -- the new type has no children, and nothing links to it
    refine iff_of_false List.not_mem_nil ?_
    rintro ⟨o', ho', hlink⟩
    obtain ⟨link, hlink, hid⟩ := Option.map_eq_some_iff.1 hlink
    have hlt : link.id < b.types.size := by
      rcases outline?_create_cases ho' with ⟨-, rfl⟩ | ⟨o₁, ho₁, rfl⟩
      · exact hs.lt_of_baseLink? hlink
      · exact hs.lt_of_baseLink? ((hb.super ho₁).symm.trans hlink)
    exact Nat.ne_of_lt hlt hid
  · by_cases hj : j = b.types.size
    · rw [← hnew hj]
      split
      · rename_i hlink
        simp [hj, hlink]
      · rename_i hlink
        exact iff_of_false (fun h ↦ Nat.ne_of_lt (hmem ho₀ h) hj) hlink
    · have hchildren : (j ∈ if (b.baseLink? c t).map (·.id) = some i then
          o₀.children ++ [b.types.size] else o₀.children) ↔ j ∈ o₀.children := by
        split <;> simp [hj]
      rw [hchildren, hb.mem_children ho₀]
      constructor
      · rintro ⟨o', ho', h⟩
        exact (hlinks ho').1 h
      · rintro ⟨o'', ho'', h⟩
        rcases outline?_create_cases ho'' with ⟨hj', -⟩ | ⟨o', ho', -⟩
        · exact absurd hj' hj
        · exact ⟨o', ho', (hlinks ho').2 ⟨o'', ho'', h⟩⟩

/-- **A new descriptor fits those that are there.** -/
theorem Charted.create (hb : Charted c b) (hs : b.Sound) (hnew : b.byKey.find? t = none)
    (hground : Grounded c b t) : Charted c (b.create c t) where
  byKey := hb.byKey_create hnew
  byName := hb.byName_create t
  name {i o} h := by
    rcases outline?_create_cases h with ⟨-, rfl⟩ | ⟨o₀, ho₀, rfl⟩
    · rfl
    · exact (hb.name ho₀ :)
  super {i o} h := by
    rcases outline?_create_cases h with ⟨-, rfl⟩ | ⟨o₀, ho₀, rfl⟩
    · exact (baseLink?_create hnew hground).symm
    · exact (hb.super ho₀).trans
        (baseLink?_create hnew fun link hbase ↦ hb.based ho₀ hbase).symm
  based {i o link} h hbase := by
    have hmore : ∀ {u}, (b.byKey.find? u).isSome = true →
        ((b.create c t).byKey.find? u).isSome = true := by
      intro u hu
      rw [Builder.byKey_create, Dict.find?_insert]
      split
      · rfl
      · exact hu
    rcases outline?_create_cases h with ⟨-, rfl⟩ | ⟨o₀, ho₀, rfl⟩
    · exact hmore (hground link hbase)
    · exact hmore (hb.based ho₀ hbase)
  weakRoot := hb.weakRoot_create hs
  mem_children := hb.mem_children_create hs
  nodup_children {i o} h := by
    rcases outline?_create_cases h with ⟨-, rfl⟩ | ⟨o₀, ho₀, rfl⟩
    · exact List.nodup_nil
    · have hnodup := hb.nodup_children ho₀
      show (if _ then _ else _ : List Nat).Nodup
      split
      · refine List.nodup_append.2 ⟨hnodup, List.nodup_singleton _, fun j hj k hk ↦ ?_⟩
        obtain rfl := List.mem_singleton.1 hk
        obtain ⟨o', ho', -⟩ := (hb.mem_children ho₀ j).1 hj
        exact Nat.ne_of_lt (lt_of_outline? ho')
      · exact hnodup

/-! ### Registering a type with its bases -/

/-- **The bases of a type are registered before it.** -/
theorem register_eq (b : Builder) (c : Catalogue) (t : TypeKey) : b.register c t =
    ensure c (((c.declaration t).base.map fun link ↦ b.register c link.type).getD b) t := by
  rw [register, c.lineage_types, List.reverse_cons, List.foldl_append]
  cases (c.declaration t).base <;> rfl

/-- The types that are registered after a type and its bases have been. -/
theorem isSome_find?_register (b : Builder) (c : Catalogue) (t u : TypeKey) :
    ((b.register c t).byKey.find? u).isSome = true ↔
      (b.byKey.find? u).isSome = true ∨ u ∈ (c.lineage t).map Prod.fst := by
  have hensure : ∀ (b : Builder) (t : TypeKey), ((ensure c b t).byKey.find? u).isSome = true ↔
      (b.byKey.find? u).isSome = true ∨ u = t := by
    intro b t
    rw [ensure]
    split
    · rename_i hcontains
      refine ⟨Or.inl, fun h ↦ h.elim (fun h ↦ h) ?_⟩
      rintro rfl
      exact hcontains
    · rw [Builder.byKey_create, Dict.find?_insert]
      split
      · rename_i hu
        exact iff_of_true rfl (Or.inr hu)
      · rename_i hu
        simp [hu]
  rw [register, ← List.mem_reverse]
  generalize ((c.lineage t).map Prod.fst).reverse = line
  induction line generalizing b with
  | nil => simp
  | cons t line ih =>
    refine (ih (ensure c b t)).trans ?_
    rw [hensure, List.mem_cons, or_assoc]

/-- **The outlines still fit after a type has been registered.** -/
theorem Charted.register (hb : Charted c b) (hs : b.Sound) (t : TypeKey) :
    Charted c (b.register c t) := by
  -- By induction along the line of bases: a base has a smaller number in the catalogue.
  induction t using Nat.strongRecOn with
  | ind t ih =>
    have hensure : ∀ b₁ : Builder, Charted c b₁ → b₁.Sound → Grounded c b₁ t →
        Charted c (ensure c b₁ t) := by
      intro b₁ hb₁ hs₁ hground
      rw [ensure]
      split
      · exact hb₁
      · rename_i hnew
        exact hb₁.create hs₁ (by simpa [Dict.contains] using hnew) hground
    rw [register_eq]
    cases hbase : (c.declaration t).base with
    | none => exact hensure b hb hs fun link h ↦ absurd (hbase.symm.trans h) (by simp)
    | some link =>
      refine hensure _ (ih _ (c.base_lt hbase)) (hs.register c link.type) fun link' h ↦ ?_
      obtain rfl := Option.some.inj (hbase.symm.trans h)
      refine (isSome_find?_register b c link.type link.type).2 (Or.inr ?_)
      rw [c.lineage_types]
      exact List.mem_cons_self

/-! ### The members of a type -/

/-- What has been exported for a type: its members, and whether more are accepted. A type that is not
registered is like one that has just been. -/
def membersOf (b : Builder) (t : TypeKey) : Dict String Member × Bool :=
  (((b.byKey.find? t).bind (b.types[·]?)).map fun d ↦ (d.members, d.finalized)).getD (.empty, false)

theorem Charted.exists_type (hb : Charted c b) {i : Nat} (h : b.byKey.find? t = some i) :
    ∃ d, b.types[i]? = some d ∧ d.key = t := by
  obtain ⟨o, ho, hkey⟩ := hb.byKey.1 h
  obtain ⟨d, hd, rfl⟩ := Option.map_eq_some_iff.1 ho
  exact ⟨d, hd, hkey⟩

theorem membersOf_eq {i : Nat} (h : b.byKey.find? t = some i) {d : Descriptor} (hd : b.types[i]? = some d) :
    b.membersOf t = (d.members, d.finalized) := by
  rw [membersOf, h, Option.bind_some, hd]
  rfl

/-- Changing the descriptor of a type leaves the other types alone. -/
theorem Charted.membersOf_modify (hb : Charted c b) {i : Nat} (hi : b.byKey.find? t = some i)
    (f : Descriptor → Descriptor) (u : TypeKey) :
    ({ b with types := b.types.modify i f } : Builder).membersOf u =
      if u = t then (b.types[i]?.map fun d ↦ ((f d).members, (f d).finalized)).getD (.empty, false)
      else b.membersOf u := by
  rw [membersOf, membersOf]
  by_cases hu : u = t
  · subst hu
    rw [if_pos rfl, hi]
    simp only [Option.bind_some, Array.getElem?_modify, if_pos, Option.map_map]
    rfl
  · rw [if_neg hu]
    cases hj : b.byKey.find? u with
    | none => rfl
    | some j =>
      have hne : i ≠ j := by
        rintro rfl
        obtain ⟨d, hd, rfl⟩ := hb.exists_type hi
        obtain ⟨d', hd', rfl⟩ := hb.exists_type hj
        exact hu (congrArg Descriptor.key (Option.some.inj (hd'.symm.trans hd)))
      simp only [Option.bind_some, Array.getElem?_modify, if_neg hne]

/-- Registering a type exports no members of any. -/
theorem Charted.membersOf_create (hb : Charted c b) (hnew : b.byKey.find? t = none) (u : TypeKey) :
    (b.create c t).membersOf u = b.membersOf u := by
  rw [membersOf, membersOf, Builder.byKey_create, Dict.find?_insert]
  by_cases hu : u = t
  · rw [if_pos hu, hu, hnew, Option.bind_some, getElem?_create, if_pos rfl]
    rfl
  · rw [if_neg hu]
    cases hj : b.byKey.find? u with
    | none => rfl
    | some j =>
      obtain ⟨d, hd, -⟩ := hb.exists_type hj
      have hne := Nat.ne_of_lt (Array.getElem?_eq_some_iff.1 hd).1
      rw [Option.bind_some, Option.bind_some, getElem?_create, if_neg hne, hd]
      rfl

theorem Charted.membersOf_register (hb : Charted c b) (hs : b.Sound) (t u : TypeKey) :
    (b.register c t).membersOf u = b.membersOf u := by
  induction t using Nat.strongRecOn with
  | ind t ih =>
    have hensure : ∀ b₁ : Builder, Charted c b₁ → (ensure c b₁ t).membersOf u = b₁.membersOf u := by
      intro b₁ hb₁
      rw [ensure]
      split
      · rfl
      · rename_i hnew
        exact hb₁.membersOf_create (by simpa [Dict.contains] using hnew) u
    rw [register_eq]
    cases hbase : (c.declaration t).base with
    | none => exact hensure b hb
    | some link => exact (hensure _ (hb.register hs link.type)).trans (ih _ (c.base_lt hbase))

theorem lookup_singleton (entry : String × Member) (name : String) :
    [entry].lookup name = if name = entry.1 then some entry.2 else none := by
  obtain ⟨other, m⟩ := entry
  by_cases hname : name = other
  · simp [hname]
  · simp [List.lookup_cons, beq_eq_false_iff_ne.2 hname, hname]

/-- **The first member of a name counts.** -/
theorem Charted.membersOf_addMember (hb : Charted c b) {i : Nat} (hi : b.byKey.find? t = some i)
    (entry : String × Member) (u : TypeKey) (name : String) :
    ((b.addMember i entry).membersOf u).2 = (b.membersOf u).2 ∧
      ((b.addMember i entry).membersOf u).1.find? name = ((b.membersOf u).1.find? name).or
        (if u = t then [entry].lookup name else none) := by
  obtain ⟨d, hd, -⟩ := hb.exists_type hi
  have hmembers := membersOf_eq hi hd
  rw [addMember, hd, lookup_singleton]
  simp only
  split
  · rename_i hcontains
    refine ⟨rfl, ?_⟩
    show (b.membersOf u).1.find? name = _
    split
    · rename_i hu
      obtain ⟨m, hm⟩ := Option.isSome_iff_exists.1 hcontains
      rw [hu, hmembers]
      split
      · rename_i hname
        rw [hname, hm]
        rfl
      · rw [Option.or_none]
    · rw [Option.or_none]
  · rename_i hcontains
    rw [hb.membersOf_modify hi]
    split
    · rename_i hu
      rw [hu, hmembers, hd]
      refine ⟨rfl, ?_⟩
      show (d.members.insert entry.1 entry.2).find? name = _
      rw [Dict.find?_insert]
      split
      · rename_i hname
        have hnone : d.members.find? name = none := by
          rw [hname]
          simpa [Dict.contains] using hcontains
        rw [hnone]
        rfl
      · rw [Option.or_none]
    · exact ⟨rfl, (Option.or_none).symm⟩

theorem Charted.membersOf_addMembers (hb : Charted c b) {i : Nat} (hi : b.byKey.find? t = some i)
    (entries : List (String × Member)) (u : TypeKey) (name : String) :
    ((entries.foldl (fun b entry ↦ b.addMember i entry) b).membersOf u).2 = (b.membersOf u).2 ∧
      ((entries.foldl (fun b entry ↦ b.addMember i entry) b).membersOf u).1.find? name =
        ((b.membersOf u).1.find? name).or (if u = t then entries.lookup name else none) := by
  induction entries generalizing b with
  | nil => simp
  | cons entry entries ih =>
    have hsame := sameOutlines_addMember b i entry
    obtain ⟨hclosed, hfind⟩ := hb.membersOf_addMember hi entry u name
    obtain ⟨hclosed', hfind'⟩ := ih (hb.same hsame) (by rw [hsame.byKey]; exact hi)
    refine ⟨hclosed'.trans hclosed, ?_⟩
    rw [List.foldl_cons, hfind', hfind, Option.or_assoc]
    congr 1
    split
    · rw [lookup_singleton, List.lookup_cons]
      by_cases hname : name = entry.1
      · simp [hname]
      · simp [beq_eq_false_iff_ne.2 hname, hname]
    · rfl

/-! ### Following a plan -/

/-- Exporting members changes no outlines once the type is registered. -/
theorem sameOutlines_declare (b : Builder) (c : Catalogue) (t : TypeKey)
    (members : List (String × Member)) (close : Bool) :
    SameOutlines (b.register c t) (b.declare c t members close) := by
  rw [declare]
  simp only
  split
  · split
    · exact ⟨rfl, rfl, fun _ ↦ rfl⟩
    · have hm := sameOutlines_addMembers (b.register c t) ((b.register c t).idOf t) members
      split
      · exact hm.trans (sameOutlines_modify _ _ fun _ ↦ rfl)
      · exact hm
  · exact .refl _

/-- Finalizing a type ends its export, and no other. -/
theorem Charted.membersOf_finalize (hb : Charted c b) {i : Nat} (hi : b.byKey.find? t = some i)
    (u : TypeKey) : (b.finalize i).membersOf u =
      ((b.membersOf u).1, (b.membersOf u).2 || u = t) := by
  obtain ⟨d, hd, -⟩ := hb.exists_type hi
  rw [finalize, hb.membersOf_modify hi]
  split
  · rename_i hu
    rw [hu, membersOf_eq hi hd, hd]
    simp
  · rename_i hu
    simp [hu]

/-- **Exporting members of a type** adds them to those that there are, unless the export of the type
has ended. -/
theorem Charted.membersOf_declare (hb : Charted c b) (hs : b.Sound) (t : TypeKey)
    (members : List (String × Member)) (close : Bool) (u : TypeKey) (name : String) :
    ((b.declare c t members close).membersOf u).2 = ((b.membersOf u).2 || (u = t && close)) ∧
      ((b.declare c t members close).membersOf u).1.find? name =
        ((b.membersOf u).1.find? name).or
          (if u = t ∧ (b.membersOf u).2 = false then members.lookup name else none) := by
  have hr := hb.register hs t
  obtain ⟨i, hi⟩ : ∃ i, (b.register c t).byKey.find? t = some i := by
    refine Option.isSome_iff_exists.1 ((isSome_find?_register b c t t).2 (Or.inr ?_))
    rw [c.lineage_types]
    exact List.mem_cons_self
  obtain ⟨d, hd, -⟩ := hr.exists_type hi
  have hmembers := hb.membersOf_register hs t
  have hclosed : (b.membersOf t).2 = d.finalized := by rw [← hmembers, membersOf_eq hi hd]
  have hid : (b.register c t).idOf t = i := by rw [idOf, hi, Option.getD_some]
  rw [declare]
  simp only [hid, hd]
  split
  · rename_i hfinal
    show ((b.register c t).membersOf u).2 = _ ∧ ((b.register c t).membersOf u).1.find? name = _
    rw [hmembers]
    by_cases hu : u = t
    · simp [hu, hclosed, hfinal]
    · simp [hu]
  · rename_i hopen
    obtain ⟨hsame, hfind⟩ := hr.membersOf_addMembers hi members u name
    have houtlines := sameOutlines_addMembers (b.register c t) i members
    rw [hmembers] at hsame hfind
    -- only the type itself is looked at whether its export has ended, and it has not
    have hcondition : (u = t ∧ (b.membersOf u).2 = false) ↔ u = t := by
      constructor
      · exact fun h ↦ h.1
      · rintro rfl
        exact ⟨rfl, hclosed.trans (Bool.eq_false_iff.2 hopen)⟩
    rw [if_congr hcondition rfl rfl]
    split
    · rename_i hclose
      rw [(hr.same houtlines).membersOf_finalize (by rw [houtlines.byKey]; exact hi)]
      exact ⟨by simp [hsame, hclose], hfind⟩
    · rename_i hclose
      exact ⟨by simp [hsame, hclose], hfind⟩

theorem Charted.fill (hb : Charted c b) (hs : b.Sound) (types : List TypeKey) :
    Charted c (types.foldl (fun b t ↦ b.register c t) b) ∧
      ∀ u, (types.foldl (fun b t ↦ b.register c t) b).membersOf u = b.membersOf u := by
  induction types generalizing b with
  | nil => exact ⟨hb, fun _ ↦ rfl⟩
  | cons t types ih =>
    obtain ⟨hcharted, hmembers⟩ := ih (hb.register hs t) (hs.register c t)
    exact ⟨hcharted, fun u ↦ (hmembers u).trans (hb.membersOf_register hs t u)⟩

/-- **The outlines still fit after a step of a plan.** -/
theorem Charted.step (hb : Charted c b) (hs : b.Sound) (s : PlanStep) : Charted c (b.step c s) := by
  cases s with
  | create t => exact hb.register hs t
  | declare t members close =>
    exact (hb.register hs t).same (sameOutlines_declare b c t members close)
  | fill types => exact (hb.fill hs types).1

/-- **What a step exports for a type**, unless the export of the type has ended. -/
theorem Charted.membersOf_step (hb : Charted c b) (hs : b.Sound) (s : PlanStep) (u : TypeKey)
    (name : String) :
    ((b.step c s).membersOf u).2 = ((b.membersOf u).2 || s.closes u) ∧
      ((b.step c s).membersOf u).1.find? name = ((b.membersOf u).1.find? name).or
        (if (b.membersOf u).2 then none else (s.members u).lookup name) := by
  cases s with
  | create t =>
    show ((b.register c t).membersOf u).2 = _ ∧ ((b.register c t).membersOf u).1.find? name = _
    rw [hb.membersOf_register hs]
    simp [PlanStep.closes, PlanStep.members]
  | declare t members close =>
    obtain ⟨hclosed, hfind⟩ := hb.membersOf_declare hs t members close u name
    refine ⟨hclosed.trans ?_, hfind.trans ?_⟩
    · simp [PlanStep.closes, eq_comm]
    · rw [PlanStep.members]
      by_cases hu : t = u
      · subst hu
        cases hm : (b.membersOf t).2 <;> simp
      · have hu' : ¬ u = t := fun h ↦ hu h.symm
        simp [hu, hu']
  | fill types =>
    show ((types.foldl (fun b t ↦ b.register c t) b).membersOf u).2 = _ ∧
      ((types.foldl (fun b t ↦ b.register c t) b).membersOf u).1.find? name = _
    rw [(hb.fill hs types).2]
    simp [PlanStep.closes, PlanStep.members]

/-- The types that are registered after a step. -/
theorem isSome_find?_step (b : Builder) (c : Catalogue) (s : PlanStep) (u : TypeKey) :
    ((b.step c s).byKey.find? u).isSome = true ↔ (b.byKey.find? u).isSome = true ∨
      ∃ t ∈ stepTypes s, u ∈ (c.lineage t).map Prod.fst := by
  cases s with
  | create t =>
    refine (isSome_find?_register b c t u).trans (or_congr_right ?_)
    simp [stepTypes]
  | declare t members close =>
    show ((b.declare c t members close).byKey.find? u).isSome = true ↔ _
    rw [(sameOutlines_declare b c t members close).byKey]
    refine (isSome_find?_register b c t u).trans (or_congr_right ?_)
    simp [stepTypes]
  | fill types =>
    show ((types.foldl (fun b t ↦ b.register c t) b).byKey.find? u).isSome = true ↔ _
    induction types generalizing b with
    | nil => simp [stepTypes]
    | cons t types ih =>
      refine (ih (b.register c t)).trans ?_
      rw [isSome_find?_register]
      simp [stepTypes, or_assoc]

/-- The builder after a plan has been followed from a builder on. -/
def followed (c : Catalogue) (b : Builder) (plan : List PlanStep) : Builder :=
  plan.foldl (fun b s ↦ b.step c s) b

theorem runPlan_eq (c : Catalogue) (plan : List PlanStep) :
    (runPlan c plan).1 = followed c {} plan := by
  have hfold : ∀ (state : Builder × List PlanNote),
      (plan.foldl (notedStep c) state).1 = followed c state.1 plan := by
    induction plan with
    | nil => exact fun _ ↦ rfl
    | cons s plan ih => exact fun state ↦ ih (notedStep c state s)
  exact hfold ({}, [])

/-- **What a plan makes of the types**: their outlines fit, the types of the plan are there with their
bases, and each has the members that are defined for it before its export ends. -/
theorem Charted.followed (hb : Charted c b) (hs : b.Sound) (plan : List PlanStep) :
    Charted c (followed c b plan) ∧
      (∀ u, ((followed c b plan).byKey.find? u).isSome = true ↔
        (b.byKey.find? u).isSome = true ∨ Exports c plan u) ∧
      ∀ u name, ((followed c b plan).membersOf u).1.find? name =
        ((b.membersOf u).1.find? name).or
          (if (b.membersOf u).2 then none else (definitions u plan).lookup name) := by
  induction plan generalizing b with
  | nil =>
    refine ⟨hb, fun u ↦ ?_, fun u name ↦ ?_⟩
    · simp [Builder.followed, Exports]
    · simp [Builder.followed, definitions]
  | cons s plan ih =>
    obtain ⟨hcharted, hkeys, hmembers⟩ := ih (hb.step hs s) (hs.step c s)
    refine ⟨hcharted, fun u ↦ (hkeys u).trans ?_, fun u name ↦ (hmembers u name).trans ?_⟩
    · rw [isSome_find?_step]
      simp [Exports, or_assoc]
    · obtain ⟨hclosed, hfind⟩ := hb.membersOf_step hs s u name
      rw [hclosed, hfind, Option.or_assoc, definitions]
      congr 1
      cases (b.membersOf u).2 with
      | true => rfl
      | false =>
        simp only [Bool.false_or, Bool.false_eq_true, if_false]
        cases s.closes u <;> simp [List.lookup_append]

/-! ### Ending registration -/

/-- What a plan determines of a descriptor, before slots are handed out. -/
def content (d : Descriptor) : Outline × Dict String Member :=
  (d.outline, d.members)

/-- Settling a type changes neither outlines nor members. -/
theorem settle_same (state : Builder × Slots) (i : Nat) :
    (settle state i).1.byKey = state.1.byKey ∧ (settle state i).1.byName = state.1.byName ∧
      ∀ j : Nat, (settle state i).1.types[j]?.map content = state.1.types[j]?.map content := by
  obtain ⟨b, s⟩ := state
  cases hd : b.types[i]? with
  | none =>
    have heq : settle (b, s) i = (b, s) := by simp only [settle, hd]
    rw [heq]
    exact ⟨rfl, rfl, fun _ ↦ rfl⟩
  | some d =>
    refine ⟨?_, ?_, fun j ↦ ?_⟩
    · simp only [settle, hd]
      cases (s.assign d).1 <;> rfl
    · simp only [settle, hd]
      cases (s.assign d).1 <;> rfl
    · rw [(settle_eq hd).2, Array.getElem?_modify]
      split
      · cases b.types[j]? <;> rfl
      · rfl

theorem foldl_settle_same (state : Builder × Slots) (l : List Nat) :
    (l.foldl settle state).1.byKey = state.1.byKey ∧
      (l.foldl settle state).1.byName = state.1.byName ∧
      ∀ j : Nat,
        (l.foldl settle state).1.types[j]?.map content = state.1.types[j]?.map content := by
  induction l generalizing state with
  | nil => exact ⟨rfl, rfl, fun _ ↦ rfl⟩
  | cons i l ih =>
    obtain ⟨hkey, hname, htypes⟩ := settle_same state i
    obtain ⟨hkey', hname', htypes'⟩ := ih (settle state i)
    exact ⟨hkey'.trans hkey, hname'.trans hname, fun j ↦ (htypes' j).trans (htypes j)⟩

theorem Slots.Extends.size_le {s s' : Slots} (h : s.Extends s') :
    s.owners.size ≤ s'.owners.size := by
  by_contra hlt
  have hlast := h (Array.getElem?_eq_getElem (i := s'.owners.size) (by omega))
  rw [Array.getElem?_eq_none (Nat.le_refl _)] at hlast
  exact absurd hlast (by simp)

/-- **A slot is refused only when there are no more.** -/
theorem Slots.size_of_assign_eq_none {s : Slots} {d : Descriptor} (h : (s.assign d).1 = none) :
    maxLightSlots ≤ s.owners.size := by
  have hnext : ∀ owner, (s.next owner).1 = none → maxLightSlots ≤ s.owners.size := by
    intro owner h
    rw [Slots.next] at h
    split at h
    · assumption
    · exact absurd h (by simp)
  rw [Slots.assign] at h
  split at h
  · exact hnext _ h
  · split at h
    · exact absurd h (by simp)
    · rename_i root _ _ _
      split at h
      · exact absurd h (by simp)
      · rename_i hrefused
        exact hnext (.weakFamily root) (congrArg Prod.fst hrefused)

/-- Of the types that have been settled, one has no slot only when there are no more. -/
theorem exhausted_settle {state : Builder × Slots} (hs : Settled state) (n : Nat) :
    ∀ i < n, ∀ d, ((List.range n).foldl settle state).1.types[i]? = some d → d.lightSlot = 0 →
      maxLightSlots ≤ ((List.range n).foldl settle state).2.owners.size := by
  induction n with
  | zero => exact fun i hi ↦ absurd hi (Nat.not_lt_zero i)
  | succ n ih =>
    have hstate := (hs.foldl (List.range n)).1
    intro i hi d hd hzero
    rw [List.range_succ, List.foldl_append, List.foldl_cons, List.foldl_nil] at hd ⊢
    generalize (List.range n).foldl settle state = st at *
    obtain ⟨b, s⟩ := st
    cases hn : b.types[n]? with
    | none =>
      have heq : settle (b, s) n = (b, s) := by simp only [settle, hn]
      rw [heq] at hd ⊢
      refine ih i (Nat.lt_of_le_of_ne (Nat.lt_succ_iff.1 hi) ?_) d hd hzero
      rintro rfl
      exact absurd (hn.symm.trans hd) (by simp)
    | some d₀ =>
      obtain ⟨hslots, htypes⟩ := settle_eq (s := s) hn
      obtain ⟨-, hext, hslot⟩ := hstate.slots.assign d₀
      rw [hslots]
      refine Nat.le_trans ?_ hext.size_le
      rw [htypes, Array.getElem?_modify] at hd
      split at hd
      · rename_i hin
        subst hin
        rw [hn] at hd
        obtain rfl := Option.some.inj hd
        cases hassigned : (s.assign d₀).1 with
        | none => exact Slots.size_of_assign_eq_none hassigned
        | some slot =>
          simp only [hassigned, Option.getD_some] at hzero
          exact absurd hzero (hslot slot hassigned).1
      · rename_i hin
        refine ih i (Nat.lt_of_le_of_ne (Nat.lt_succ_iff.1 hi) fun h ↦ hin h.symm) d hd hzero

/-- Ending registration changes neither outlines nor members. -/
theorem build_same (b : Builder) : b.build.byKey = b.byKey ∧ b.build.byName = b.byName ∧
    ∀ j, (b.build.get? j).map content = b.types[j]?.map content :=
  foldl_settle_same (b, {}) _

theorem outline?_build {i : Nat} {d : Descriptor} (h : b.build.get? i = some d) :
    b.outline? i = some d.outline := by
  have hcontent := (b.build_same.2.2 i).symm.trans (congrArg (Option.map content) h)
  obtain ⟨d₀, hd₀, heq⟩ := Option.map_eq_some_iff.1 hcontent
  rw [outline?, hd₀]
  exact congrArg (some ∘ Prod.fst) heq

theorem exists_get?_build {i : Nat} {o : Outline} (h : b.outline? i = some o) :
    ∃ d, b.build.get? i = some d ∧ d.outline = o := by
  obtain ⟨d₀, hd₀, rfl⟩ := Option.map_eq_some_iff.1 h
  have hcontent := (b.build_same.2.2 i).trans (congrArg (Option.map content) hd₀)
  obtain ⟨d, hd, heq⟩ := Option.map_eq_some_iff.1 hcontent
  exact ⟨d, hd, congrArg Prod.fst heq⟩

theorem Charted.members_build (hb : Charted c b) {i : Nat} {d : Descriptor}
    (h : b.build.get? i = some d) : (b.membersOf d.key).1 = d.members := by
  have hcontent := (b.build_same.2.2 i).symm.trans (congrArg (Option.map content) h)
  obtain ⟨d₀, hd₀, heq⟩ := Option.map_eq_some_iff.1 hcontent
  have hfind : b.byKey.find? d.key = some i := hb.byKey.2 ⟨_, outline?_build h, rfl⟩
  rw [membersOf_eq hfind hd₀]
  exact congrArg Prod.snd heq

theorem Charted.idOf?_build (hb : Charted c b) (t : TypeKey) (i : Nat) :
    b.build.idOf? t = some i ↔ ∃ d, b.build.get? i = some d ∧ d.key = t := by
  rw [Registry.idOf?, b.build_same.1, hb.byKey]
  constructor
  · rintro ⟨o, ho, rfl⟩
    obtain ⟨d, hd, rfl⟩ := exists_get?_build ho
    exact ⟨d, hd, rfl⟩
  · rintro ⟨d, hd, rfl⟩
    exact ⟨_, outline?_build hd, rfl⟩

theorem Charted.find?_build (hb : Charted c b) (name : String) :
    b.build.find? name = b.build.types.toList.findIdx? fun d ↦ d.name = name := by
  have hnames : b.build.types.toList.map (·.name) = b.names := by
    refine List.ext_getElem? fun i ↦ ?_
    have hcontent := congrArg (Option.map fun p ↦ p.1.name) (b.build_same.2.2 i)
    simp only [Option.map_map] at hcontent
    rw [names, List.getElem?_map, List.getElem?_map, Array.getElem?_toList, Array.getElem?_toList]
    exact hcontent
  rw [Registry.find?, b.build_same.2.1, hb.byName, ← hnames, List.findIdx?_map]
  rfl

theorem Charted.super_build (hb : Charted c b) {i : Nat} {d : Descriptor}
    (h : b.build.get? i = some d) :
    d.super = ((c.declaration d.key).base.bind fun link ↦
        (b.build.idOf? link.type).map fun id ↦ ⟨id, link.offset⟩) ∧
      d.super.isSome = (c.declaration d.key).base.isSome := by
  have ho := outline?_build h
  have hsuper : d.super = b.baseLink? c d.key := hb.super ho
  have hkeys : ∀ t, b.build.idOf? t = b.byKey.find? t := fun t ↦ by
    rw [Registry.idOf?, b.build_same.1]
  refine ⟨hsuper.trans ?_, ?_⟩
  · simp only [hkeys]
    rfl
  · rw [hsuper, baseLink?]
    cases hbase : (c.declaration d.key).base with
    | none => rfl
    | some link =>
      obtain ⟨id, hid⟩ := Option.isSome_iff_exists.1 (hb.based ho hbase)
      rw [Option.bind_some, hid]
      rfl

/-- The family of a base is found by the number of the base. -/
theorem weakRoot_build (b : Builder) (i : Nat) :
    (b.build.get? i).bind (·.weakRoot) = (b.outline? i).bind (·.weakRoot) := by
  have hcontent := congrArg (Option.map Prod.fst) (b.build_same.2.2 i)
  simp only [Option.map_map] at hcontent
  calc (b.build.get? i).bind (·.weakRoot)
      = ((b.build.get? i).map (Prod.fst ∘ content)).bind (·.weakRoot) := by
        cases b.build.get? i <;> rfl
    _ = (b.types[i]?.map (Prod.fst ∘ content)).bind (·.weakRoot) := by rw [hcontent]
    _ = (b.outline? i).bind (·.weakRoot) := rfl

end Builder

/-- **Every registration leads to a well-formed registry**: whatever is registered and exported, in
whatever order, types and members are found as the plan asks for them. -/
theorem Registry.wellFormed_ofPlan (c : Catalogue) (plan : List PlanStep) :
    (Registry.ofPlan c plan).WellFormed c plan := by
  have hsound := Registry.sound_ofPlan c plan
  have hs := Builder.sound_runPlan c plan
  obtain ⟨hb, hkeys, hmembers⟩ := (Builder.charted_empty c).followed Builder.sound_empty plan
  rw [← Builder.runPlan_eq] at hb hkeys hmembers
  have hr : Registry.ofPlan c plan = (Builder.runPlan c plan).1.build := rfl
  generalize (Builder.runPlan c plan).1 = b at hs hb hkeys hmembers hr
  rw [hr] at hsound ⊢
  have hlt : ∀ {i d}, b.build.get? i = some d → i < b.types.size := fun h ↦
    Builder.lt_of_outline? (Builder.outline?_build h)
  have hregistered : ∀ t, (b.byKey.find? t).isSome = true ↔ Exports c plan t := fun t ↦
    (hkeys t).trans (or_iff_right (by simp [Dict.empty, Dict.find?]))
  refine
    { id_eq := hsound.id_eq
      exported := fun t ht ↦ ?_
      exports := fun {i d} h ↦ ?_
      idOf := hb.idOf?_build
      name := fun {i d} h ↦ hb.name (Builder.outline?_build h)
      find := hb.find?_build
      super := fun h ↦ (hb.super_build h).1
      isSome_super := fun h ↦ (hb.super_build h).2
      super_lt := hsound.super_lt
      mem_children := fun {i d} h j ↦ ?_
      nodup_children := fun h ↦ hb.nodup_children (Builder.outline?_build h)
      members := fun {i d} h name ↦ ?_
      weakRoot := fun {i d} h ↦ ?_
      slot_le := hsound.slot_le
      slot_owner := fun {i d} h hne ↦ ?_
      slot_inj := fun {i j d e} hd he hne heq ↦ ?_
      exhausted := fun {i d} h hzero ↦ ?_ }
  · obtain ⟨i, hi⟩ := Option.isSome_iff_exists.1 ((hregistered t).2 ht)
    have hidOf : b.build.idOf? t = some i := by rw [Registry.idOf?, b.build_same.1, hi]
    refine ⟨i, (hb.idOf?_build t i).1 hidOf, fun j hj ↦ ?_⟩
    exact Option.some.inj (((hb.idOf?_build t j).2 hj).symm.trans hidOf)
  · have hfind : b.byKey.find? d.key = some i := hb.byKey.2 ⟨_, Builder.outline?_build h, rfl⟩
    refine (hregistered d.key).1 ?_
    rw [hfind]
    rfl
  · refine (hb.mem_children (Builder.outline?_build h) j).trans ?_
    constructor
    · rintro ⟨o, ho, hlink⟩
      obtain ⟨e, he, rfl⟩ := Builder.exists_get?_build ho
      obtain ⟨link, hlink, hid⟩ := Option.map_eq_some_iff.1 hlink
      exact ⟨e, link, he, hlink, hid⟩
    · rintro ⟨e, link, he, hlink, hid⟩
      refine ⟨_, Builder.outline?_build he, ?_⟩
      show e.super.map (·.id) = some i
      rw [hlink, ← hid]
      rfl
  · rw [← hb.members_build h, hmembers]
    rfl
  · refine (hb.weakRoot (Builder.outline?_build h)).trans ?_
    show (d.super.bind _).or _ = _
    simp only [Builder.weakRoot_build]
    rfl
  · refine (hsound.slot_owner h hne).trans ?_
    cases hroot : d.weakRoot <;> simp [Descriptor.slotOwner, hroot, hsound.id_eq h]
  · have howner := hsound.slot_owner hd hne
    have howner' := hsound.slot_owner he (heq ▸ hne)
    rw [← heq, howner] at howner'
    have hsame : d.slotOwner = e.slotOwner := Option.some.inj howner'
    rw [Descriptor.slotOwner, Descriptor.slotOwner, hsound.id_eq hd, hsound.id_eq he] at hsame
    cases hw : d.weakRoot <;> cases hw' : e.weakRoot <;> simp_all
  · have hsettled : Builder.Settled (b, {}) :=
      ⟨Builder.Slots.sound_empty, fun {i d} h hne ↦ absurd (hs.unslotted i d h) hne⟩
    refine Nat.le_antisymm (hsettled.foldl _).1.slots.size_le ?_
    exact Builder.exhausted_settle hsettled _ i (hlt h) d h hzero

end ObjectBridge
