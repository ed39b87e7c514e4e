import ObjectBridge.Registry

/-!
# Registration

Types are registered before any script runs. Registering a type registers its bases first, and
registering it again changes nothing. Members are added one by one; what is already there wins, and
the clash is noted and registration carries on. `Builder.build` ends registration: it finalizes
every type and hands out the slots of packed words, one for each type and one for all the types of
a weak family, until there are no more.
-/

namespace ObjectBridge

/-- A clash met during registration. -/
inductive Conflict where
  | duplicateMember (typeName member : String)
  | reexport (typeName : String)
  | duplicateName (typeName : String)
  | slotsExhausted (typeName : String)
  deriving DecidableEq, Inhabited

/-- The wording of a clash. -/
def Conflict.message : Conflict → String
  | duplicateMember typeName member =>
    "type:[" ++ typeName ++ "] export same member:[" ++ member ++ "]"
  | reexport typeName => "type:[" ++ typeName ++ "] is already finalized"
  | duplicateName typeName =>
    "type name [" ++ typeName ++ "] is already used by another type"
  | slotsExhausted typeName => "no light userdata slot left for type:[" ++ typeName ++ "]"

/-- The slots that packed words have room for; slot 0 marks words that are not packed. -/
def maxLightSlots : Nat :=
  255

/-- The types registered so far. -/
structure Builder where
  types : Array Descriptor := #[]
  byKey : Dict TypeKey Nat := .empty
  byName : Dict String Nat := .empty
  conflicts : Array Conflict := #[]

namespace Builder

instance : Inhabited Builder := ⟨{}⟩

/-- Note a clash. -/
def conflict (b : Builder) (c : Conflict) : Builder :=
  { b with conflicts := b.conflicts.push c }

/-- The descriptor that a type gets when its base, if any, is registered as `super`. -/
def describe (b : Builder) (d : Declaration) (t : TypeKey) (super : Option SuperLink) :
    Descriptor :=
  let id := b.types.size
  let base := super.bind fun link ↦ b.types[link.id]?
  let anchor := (base.bind (·.anchor)).or d.anchor
  let weakRoot := (base.bind (·.weakRoot)).or (anchor.map fun _ ↦ id)
  { id := id, name := d.name, key := t, super := super, weakRoot := weakRoot, anchor := anchor,
    actualType := d.actualType }

/-- Register the name of the next type; the first type of a name keeps it. -/
def claimName (b : Builder) (name : String) : Builder :=
  if b.byName.contains name then b.conflict (.duplicateName name)
  else { b with byName := b.byName.insert name b.types.size }

/-- Register a type whose base is registered. -/
def create (b : Builder) (c : Catalogue) (t : TypeKey) : Builder :=
  let d := c.declaration t
  let super := d.base.bind fun link ↦ (b.byKey.find? link.type).map fun id ↦ ⟨id, link.offset⟩
  let descriptor := b.describe d t super
  let b := b.claimName d.name
  let types := match super with
    | some link => b.types.modify link.id fun base ↦
        { base with children := base.children ++ [descriptor.id] }
    | none => b.types
  { b with
    types := types.push descriptor
    byKey := b.byKey.insert t descriptor.id }

/-- Register a type whose base is registered, unless it is registered itself. -/
def ensure (c : Catalogue) (b : Builder) (t : TypeKey) : Builder :=
  if b.byKey.contains t then b else b.create c t

/-- Register a type, its bases first. -/
def register (b : Builder) (c : Catalogue) (t : TypeKey) : Builder :=
  ((c.lineage t).map Prod.fst).reverse.foldl (ensure c) b

/-- The number of a registered type. -/
def idOf (b : Builder) (t : TypeKey) : Nat :=
  (b.byKey.find? t).getD 0

/-- Add a member to a type; a name that is taken keeps its member. -/
def addMember (b : Builder) (id : Nat) (entry : String × Member) : Builder :=
  match b.types[id]? with
  | some d =>
    if d.members.contains entry.1 then b.conflict (.duplicateMember d.name entry.1)
    else { b with types := b.types.modify id fun d ↦
        { d with members := d.members.insert entry.1 entry.2 } }
  | none => b

/-- No more members of a type are accepted. -/
def finalize (b : Builder) (id : Nat) : Builder :=
  { b with types := b.types.modify id fun d ↦ { d with finalized := true } }

/-- Register a type and export members of it; `close` ends the export. A type that is finalized
accepts nothing. -/
def declare (b : Builder) (c : Catalogue) (t : TypeKey) (members : List (String × Member))
    (close : Bool) : Builder :=
  let b := b.register c t
  let id := b.idOf t
  match b.types[id]? with
  | some d =>
    if d.finalized then b.conflict (.reexport (c.name t))
    else
      let b := members.foldl (fun b entry ↦ b.addMember id entry) b
      if close then b.finalize id else b
  | none => b

/-- The slots handed out so far: their owners, the slots of the weak families, and the types that
got none. -/
structure Slots where
  owners : Array LightSlot := #[]
  families : Dict Nat Nat := .empty

/-- The next slot, for an owner, if there is one left. -/
def Slots.next (s : Slots) (owner : LightSlot) : Option Nat × Slots :=
  if maxLightSlots ≤ s.owners.size then (none, s)
  else (some (s.owners.size + 1), { s with owners := s.owners.push owner })

/-- The slot of a type. The types of a weak family share theirs. -/
def Slots.assign (s : Slots) (d : Descriptor) : Option Nat × Slots :=
  match d.weakRoot with
  | none => s.next (.declared d.id)
  | some root =>
    match s.families.find? root with
    | some slot => (some slot, s)
    | none =>
      match s.next (.weakFamily root) with
      | (some slot, s) => (some slot, { s with families := s.families.insert root slot })
      | (none, s) => (none, s)

/-- Finalize a type and give it its slot. -/
def settle (state : Builder × Slots) (i : Nat) : Builder × Slots :=
  let (b, s) := state
  match b.types[i]? with
  | some d =>
    let (slot, s) := s.assign d
    let b := match slot with
      | some _ => b
      | none => b.conflict (.slotsExhausted d.name)
    ({ b with types := b.types.modify i fun d ↦
        { d with lightSlot := slot.getD d.lightSlot, finalized := true } }, s)
  | none => (b, s)

/-- End registration. -/
def build (b : Builder) : Registry :=
  let (b, s) := (List.range b.types.size).foldl settle (b, {})
  { types := b.types, byKey := b.byKey, byName := b.byName, lightSlots := s.owners }

end Builder

end ObjectBridge
