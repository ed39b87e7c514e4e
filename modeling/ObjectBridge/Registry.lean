import ObjectBridge.Callable

/-!
# The registry of exported types

A registry holds a descriptor for every exported type; the number of a descriptor is its position.
A descriptor links to the descriptor of the direct base and knows at which offset the base is
embedded, so the types under which one object can be seen form a line, `Registry.views`: the type
itself and then its bases, each with its offset. Casts are questions about that line:

* `isBaseOf`: the target is in the line;
* `toSuper?`: the address moves up by the offset of the target;
* `root`: the end of the line, which is the same for every view of an object and so identifies it;
* `toDerived?`: the address moves down by the offset, provided the object does not tell that it is
  of another type.
-/

namespace ObjectBridge

/-- Who owns a slot of packed words: one type, or all types of a weak family. -/
inductive LightSlot where
  | declared (id : Nat)
  | weakFamily (root : Nat)
  deriving DecidableEq, Inhabited

/-- The link of a descriptor to its direct base. -/
structure SuperLink where
  id : Nat
  offset : Nat
  deriving DecidableEq, Inhabited

/-- What the registry knows of an exported type. -/
structure Descriptor where
  id : Nat
  name : String
  /-- The type of the host that is exported. -/
  key : TypeKey
  super : Option SuperLink
  /-- The types that link to this one, in the order of their registration. -/
  children : List Nat := []
  /-- The type that starts the weak family of this type. -/
  weakRoot : Option Nat := none
  /-- Where the anchor is, on the type that starts the weak family. -/
  anchor : Option Nat := none
  /-- Where an object tells its actual type. -/
  actualType : Option Nat := none
  members : Dict String Member := .empty
  /-- The slot of packed words, 0 for none. -/
  lightSlot : Nat := 0
  finalized : Bool := false

instance : Inhabited Descriptor := ⟨⟨0, "", 0, none, [], none, none, none, .empty, 0, false⟩⟩

/-- The descriptors of the exported types, after registration has ended. -/
structure Registry where
  types : Array Descriptor := #[]
  byKey : Dict TypeKey Nat := .empty
  byName : Dict String Nat := .empty
  /-- The owners of the slots 1, 2, … of packed words. -/
  lightSlots : Array LightSlot := #[]

namespace Descriptor

/-- Objects of the type are weak. -/
def isWeak (d : Descriptor) : Bool :=
  d.weakRoot.isSome

/-- The text that shows a descriptor to the host. -/
def debugText (d : Descriptor) : String :=
  let id (n : Nat) := "DescId(" ++ n.repr ++ ")"
  let optional : Option Nat → String
    | some n => "Some(" ++ id n ++ ")"
    | none => "None"
  "TypeDescriptor \x7b id: " ++ id d.id ++ ", name: \"" ++ d.name ++ "\", super_id: " ++
    optional (d.super.map (·.id)) ++ ", weak_root: " ++ optional d.weakRoot ++
    ", light_slot: " ++ d.lightSlot.repr ++ " \x7d"

end Descriptor

namespace Registry

instance : Inhabited Registry := ⟨{}⟩

/-- The descriptor with a number. -/
def get? (r : Registry) (id : Nat) : Option Descriptor :=
  r.types[id]?

/-- The number of an exported type of the host. -/
def idOf? (r : Registry) (t : TypeKey) : Option Nat :=
  r.byKey.find? t

/-- The first type exported under a name. -/
def find? (r : Registry) (name : String) : Option Nat :=
  r.byName.find? name

/-- The name of a type, a question mark for a number that is no type. -/
def nameOf (r : Registry) (id : Nat) : String :=
  match r.get? id with
  | some d => d.name
  | none => "?"

/-- Objects of the type are weak. -/
def isWeak (r : Registry) (id : Nat) : Bool :=
  match r.get? id with
  | some d => d.isWeak
  | none => false

/-- The line of bases of `id`, embedded at `offset`, for at most `fuel` types. -/
def viewsFrom (r : Registry) : Nat → Nat → Nat → List (Nat × Nat)
  | 0, _, _ => []
  | fuel + 1, id, offset =>
    (id, offset) ::
      match (r.get? id).bind (·.super) with
      | some link => viewsFrom r fuel link.id (offset + link.offset)
      | none => []

/-- The types under which an object of type `id` can be seen: the type and its bases, nearest first,
each with the offset at which it is embedded. -/
def views (r : Registry) (id : Nat) : List (Nat × Nat) :=
  r.viewsFrom (r.types.size + 1) id 0

/-- `base` is `derived` or one of its bases. -/
def isBaseOf (r : Registry) (base derived : Nat) : Bool :=
  (r.views derived).any fun v ↦ v.1 = base

/-- The address at which an object of type `v.type` is a `target`. -/
def toSuper? (r : Registry) (v : View) (target : Nat) : Option Address :=
  ((r.views v.type).lookup target).map v.address.up

/-- The topmost base of an object, which identifies it. -/
def root (r : Registry) (v : View) : View :=
  match (r.views v.type).getLast? with
  | some (id, offset) => ⟨v.address.up offset, id⟩
  | none => v

/-- What the object seen as `v` tells about its actual type: nothing, or a type of the host. -/
def actualType? (r : Registry) (m : Memory) (v : View) : Option TypeKey :=
  match (r.get? v.type).bind (·.actualType) with
  | some offset => m.actualType? (v.address.up offset)
  | none => none

/-- The object seen as `v` does not tell that it is anything but a `target`. -/
def admits (r : Registry) (m : Memory) (v : View) (target : Nat) : Bool :=
  match r.actualType? m v with
  | some key =>
    match r.idOf? key with
    | some actual => r.isBaseOf target actual
    | none => false
  | none => true

/-- The address of the `target` in which the object seen as `v` is embedded. -/
def toDerived? (r : Registry) (m : Memory) (v : View) (target : Nat) : Option Address :=
  if (r.get? v.type).isSome && r.admits m v target then
    ((r.views target).lookup v.type).map v.address.down
  else none

/-- The member that a name stands for on a type, with the nearest type that declares it. -/
def findMember? (r : Registry) (id : Nat) (name : String) : Option (Nat × Member) :=
  (r.views id).findSome? fun v ↦
    ((r.get? v.1).bind fun d ↦ d.members.find? name).map fun m ↦ (v.1, m)

end Registry

end ObjectBridge
