import ObjectBridge.Action
import ObjectBridge.Host
import ObjectBridge.Report

/-!
# Making and showing objects

A new object has a value in every field of its type and of its bases: the one it is given, or the
initial value of the field's type. An integer that does not fit its field keeps its low bits. An
object that tells its actual type tells the type it was made as, unless it is told otherwise.
-/

namespace ObjectBridge

/-- The value that a field of type `t` takes on from a datum. -/
def ScalarType.adapt (t : ScalarType) (d : Datum) : Datum :=
  match t, d with
  | .int k, .int n => .int (k.wrap n)
  | _, d => d

/-- What a field starts with. -/
def Field.start (f : Field) (given : List (String × Initial)) : Datum :=
  match given.lookup f.name with
  | some (.datum d) => f.type.adapt d
  | _ => f.type.initial

/-- The type that a new object of type `t` tells as its own. -/
def toldType (t : TypeKey) (given : List (String × Initial)) : Option TypeKey :=
  let told? := given.findSome? fun entry ↦
    match entry.2 with
    | .actualType told => some told
    | .datum _ => none
  told?.getD (some t)

namespace Host

/-- Give the fields of a new object at `a` their values. -/
def fillFields (h : Host) (t : TypeKey) (a : Address) (given : List (String × Initial)) : Host :=
  let memory := (h.catalogue.fields t).foldl
    (fun (m : Memory) f ↦ m.write (a.up f.offset) (.datum (f.start given))) h.memory
  let memory := match h.catalogue.actualTypeOffset? t with
    | some offset => memory.write (a.up offset) (.actualType (toldType t given))
    | none => memory
  { h with memory := memory }

/-- Make an object. -/
def create (h : Host) (t : TypeKey) (given : List (String × Initial)) : Address × Host :=
  let (a, h) := h.allocate t
  (a, h.fillFields t a given)

/-- Make an object under the care of one owner, in a block of its own; even an object without data
has an address of its own there. -/
def createShared (h : Host) (s : Sharing) (t : TypeKey) (given : List (String × Initial)) :
    Nat × Host :=
  let (a, memory) := h.memory.allocate ((h.catalogue.declaration t).size + 16)
  ({ h with memory := memory }.fillFields t a given).share s t a

/-- What an object at `a` shows of itself when it is seen as a `t`. -/
def exhibit (h : Host) (t : TypeKey) (a : Address) : Report :=
  .fields <| (h.catalogue.declaration t).exhibits.map fun e ↦
    match e with
    | .scalar label offset => (label, .datum ((h.memory.datum? (a.up offset)).getD .absent))
    | .number label offset =>
      match h.memory.datum? (a.up offset) with
      | some (.int n) => (label, .count n)
      | _ => (label, .nothing)
    | .mark label => (label, .flag true)

/-- The content of the container at `a`, of a kind. -/
def contents (h : Host) (kind : ContainerKind) (a : Address) : Report :=
  match kind, h.memory.container? a with
  | .map shape _ _, some (.map bindings) =>
    .bindings (shape = .ordered) <| (shape.keys bindings).map fun k ↦
      (.datum k, .datum ((bindings.find? k).getD .absent))
  | _, some (.list items) => .list (items.map .datum)
  | _, _ => .nothing

end Host

end ObjectBridge
