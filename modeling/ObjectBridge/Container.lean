import ObjectBridge.Dict
import ObjectBridge.Scalar

/-!
# Host containers

Containers of the host hold scalars. A list container comes in three shapes, a map container in
two; the shape and the scalar types together are the kind of a container, and two containers of
different kinds are never taken for each other. The contents of the three list shapes are lists,
those of the two map shapes finite maps: the shapes differ in the primitive operations they offer
and in the order in which they list their keys.
-/

namespace ObjectBridge

/-- The shapes of list containers. -/
inductive ListShape where
  | vector
  | deque
  | linked
  deriving DecidableEq, Inhabited

/-- The shapes of map containers. -/
inductive MapShape where
  | hashed
  | ordered
  deriving DecidableEq, Inhabited

/-- The script visible name of a list shape. -/
def ListShape.name : ListShape → String
  | vector => "Vec"
  | deque => "VecDeque"
  | linked => "LinkedList"

/-- The script visible name of a map shape. -/
def MapShape.name : MapShape → String
  | hashed => "HashMap"
  | ordered => "BTreeMap"

/-- The kind of a container: its shape and the types of its elements. -/
inductive ContainerKind where
  | list (shape : ListShape) (item : ScalarType)
  | map (shape : MapShape) (key value : ScalarType)
  deriving DecidableEq, Inhabited

/-- The script visible name of a container kind; the element types are not part of it. -/
def ContainerKind.name : ContainerKind → String
  | list shape _ => shape.name
  | map shape _ _ => shape.name

/-- The contents of a container. -/
inductive Container where
  | list (items : List Datum)
  | map (bindings : Dict Datum Datum)

/-- The keys of a map in the order in which the shape lists them. -/
def MapShape.keys (shape : MapShape) (m : Dict Datum Datum) : List Datum :=
  match shape with
  | hashed => m.keys
  | ordered => m.keys.mergeSort Datum.le

/-- The empty container of a kind. -/
def ContainerKind.empty : ContainerKind → Container
  | list _ _ => .list []
  | map _ _ _ => .map .empty

/-! ### Primitive operations of the list shapes

Each shape has its own way of changing a list. A primitive that is given a slot outside its bounds
answers `none`: the host stops the program there. The linked shape overwrites by walking, and
inserts and removes by splitting the list in two. -/

namespace ListShape

/-- Overwrite the item in slot `i`. -/
def set? (shape : ListShape) (i : Nat) (x : Datum) (xs : List Datum) : Option (List Datum) :=
  match shape with
  | vector | deque => if i < xs.length then some (xs.set i x) else none
  | linked => some (xs.set i x)

/-- Make room in slot `i` and put an item there. -/
def insert? (shape : ListShape) (i : Nat) (x : Datum) (xs : List Datum) : Option (List Datum) :=
  match shape with
  | vector | deque => if i ≤ xs.length then some (xs.insertIdx i x) else none
  | linked => if i ≤ xs.length then some (xs.take i ++ [x] ++ xs.drop i) else none

/-- Take the item out of slot `i`. -/
def remove? (shape : ListShape) (i : Nat) (xs : List Datum) : Option (List Datum) :=
  match shape with
  | vector => if i < xs.length then some (xs.eraseIdx i) else none
  | deque => some (xs.eraseIdx i)
  | linked => if i ≤ xs.length then some (xs.take i ++ (xs.drop i).tail) else none

end ListShape

/-- A change of a list by one primitive operation. -/
inductive ListEdit where
  | set (slot : Nat) (x : Datum)
  | insert (slot : Nat) (x : Datum)
  | remove (slot : Nat)

/-- What a shape makes of a change. -/
def ListShape.edit? (shape : ListShape) : ListEdit → List Datum → Option (List Datum)
  | .set slot x => shape.set? slot x
  | .insert slot x => shape.insert? slot x
  | .remove slot => shape.remove? slot

end ObjectBridge
