import ObjectBridge.Callable

/-!
# Userdata

A full userdata of the bridge carries a record: what it exposes, how it relates to the host object,
where the object is, and what it owns. A record that has been discarded never leads to its object
again. Other userdata carry the cursor of a walk over a map, or an integer that the host put there
itself, which the bridge never looks into.
-/

namespace ObjectBridge

/-- What a record exposes. -/
inductive Exposed where
  | declared (type : Nat)
  | container (kind : ContainerKind)
  deriving DecidableEq, Inhabited

/-- How a record relates to the host object. -/
inductive Ownership where
  /-- The object belongs to the host. -/
  | borrowed
  /-- The record is one of several owners. -/
  | shared
  /-- The object belongs to the record. -/
  | owned
  deriving DecidableEq, Inhabited

/-- Where the object of a record is. -/
inductive Target where
  | pointer (a : Address)
  | weak (h : Handle)
  /-- The record gave way to another one, or was finalized. -/
  | discarded
  deriving DecidableEq, Inhabited

/-- What a record owns. -/
inductive Payload where
  | object (t : TypeKey) (a : Address)
  /-- A share in an object with several owners, by the number of the object's block. -/
  | share (block : Nat)
  | container (kind : ContainerKind) (a : Address)
  deriving DecidableEq, Inhabited

/-- The record of a full userdata. -/
structure Record where
  /-- The key of its entry in the identity cache, as it was when the userdata was made. -/
  key : Address
  exposed : Exposed
  ownership : Ownership
  target : Target
  payload : Option Payload
  deriving DecidableEq, Inhabited

namespace Record

/-- The record has given up its object. -/
def discarded (r : Record) : Bool :=
  r.target = .discarded

/-- The type as which a record exposes an object. -/
def type? (r : Record) : Option Nat :=
  match r.exposed with
  | .declared type => some type
  | .container _ => none

/-- The address at which a record finds its object without a handle. -/
def pointer? (r : Record) : Option Address :=
  match r.target with
  | .pointer a => some a
  | _ => none

/-- The handle with which a record finds its object. -/
def handle? (r : Record) : Option Handle :=
  match r.target with
  | .weak h => some h
  | _ => none

/-- Give up the object. -/
def discard (r : Record) : Record :=
  { r with target := .discarded }

end Record

/-- A walk over a map: the keys as they were when the walk began, and how many of them have been
passed. -/
structure Cursor where
  keyType : ScalarType
  keys : List Datum
  position : Nat := 0
  deriving DecidableEq, Inhabited

/-- What a userdata carries. -/
inductive Content where
  | record (r : Record)
  | cursor (c : Cursor)
  | foreign (n : Int64)
  deriving DecidableEq, Inhabited

/-- A userdata of the heap. -/
structure Userdata where
  content : Content
  metatable : Option Nat := none
  /-- A value that lives as long as the userdata. -/
  userValue : Value := .nil
  /-- Its finalizer has been scheduled. -/
  finalized : Bool := false
  deriving Inhabited

/-- The record that a userdata carries. -/
def Userdata.record? (u : Userdata) : Option Record :=
  match u.content with
  | .record r => some r
  | _ => none

/-- A function of the heap, with a name for messages. -/
structure Function where
  callable : Callable
  name : String := ""
  deriving Inhabited

end ObjectBridge
