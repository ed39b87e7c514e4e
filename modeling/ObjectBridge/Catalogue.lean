import ObjectBridge.Scalar

/-!
# Types of the host

A catalogue lists what the host declares about its types. A type may have one direct base, embedded
in it at a byte offset; it may start a family of weak objects, which carry an anchor; it may let
its objects tell which type they really are; and it may want the end of each object noted. It lists
the fields that a new object is given, and what an object shows of itself. The base of a type is
listed before the type, so every line of bases ends.

`Catalogue.lineage` is that line: a type and its bases, each with the offset at which it is
embedded in the type.
-/

namespace ObjectBridge

/-- The number of a type in its catalogue. -/
abbrev TypeKey := Nat

/-- The direct base of a type and the offset at which it is embedded. -/
structure BaseLink where
  type : TypeKey
  offset : Nat
  deriving DecidableEq, Inhabited

/-- A field of a type, with its offset in an object. -/
structure Field where
  name : String
  type : ScalarType
  offset : Nat
  deriving DecidableEq, Inhabited

/-- A line of what an object shows of itself, with the offset of the field it shows. -/
inductive Exhibit where
  | scalar (label : String) (offset : Nat)
  /-- An integer field of few bits, shown as a plain number. -/
  | number (label : String) (offset : Nat)
  /-- No field, only the label. -/
  | mark (label : String)
  deriving DecidableEq, Inhabited

/-- What the host declares about a type. -/
structure Declaration where
  /-- The name under which the type is exported. -/
  name : String
  base : Option BaseLink := none
  /-- The number of bytes of an object; an object without data has none. -/
  size : Nat := 8
  /-- Where the anchor of a weak object is, on the type that starts a weak family. -/
  anchor : Option Nat := none
  /-- Where an object tells its actual type. -/
  actualType : Option Nat := none
  /-- Where the datum is that is noted when an object is destroyed. -/
  farewell : Option Nat := none
  /-- The fields of the type itself, without those of its base. -/
  fields : List Field := []
  exhibits : List Exhibit := []
  deriving DecidableEq, Inhabited

/-- Every base is listed before the types that are based on it. -/
def basesFirst (types : List Declaration) : Bool :=
  types.zipIdx.all fun entry ↦
    match entry.1.base with
    | some link => link.type < entry.2
    | none => true

/-- The types of the host. -/
structure Catalogue where
  types : Array Declaration
  bases_first : basesFirst types.toList = true

namespace Catalogue

instance : Inhabited Catalogue := ⟨⟨#[], rfl⟩⟩

/-- The declaration of a type. -/
def declaration (c : Catalogue) (t : TypeKey) : Declaration :=
  c.types[t]?.getD default

/-- The name of a type. -/
def name (c : Catalogue) (t : TypeKey) : String :=
  (c.declaration t).name

/-- The line of bases of `t`, which is embedded at `offset`, for at most `fuel` types. -/
def lineageFrom (c : Catalogue) : Nat → TypeKey → Nat → List (TypeKey × Nat)
  | 0, _, _ => []
  | fuel + 1, t, offset =>
    (t, offset) ::
      match (c.declaration t).base with
      | some link => lineageFrom c fuel link.type (offset + link.offset)
      | none => []

/-- A type and its bases, nearest first, each with its offset in the type. -/
def lineage (c : Catalogue) (t : TypeKey) : List (TypeKey × Nat) :=
  c.lineageFrom (t + 1) t 0

/-- The offset at which `base` is embedded in `t`. -/
def offsetOf? (c : Catalogue) (t base : TypeKey) : Option Nat :=
  (c.lineage t).lookup base

/-- The fields of a type and of its bases, with their offsets in an object of the type. -/
def fields (c : Catalogue) (t : TypeKey) : List Field :=
  (c.lineage t).flatMap fun level ↦
    (c.declaration level.1).fields.map fun f ↦ { f with offset := level.2 + f.offset }

/-- The offset of the anchor in an object of a type. -/
def anchorOffset? (c : Catalogue) (t : TypeKey) : Option Nat :=
  (c.lineage t).findSome? fun level ↦
    (c.declaration level.1).anchor.map fun offset ↦ level.2 + offset

/-- The offset of the place where an object of a type tells its actual type. -/
def actualTypeOffset? (c : Catalogue) (t : TypeKey) : Option Nat :=
  (c.lineage t).findSome? fun level ↦
    (c.declaration level.1).actualType.map fun offset ↦ level.2 + offset

end Catalogue

end ObjectBridge
