import ObjectBridge.Catalogue

/-!
# A gallery of host types

The types of the gallery show every way in which the bridge can meet a host type: plain types and
bases embedded at the start or further on, types with the same layout that have nothing to do with
each other, types whose objects tell what they are, families of weak objects, an object that is
noted when it is destroyed, one without data, one with a field of every scalar type, and enough
plain types to fill every slot of packed words.
-/

namespace ObjectBridge

namespace Gallery

/-- A type of the gallery and the title it goes by there, which need not be its exported name. -/
structure Sample where
  title : String
  declaration : Declaration
  deriving Inhabited

/-- A sample whose title is its exported name. -/
def sample (d : Declaration) : Sample :=
  ⟨d.name, d⟩

/-! ### Plain types and bases -/

/-- A field of 32 bits. -/
def small (name : String) (offset : Nat) : Field :=
  ⟨name, .int .i32, offset⟩

/-- The plain types and the bases embedded in them. -/
def plain : List Sample := [
  sample
    { name := "Base", size := 4, fields := [small "id" 0], exhibits := [.number "id" 0] },
  sample
    { name := "Derived", base := some ⟨0, 0⟩, size := 8, fields := [small "extra" 4]
      exhibits := [.number "id" 0, .number "extra" 4] },
  sample
    { name := "Deep", base := some ⟨1, 0⟩, size := 32, fields := [⟨"note", .text, 8⟩]
      exhibits := [.number "id" 0, .number "extra" 4, .scalar "note" 8] },
  sample
    { name := "Shifted", base := some ⟨0, 16⟩, size := 24
      fields := [⟨"pad0", .int .u64, 0⟩]
      exhibits := [.number "id" 16, .scalar "pad0" 0] },
  sample
    { name := "ShiftDeep", base := some ⟨3, 8⟩, size := 32
      fields := [⟨"head", .int .u64, 0⟩]
      exhibits := [.number "id" 24, .scalar "pad0" 8, .scalar "head" 0] },
  sample
    { name := "Other", size := 4, fields := [small "id" 0], exhibits := [.number "other" 0] },
  sample
    { name := "Holder", size := 8, fields := [small "id" 0, small "tag" 4]
      exhibits := [.number "id" 0, .number "tag" 4] }]

/-! ### Objects that tell their type -/

/-- The types whose objects tell their actual type, and types based on them. -/
def shapes : List Sample := [
  sample
    { name := "Shape", size := 16, actualType := some 0, exhibits := [.mark "shape"] },
  sample
    { name := "Circle", base := some ⟨7, 0⟩, size := 24, actualType := some 0
      fields := [⟨"radius", .double, 16⟩], exhibits := [.scalar "radius" 16] },
  sample
    { name := "Square", base := some ⟨7, 0⟩, size := 24
      fields := [⟨"side", .double, 16⟩], exhibits := [.scalar "side" 16] },
  sample
    { name := "Ring", base := some ⟨8, 0⟩, size := 32
      fields := [⟨"inner", .double, 24⟩]
      exhibits := [.scalar "radius" 16, .scalar "inner" 24] }]

/-! ### Weak objects -/

/-- The families of weak objects. The last one is based on a type whose objects are not weak. -/
def weak : List Sample := [
  sample
    { name := "Actor", size := 48, anchor := some 0
      fields := [⟨"name", .text, 16⟩], exhibits := [.scalar "name" 16] },
  sample
    { name := "Pawn", base := some ⟨11, 0⟩, size := 56, fields := [small "hp" 48]
      exhibits := [.scalar "name" 16, .number "hp" 48] },
  sample
    { name := "Hero", base := some ⟨12, 0⟩, size := 64
      fields := [⟨"level", .int .i64, 56⟩]
      exhibits := [.scalar "name" 16, .number "hp" 48, .scalar "level" 56] },
  sample
    { name := "Prop", base := some ⟨11, 8⟩, size := 56
      fields := [⟨"weight", .int .u64, 0⟩]
      exhibits := [.scalar "name" 24, .scalar "weight" 0] },
  sample
    { name := "Item", size := 32, anchor := some 0
      fields := [⟨"count", .int .i64, 16⟩], exhibits := [.scalar "count" 16] },
  sample
    { name := "Ghost", base := some ⟨0, 0⟩, size := 40, anchor := some 16
      fields := [⟨"mark", .int .i64, 8⟩]
      exhibits := [.number "id" 0, .scalar "mark" 8] }]

/-! ### Special types -/

/-- The scalar types that `Fields` has a field of, with the names of the fields. -/
def scalars : List (String × ScalarType) := [
  ("bool", .bool), ("i8", .int .i8), ("i16", .int .i16), ("i32", .int .i32),
  ("i64", .int .i64), ("isize", .int .isize), ("u8", .int .u8), ("u16", .int .u16),
  ("u32", .int .u32), ("u64", .int .u64), ("usize", .int .usize), ("f32", .single),
  ("f64", .double), ("String", .text), ("SmolStr", .compactText),
  ("Option<i64>", .optional (.int .i64)), ("Option<String>", .optional .text)]

/-- One field for each of `scalars`. -/
def scalarFields : List Field :=
  scalars.zipIdx.map fun (entry, i) ↦ ⟨entry.1, entry.2, 32 * i⟩

/-- The type whose objects are noted when they are destroyed, the type without data, the type with
a field of every scalar type, and two types that registries usually lack. -/
def special : List Sample := [
  sample
    { name := "Counted", farewell := some 0
      fields := [⟨"tag", .int .i64, 0⟩], exhibits := [.scalar "tag" 0] },
  sample { name := "Zst", size := 0 },
  sample
    { name := "Fields", size := 544, fields := scalarFields
      exhibits := scalarFields.map fun f ↦ .scalar f.name f.offset },
  sample { name := "Unknown" },
  ⟨"DupBase", { name := "Base" }⟩]

/-- The number of plain types that fill slots. -/
def fillerCount : Nat :=
  300

/-- The name of a filler. -/
def fillerName (i : Nat) : String :=
  "Fill" ++ String.ofList ((if i < 10 then ['0', '0'] else if i < 100 then ['0'] else [])) ++ i.repr

/-- The types that fill slots. -/
def fillers : List Sample :=
  (List.range fillerCount).map fun i ↦ sample { name := fillerName i }

/-! ### The catalogue -/

/-- All types of the gallery; the position of a type is its key. -/
def samples : List Sample :=
  plain ++ shapes ++ weak ++ special ++ fillers

/-- The catalogue of the gallery. -/
def catalogue : Catalogue where
  types := (samples.map Sample.declaration).toArray
  bases_first := by decide +kernel

/-- The key of the type with a title. -/
def key? (title : String) : Option TypeKey :=
  samples.findIdx? fun s ↦ s.title = title

/-- The keys of `n` fillers from the one with number `start` on. -/
def fillerKeys (start n : Nat) : List TypeKey :=
  let first := samples.length - fillerCount
  (List.range n).map fun i ↦ first + start + i

end Gallery

end ObjectBridge
