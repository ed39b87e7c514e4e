import ObjectBridge.Number.Binary64

/-!
# Scalar types of the host

Fields of host objects and elements of host containers hold scalars: booleans, integers of ten
kinds, floats of two widths, texts of two kinds, and optional values of any of these. A `Datum` is
one such value; `ScalarType.Holds` says which data belong to which type.
-/

namespace ObjectBridge

/-- The integer types of the host. The two address sized kinds have 64 bits. -/
inductive IntKind where
  | i8
  | i16
  | i32
  | i64
  | isize
  | u8
  | u16
  | u32
  | u64
  | usize
  deriving DecidableEq, Inhabited

namespace IntKind

/-- The name that messages give the type. -/
def name : IntKind → String
  | i8 => "i8"
  | i16 => "i16"
  | i32 => "i32"
  | i64 => "i64"
  | isize => "isize"
  | u8 => "u8"
  | u16 => "u16"
  | u32 => "u32"
  | u64 => "u64"
  | usize => "usize"

/-- The width of the type. -/
def width : IntKind → Nat
  | i8 => 8
  | i16 => 16
  | i32 => 32
  | i64 => 64
  | isize => 64
  | u8 => 8
  | u16 => 16
  | u32 => 32
  | u64 => 64
  | usize => 64

/-- Whether the type has negative values. -/
def signed : IntKind → Bool
  | i8 => true
  | i16 => true
  | i32 => true
  | i64 => true
  | isize => true
  | _ => false

/-- The smallest value of the type. -/
def low (k : IntKind) : Int :=
  if k.signed then -(Nat.pow 2 (k.width - 1) : Nat) else 0

/-- The bound above the largest value of the type. -/
def high (k : IntKind) : Int :=
  if k.signed then (Nat.pow 2 (k.width - 1) : Nat) else (Nat.pow 2 k.width : Nat)

/-- Whether an integer is a value of the type. -/
def contains (k : IntKind) (n : Int) : Bool :=
  k.low ≤ n && n < k.high

/-- The value of the type that agrees with `n` in its low bits. -/
def wrap (k : IntKind) (n : Int) : Int :=
  if k.signed then n.bmod (Nat.pow 2 k.width) else n.emod (Nat.pow 2 k.width : Nat)

end IntKind

/-- A scalar type of the host. -/
inductive ScalarType where
  | bool
  | int (k : IntKind)
  | single
  | double
  | text
  /-- Text in the compact representation, a type of its own with the same values. -/
  | compactText
  | optional (t : ScalarType)
  deriving DecidableEq, Inhabited

/-- A scalar value of the host. -/
inductive Datum where
  | bool (b : Bool)
  | int (n : Int)
  | single (x : Binary32)
  | double (x : Binary64)
  | text (s : String)
  | absent
  | present (d : Datum)
  deriving DecidableEq, Inhabited

/-- Which data are values of a type. -/
def ScalarType.Holds : ScalarType → Datum → Prop
  | .bool, .bool _ => True
  | .int k, .int n => k.contains n = true
  | .single, .single _ => True
  | .double, .double _ => True
  | .text, .text _ => True
  | .compactText, .text _ => True
  | .optional _, .absent => True
  | .optional t, .present d => t.Holds d
  | _, _ => False

/-- The value that a field of the type starts with. -/
def ScalarType.initial : ScalarType → Datum
  | .bool => .bool false
  | .int _ => .int 0
  | .single => .single ⟨0⟩
  | .double => .double ⟨0⟩
  | .text => .text ""
  | .compactText => .text ""
  | .optional _ => .absent

/-- The order of keys of one type: false before true, integers by value, texts by code points, and
an absent value before every present one. -/
def Datum.le : Datum → Datum → Bool
  | .bool a, .bool b => !a || b
  | .int a, .int b => a ≤ b
  | .text a, .text b => a ≤ b
  | .absent, _ => true
  | .present _, .absent => false
  | .present a, .present b => a.le b
  | _, _ => true

end ObjectBridge
