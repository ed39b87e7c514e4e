import ObjectBridge.Scalar
import ObjectBridge.Number.Shortest
import ObjectBridge.Value

/-!
# Conversion of scalars

Reading a script value as a scalar of the host is strict: it is also the check made before a field
or a container is written, so it never accepts a value it could not store. Integers are accepted as
integers and as floats that are exactly integers, and must lie in the range of the type. Numbers
are accepted where text is wanted and become their decimal text. An optional type reads nil as the
absent value.

Writing a scalar as a script value fails only for an unsigned integer beyond the integers of
scripts. The result is a `Plain` value, whose text has yet to be given a place in the heap.
-/

namespace ObjectBridge

/-- Why a script value is no value of a scalar type. -/
inductive Mismatch where
  /-- Another kind of value was wanted. -/
  | kind (wanted : String) (actual : Kind)
  /-- A float that is no integer. -/
  | notIntegral
  | outOfRange (n : Int) (k : IntKind)
  /-- A string that the heap does not know. -/
  | invalidText
  deriving DecidableEq, Inhabited

/-- The wording of a mismatch. -/
def Mismatch.message : Mismatch → String
  | .kind wanted actual => "expected " ++ wanted ++ ", got " ++ actual.name
  | .notIntegral => "number has no integer representation"
  | .outOfRange n k => "integer " ++ n.repr ++ " out of range for " ++ k.name
  | .invalidText => "invalid string"

/-- Read a script value as an integer of the given kind. -/
def IntKind.read (k : IntKind) (v : Value) : Except Mismatch Datum :=
  match v.integer? with
  | some i => if k.contains i.toInt then .ok (.int i.toInt) else .error (.outOfRange i.toInt k)
  | none =>
    match v with
    | .number _ => .error .notIntegral
    | _ => .error (.kind "integer" v.kind)

/-- Read a script value as text; `texts` knows the strings of the heap. -/
def readText (texts : Nat → Option String) (v : Value) : Except Mismatch Datum :=
  match v with
  | .string id =>
    match texts id with
    | some s => .ok (.text s)
    | none => .error .invalidText
  | .integer i => .ok (.text i.toInt.repr)
  | .number x => .ok (.text x.text)
  | _ => .error (.kind "string" v.kind)

/-- Read a script value as a scalar of type `t`; `texts` knows the strings of the heap. -/
def ScalarType.read (texts : Nat → Option String) : ScalarType → Value → Except Mismatch Datum
  | .bool, v =>
    match v with
    | .boolean b => .ok (.bool b)
    | _ => .error (.kind "boolean" v.kind)
  | .int k, v => k.read v
  | .single, v =>
    match v.number? with
    | some x => .ok (.single x.toBinary32)
    | none => .error (.kind "number" v.kind)
  | .double, v =>
    match v.number? with
    | some x => .ok (.double x)
    | none => .error (.kind "number" v.kind)
  | .text, v => readText texts v
  | .compactText, v => readText texts v
  | .optional t, v => if v.isNil then .ok .absent else (t.read texts v).map .present

/-- A script value whose text has no place in the heap yet. -/
inductive Plain where
  | nil
  | boolean (b : Bool)
  | integer (i : Int64)
  | number (x : Binary64)
  | text (s : String)
  deriving DecidableEq, Inhabited

/-- An integer of the host that is no integer of scripts. -/
structure Unrepresentable where
  kind : IntKind
  value : Int
  deriving DecidableEq, Inhabited

/-- Write a scalar of type `t` as a script value. -/
def ScalarType.write : ScalarType → Datum → Except Unrepresentable Plain
  | .bool, .bool b => .ok (.boolean b)
  | .int k, .int n =>
    if n ≤ Int64.maxValue.toInt then .ok (.integer (Int64.ofInt n)) else .error ⟨k, n⟩
  | .single, .single x => .ok (.number (Binary64.ofBinary32 x))
  | .double, .double x => .ok (.number x)
  | .text, .text s => .ok (.text s)
  | .compactText, .text s => .ok (.text s)
  | .optional t, .present d => t.write d
  | _, _ => .ok .nil

end ObjectBridge
