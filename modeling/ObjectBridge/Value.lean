import ObjectBridge.Number.Binary64

/-!
# Script values

A script value is nil, a boolean, one of two kinds of number, a machine word, or a reference to a
heap object by its number. `Value.same` compares payloads kind by kind; `Value.rawEqual` also
compares integers with floats, by the float nearest to the integer.
-/

namespace ObjectBridge

/-- A value as scripts see it. Heap objects are named by their numbers. -/
inductive Value where
  | nil
  | boolean (b : Bool)
  | integer (i : Int64)
  | number (x : Binary64)
  | string (id : Nat)
  | table (id : Nat)
  | function (id : Nat)
  /-- A machine word; it may carry a packed object. -/
  | word (w : UInt64)
  | userdata (id : Nat)
  deriving DecidableEq, Inhabited

/-- The kinds of value that scripts can tell apart. -/
inductive Kind where
  | nil
  | boolean
  | number
  | string
  | table
  | function
  | lightUserdata
  | userdata
  deriving DecidableEq, Inhabited

/-- The script visible name of a kind; packed and full userdata share theirs. -/
def Kind.name : Kind → String
  | .nil => "nil"
  | .boolean => "boolean"
  | .number => "number"
  | .string => "string"
  | .table => "table"
  | .function => "function"
  | .lightUserdata => "userdata"
  | .userdata => "userdata"

namespace Value

/-- The kind of a value; integers and floats are one kind. -/
def kind : Value → Kind
  | nil => .nil
  | boolean _ => .boolean
  | integer _ => .number
  | number _ => .number
  | string _ => .string
  | table _ => .table
  | function _ => .function
  | word _ => .lightUserdata
  | userdata _ => .userdata

/-- The name of the kind of a value. -/
def kindName (v : Value) : String :=
  v.kind.name

/-- Only nil and false are false. -/
def truthy : Value → Bool
  | nil => false
  | boolean b => b
  | _ => true

/-- Whether a value is nil. -/
def isNil : Value → Bool
  | nil => true
  | _ => false

/-- The number of the function that a value is. -/
def function? : Value → Option Nat
  | function id => some id
  | _ => none

/-- The number of the table that a value is. -/
def table? : Value → Option Nat
  | table id => some id
  | _ => none

/-- The number of the userdata that a value is. -/
def userdata? : Value → Option Nat
  | userdata id => some id
  | _ => none

/-- The number of the string that a value is. -/
def string? : Value → Option Nat
  | string id => some id
  | _ => none

/-- The boolean that a value is. -/
def boolean? : Value → Option Bool
  | boolean b => some b
  | _ => none

end Value

/-- The 64 bit integer that a float stands for exactly. -/
def Binary64.toInt64? (x : Binary64) : Option Int64 :=
  match x.toInt? with
  | some i => if Int64.minValue.toInt ≤ i ∧ i ≤ Int64.maxValue.toInt then some (Int64.ofInt i) else none
  | none => none

namespace Value

/-- The integer that a value stands for: an integer, or a float that is exactly one. -/
def integer? : Value → Option Int64
  | integer i => some i
  | number x => x.toInt64?
  | _ => none

/-- The float that a value stands for; an integer becomes the nearest one. -/
def number? : Value → Option Binary64
  | integer i => some (Binary64.ofInt i.toInt)
  | number x => some x
  | _ => none

/-- Equality within one kind of value: floats by number, all else by payload. -/
def same : Value → Value → Bool
  | number x, number y => x.numEq y
  | v, w => v = w

/-- Equality without conversion, except that an integer meets a float as the float nearest to
it. -/
def rawEqual : Value → Value → Bool
  | integer i, number x => (Binary64.ofInt i.toInt).numEq x
  | number x, integer i => (Binary64.ofInt i.toInt).numEq x
  | v, w => v.same w

end Value

end ObjectBridge
