import ObjectBridge.Value

/-!
# Table keys

A table is keyed by values, but not by all of them, and not quite as they are: a float that is
exactly an integer is the key of that integer, nil and what is not a number are no keys at all.
-/

namespace ObjectBridge

/-- What a value is as the key of a table. -/
inductive Key where
  | boolean (b : Bool)
  | integer (i : Int)
  /-- A float that is not exactly a 64 bit integer. -/
  | number (x : Binary64)
  | string (id : Nat)
  | table (id : Nat)
  | function (id : Nat)
  | word (w : UInt64)
  | userdata (id : Nat)
  deriving DecidableEq, Inhabited

/-- The key that a value is. -/
def Value.key? : Value → Option Key
  | .nil => none
  | .boolean b => some (.boolean b)
  | .integer i => some (.integer i.toInt)
  | .number x =>
    if x.isNaN then none
    else match x.toInt64? with
      | some i => some (.integer i.toInt)
      | none => some (.number x)
  | .string id => some (.string id)
  | .table id => some (.table id)
  | .function id => some (.function id)
  | .word w => some (.word w)
  | .userdata id => some (.userdata id)

end ObjectBridge
