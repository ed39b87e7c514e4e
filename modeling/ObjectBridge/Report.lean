import ObjectBridge.Failure
import ObjectBridge.Pins
import ObjectBridge.Userdata

/-!
# Reports

Every action of a program reports its outcome. A report shows script values as far as they have an
identity that is the same in every run: strings by their text, packed pointers by their slot only,
other objects not at all.
-/

namespace ObjectBridge

/-- A script value as a report shows it. -/
inductive Shown where
  | nil
  | boolean (b : Bool)
  | integer (i : Int64)
  | number (x : Binary64)
  /-- A string; one that the heap does not know has no text. -/
  | string (text : Option String)
  | table
  | function
  | userdata
  /-- A packed pointer: its slot, and whether it is null. -/
  | pointer (slot : Nat) (null : Bool)
  | word (w : UInt64)
  deriving DecidableEq, Inhabited

/-- What an action reports. -/
inductive Report where
  | nothing
  | flag (b : Bool)
  | count (n : Int)
  /-- An integer of the host, which may need all 64 bits. -/
  | wide (n : Int)
  | text (s : String)
  | value (v : Shown)
  /-- A value, and the first position of the frame that holds the same object. -/
  | located (v : Shown) (position : Nat)
  | datum (d : Datum)
  | list (items : List Report)
  /-- Keys and values; those of an unordered container are in no particular order. -/
  | bindings (ordered : Bool) (items : List (Report × Report))
  | fields (items : List (String × Report))
  | kind (k : Kind)
  | ownership (o : Ownership)
  | target (t : Target)
  | failure (f : Failure)
  deriving Inhabited

/-- A report, the number of values then in the current frame, and the number of programs that were
running as functions. -/
structure Entry where
  report : Report
  top : Nat
  depth : Nat
  deriving Inhabited

end ObjectBridge
