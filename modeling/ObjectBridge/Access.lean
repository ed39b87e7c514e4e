import ObjectBridge.Call

/-!
# Access through metatables

Reading and writing a member of a value follows its metatable. A table answers for the keys it has;
for other keys, and for other values altogether, the metatable provides a function to call or a
further value to ask. The walk along such values is bounded, and a longer one fails.
-/

namespace ObjectBridge

/-- The number of values that a walk along metatables may ask. -/
def maxChain : Nat :=
  2000

namespace Exec

/-- Read a member of a value, asking at most `fuel` values. -/
def indexFrom (run : Runner) : Nat → Value → Value → Exec Value
  | 0, _, _ => fail .indexChainTooLong
  | fuel + 1, obj, k => do
    let m ← machine
    let own := match obj with
      | .table id => m.heap.rawGet id k
      | _ => .nil
    if !own.isNil then return own
    match m.metafield obj "__index", obj with
    | .nil, .table _ => return .nil
    | .nil, _ => fail (.badOperand .index obj.kindName)
    | .function f, _ => callMetamethod run (.function f) [obj, k]
    | handler, _ => indexFrom run fuel handler k

/-- Read a member of a value. -/
def index (run : Runner) (obj k : Value) : Exec Value :=
  indexFrom run maxChain obj k

/-- Write a member of a value, asking at most `fuel` values. -/
def newIndexFrom (run : Runner) : Nat → Value → Value → Value → Exec Unit
  | 0, _, _, _ => fail .newIndexChainTooLong
  | fuel + 1, obj, k, v => do
    let m ← machine
    let handler := m.metafield obj "__newindex"
    match obj with
    | .table id =>
      if handler.isNil || !(m.heap.rawGet id k).isNil then
        rawSet id k v
        return
    | _ =>
      if handler.isNil then
        fail (.badOperand .index obj.kindName)
    match handler with
    | .function f =>
      let _ ← callFunction run (.function f) [obj, k, v]
    | handler => newIndexFrom run fuel handler k v

/-- Write a member of a value. -/
def newIndex (run : Runner) (obj k v : Value) : Exec Unit :=
  newIndexFrom run maxChain obj k v

/-- The length of a value: what its metatable says, else the length of a table or the bytes of a
string. -/
def length (run : Runner) (obj : Value) : Exec Value := do
  let m ← machine
  let handler := m.metafield obj "__len"
  if !handler.isNil then callMetamethod run handler [obj]
  else match obj with
    | .table id => return .integer (Int64.ofNat (m.rawLength id))
    | .string _ => return .integer (Int64.ofNat ((m.text? obj).getD "").utf8ByteSize)
    | _ => fail (.badOperand .length obj.kindName)

/-- What a walk over a value needs: the function that takes a step, a state, and a first key. -/
def iterate (run : Runner) (obj : Value) : Exec (Value × Value × Value) := do
  let handler := (← machine).metafield obj "__pairs"
  if handler.isNil then fail (.badOperand .iterate obj.kindName)
  let results ← callFunction run handler [obj]
  return (results.getD 0 .nil, results.getD 1 .nil, results.getD 2 .nil)

/-! ### On the stack -/

/-- Take a key off the stack and push its member of the value at an index. -/
def getTable (run : Runner) (idx : Int) : Exec Unit := do
  let obj ← valueAt idx
  let k ← popValue
  push (← index run obj k)

/-- Take a value and a key off the stack and write the member of the value at an index. -/
def setTable (run : Runner) (idx : Int) : Exec Unit := do
  let obj ← valueAt idx
  let v ← popValue
  let k ← popValue
  newIndex run obj k v

/-- Push a member of the value at an index. -/
def getField (run : Runner) (idx : Int) (name : String) : Exec Unit := do
  let obj ← valueAt idx
  let k ← intern name
  push (← index run obj k)

/-- Take a value off the stack and write a member of the value at an index. -/
def setField (run : Runner) (idx : Int) (name : String) : Exec Unit := do
  let obj ← valueAt idx
  let v ← popValue
  let k ← intern name
  newIndex run obj k v

/-- Push the length of the value at an index. -/
def pushLength (run : Runner) (idx : Int) : Exec Unit := do
  let obj ← valueAt idx
  push (← length run obj)

end Exec

end ObjectBridge
