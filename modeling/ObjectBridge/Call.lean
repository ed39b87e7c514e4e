import ObjectBridge.World

/-!
# Calls

A call takes a function and its arguments off the stack and leaves results in their place. The
callee runs in a frame of its own; its results are the values on top of its frame, as many as it
claims and has. A value that is no function is called through the function its metatable provides,
with the value itself as first argument.

A failed call leaves the stack below the called value as it was and restores the frames. A panic
restores nothing by itself: it unwinds through the stack guards it meets, each of which sets the
top of whatever frame is then current, up to the nearest protected call, which restores both.

Everything here is given the `Runner` that runs callees, and so holds for every one of them.
-/

namespace ObjectBridge

namespace Exec

/-- Release the references of pins that are gone. -/
def flushPins : Exec Unit := do
  let b ← binding
  let released := ((← get).pins[b.number]?.getD {}).released
  modifyPins b.number fun t ↦ { t with released := [] }
  modifyMachine fun m ↦ released.foldl (fun m r ↦ m.unreference b.tables.pinned r) m

/-- The callable of the value at a stack position. A value that is called through its metatable
becomes the first argument of the function found there. A value that cannot be called is taken off
the stack with everything above it. -/
def resolveCallable (pos : Nat) : Exec Callable := do
  let m ← machine
  let called := m.stack[pos]?.getD .nil
  match m.callable? called with
  | some c => return c
  | none =>
    let handler := m.metafield called "__call"
    match m.callable? handler with
    | some c =>
      modifyMachine fun m ↦ { m with stack := m.stack.insertIdxIfInBounds pos handler }
      return c
    | none =>
      modifyMachine (·.truncate pos)
      fail (.badOperand .call called.kindName)

/-- Open a frame that begins at a stack position. -/
def openFrame (base : Nat) : Exec Unit :=
  modifyMachine fun m ↦ { m with frames := base :: m.frames }

/-- Close the innermost frame. -/
def closeFrame : Exec Unit :=
  modifyMachine fun m ↦ { m with frames := m.frames.tail }

/-- Put the results of a callee, the top `n` values as far as its frame has them, in the place of
the called value; with a wanted number, cut or filled up with nil. The number of results. -/
def placeResults (pos n : Nat) (wanted : Option Nat) : Exec Nat := do
  let m ← machine
  let n := min n (m.stack.size - (pos + 1))
  let results := m.topValues n
  let wanted := wanted.getD n
  modifyMachine fun m ↦ (m.truncate pos).pushAll (results.take wanted)
  resizeStack (pos + wanted)
  return wanted

/-- Find what is called by the value below the top `nargs` values, and open a frame for it: the
position of the called value, and the callee. -/
def enter (nargs : Nat) : Exec (Nat × Callable) := do
  flushPins
  let m ← machine
  if m.top < nargs + 1 then fail .tooFewValues
  let pos := m.stack.size - nargs - 1
  let callee ← resolveCallable pos
  -- The frame is counted after the callee is found: what cannot be called fails as such.
  if (← binding).settings.maxDepth ≤ (← machine).frames.length then
    modifyMachine (·.truncate pos)
    fail .stackOverflow
  openFrame (pos + 1)
  return (pos, callee)

/-- Call the value below the top `nargs` values. The number of results left on the stack. -/
def call (run : Runner) (nargs : Nat) (nresults : Option Nat) : Exec Nat := do
  let (pos, callee) ← enter nargs
  let n ← tryCatch (run callee) fun i ↦
    match i with
    | .failure f => do
      closeFrame
      modifyMachine (·.truncate pos)
      throw (.failure f)
    | i => throw i
  closeFrame
  placeResults pos n nresults

/-- The text of a panic. -/
def panicText (text : Option String) : String :=
  text.getD "unknown panic"

/-- Like `call`, but whatever ends the call early, panics included, is a failure, after which the
frames are as before and the stack ends below the called value. -/
def tryCall (run : Runner) (nargs : Nat) (nresults : Option Nat) : Exec Nat := do
  let m ← machine
  let frames := m.frames.length
  let pos := m.stack.size - min (nargs + 1) m.top
  let unwind : Exec Unit := modifyMachine fun m ↦
    { m with frames := m.frames.drop (m.frames.length - frames) }.truncate pos
  tryCatch (call run nargs nresults) fun i ↦
    match i with
    | .failure f => do
      unwind
      fail f
    | .panic text => do
      -- The frames that the panic passed are still open.
      unwind
      fail (.nativePanic (panicText text))
    | .exhausted => throw .exhausted

/-- Call a function with arguments and give its results, which are not on the stack. -/
def callFunction (run : Runner) (f : Value) (args : List Value) : Exec (List Value) :=
  guarded do
    push f
    modifyMachine (·.pushAll args)
    let n ← call run args.length none
    return (← machine).topValues n

/-- Run a computation and observe its failure. -/
def attempt {α : Type} (body : Exec α) : Exec (Except Failure α) :=
  tryCatch (Except.ok <$> body) fun i ↦
    match i with
    | .failure f => return .error f
    | i => throw i

/-- Like `callFunction`, protected: whether the call went well, and the results, or else the
message of the failure as a string. -/
def protectedCall (run : Runner) (f : Value) (args : List Value) : Exec (Bool × List Value) :=
  guarded do
    push f
    modifyMachine (·.pushAll args)
    match ← attempt (tryCall run args.length none) with
    | .ok n => return (true, (← machine).topValues n)
    | .error f =>
      let message ← intern f.message
      return (false, [message])

/-- The first result of a call, nil when there is none. -/
def callMetamethod (run : Runner) (handler : Value) (args : List Value) : Exec Value := do
  return (← callFunction run handler args).headD .nil

end Exec

end ObjectBridge
