import ObjectBridge.Program.Operand

/-!
# Actions that call
-/

namespace ObjectBridge

/-- What a routine does; the number of its results. -/
def Routine.run : Routine → Exec Nat
  | echo => Exec.top
  | count => do
    Exec.push (.integer (Int64.ofNat (← Exec.top)))
    return 1
  | nothing => return 0
  | overclaim => return (← Exec.top) + 7
  | fail text => Exec.fail (.custom text)
  | panic text => Exec.panic (some text)
  | say text => do
    Exec.pushText text
    return 1

namespace Exec

/-- Keep values in registers named by their positions, counted from `n`. -/
def keepNumbered : Nat → List Value → Exec Unit
  | _, [] => return
  | n, v :: rest => do
    modifyDesk fun d ↦ { d with registers := d.registers.insert n.repr v }
    keepNumbered (n + 1) rest

/-- Call the function at a global path and keep its results in registers. -/
def invoke (run : Runner) (path : String) (args : List Operand) : Exec (List Value) := do
  loadGlobal run path
  let f ← popValue
  let args ← operands args
  let results ← callFunction run f args
  keepNumbered 0 results
  return results

end Exec

/-- Make the call of an action that calls, and report its outcome. -/
def CallAction.perform (run : Runner) : CallAction → Exec Report
  | pushRoutine name r => do
    let f ← Exec.updateMachine (·.createFunction (.routine r) name)
    Exec.push f
    return .nothing
  | call nargs nresults => do
    let n ← Exec.call run nargs nresults
    return .count n
  | tryCall nargs nresults => do
    let n ← Exec.tryCall run nargs nresults
    return .count n
  | protectedCall f args => do
    let f ← Exec.operand f
    let args ← Exec.operands args
    let (ok, results) ← Exec.protectedCall run f args
    return .list [.flag ok, ← Exec.shownAll results]
  | callFunction f args => do
    let f ← Exec.operand f
    let args ← Exec.operands args
    let results ← Exec.callFunction run f args
    Exec.shownAll results
  | invoke path args => do
    let results ← Exec.invoke run path args
    Exec.shownAll results
  | callWith f args results => do
    let f ← Exec.operand f
    let args ← args.mapM Exec.readyArgument
    let crossed ← Exec.callWith run f args results
    return .list (← crossed.mapM Exec.shownCrossed)
  | callGlobal path args results => do
    let args ← args.mapM Exec.readyArgument
    let crossed ← Exec.callGlobal run path args results
    return .list (← crossed.mapM Exec.shownCrossed)
  | getGlobal path t => do
    let c ← Exec.getGlobal run path t
    Exec.shownCrossed c
  | loadGlobal path => do
    Exec.loadGlobal run path
    Exec.shownTop
  | setGlobal path => Exec.silently (Exec.setGlobal run path)
  | makeGlobal path => Exec.silently (Exec.makeGlobal path)
  | fail f => Exec.fail f
  | panic text => Exec.panic text
  | convert t v => do
    let v ← Exec.operand v
    let m ← Exec.machine
    match Exec.crossing m t v with
    | .ok c => Exec.shownCrossed c
    | .error e => Exec.fail (.conversion e)
  | pushConverted a => do
    let a ← Exec.readyArgument a
    let n ← Exec.pushArgument a
    return .list [.count n, ← Exec.shownTop]

end ObjectBridge
