import ObjectBridge.Program.Call
import ObjectBridge.Program.Collect
import ObjectBridge.Program.Container
import ObjectBridge.Program.Object
import ObjectBridge.Program.Registry
import ObjectBridge.Program.Stack
import ObjectBridge.Program.Table

/-!
# Running programs

Each action of a program makes its call and leaves an entry among the reports; an action that fails
leaves its failure there and ends the program. An action that panics leaves no entry.

Programs call functions, and functions run programs. `Exec.runner` ties this knot: its fuel is
the number of programs that may run inside one another as functions. The frames of a machine are
bounded by its settings and every program that runs as a function has a frame, so fuel above that
bound never runs out.
-/

namespace ObjectBridge

namespace Exec

/-- Leave an entry among the reports. -/
def note (r : Report) : Exec Unit :=
  modify fun w ↦
    let entry : Entry := ⟨r, w.binding.machine.top, w.desk.depth⟩
    { w with desk.reports := entry :: w.desk.reports }

/-- Do something, and note its report or its failure. -/
def noted (body : Exec Report) : Exec Unit := do
  match ← attempt body with
  | .ok r => note r
  | .error f =>
    note (.failure f)
    fail f

/-- Do something, and whatever becomes of it, take its entries back out of the reports. -/
def muted {α : Type} (body : Exec α) : Exec α := fun w ↦
  let saved := w.desk.reports
  let (outcome, w) := (body.run w).run
  (outcome, { w with desk.reports := saved })

/-- Do something as a function, one level deeper. -/
def deeper {α : Type} (body : Exec α) : Exec α := fun w ↦
  let depth := w.desk.depth
  let (outcome, w) := (body.run { w with desk.depth := depth + 1 }).run
  (outcome, { w with desk.depth := depth })

/-- Do something `n` times. -/
def times (n : Nat) (body : Exec Unit) : Exec Unit :=
  match n with
  | 0 => return
  | n + 1 => do
    body
    times n body

/-- Make a function of a program. -/
def pushProgram (body : List Action) (name : String) : Exec Report := do
  let f ← updateMachine (·.createFunction (.program body) name)
  push f
  return .nothing

end Exec

mutual

/-- Perform one action and note its outcome. The end of the program answers with the number of
results to leave. -/
def Action.perform (run : Runner) : Action → Exec (Option ResultCount)
  | .stack a => Exec.noted a.perform *> pure none
  | .table a => Exec.noted (a.perform run) *> pure none
  | .call a => Exec.noted (a.perform run) *> pure none
  | .object a => Exec.noted a.perform *> pure none
  | .container a => Exec.noted a.perform *> pure none
  | .collect a => Exec.noted (a.perform run) *> pure none
  | .registry a => Exec.noted a.perform *> pure none
  | .closure body name => Exec.noted (Exec.pushProgram body name) *> pure none
  | .guarded body => Exec.noted (do
      let saved ← Exec.top
      let _ ← Exec.guarded (performAll run body)
      return .count saved) *> pure none
  | .repeated n body => Exec.noted (do
      Exec.muted (Exec.times n (do
        let _ ← performAll run body))
      return .nothing) *> pure none
  | .finish n => return some n

/-- Perform actions up to the end of the program. -/
def performAll (run : Runner) : List Action → Exec (Option ResultCount)
  | [] => return none
  | a :: rest => do
    match ← a.perform run with
    | some n => return some n
    | none => performAll run rest

end

/-- Run a program as a function; the number of its results. -/
def runProgram (run : Runner) (body : List Action) : Exec Nat :=
  Exec.deeper do
    match ← performAll run body with
    | some (.exactly n) => return n
    | some .all => Exec.top
    | none => return 0

/-- What a method does with its object; the number of its results. -/
def MethodBody.run (a : Address) : MethodBody → Exec Nat
  | routine r => r.run
  | compute result f => do
    let m ← Exec.machine
    let args : MethodArguments := ⟨fun idx ↦ (m.valueAt idx).integer?, m.textAt?⟩
    let d ← Exec.updateHost fun h ↦
      let (memory, d) := f h.memory a args
      (d, { h with memory := memory })
    Exec.pushScalar result d

namespace Exec

/-- What functions do, for programs that run at most `fuel` deep. -/
def runner : Nat → Runner
  | _, .builtin b => b.run
  | _, .routine r => r.run
  | _, .method owner body => do
    let a ← argumentPointer 1 owner
    body.run a
  | 0, .program _ => throw .exhausted
  | fuel + 1, .program body => runProgram (runner fuel) body

/-- The functions of the bridge need no fuel. -/
theorem runner_builtin (fuel : Nat) (b : Builtin) : runner fuel (.builtin b) = b.run := by
  cases fuel <;> rfl

end Exec

end ObjectBridge
