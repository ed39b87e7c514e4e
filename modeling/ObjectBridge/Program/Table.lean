import ObjectBridge.Access
import ObjectBridge.Program.Operand

/-!
# Actions on tables and through metatables

The walk over a value is cut off after `maxBindings` bindings. The text of a value is shown up to
the address in it, which differs from run to run.
-/

namespace ObjectBridge

/-- The number of bindings after which a walk is cut off. -/
def maxBindings : Nat :=
  300

/-- A text up to the first address in it, which is replaced by a placeholder. -/
def hideAddress : List Char → List Char
  | ':' :: ' ' :: '0' :: 'x' :: _ => ": PTR".toList
  | c :: rest => c :: hideAddress rest
  | [] => []

namespace Exec

/-- The bindings that a walk visits from `key` on, each as it reads when it is visited. -/
def bindingsFrom (run : Runner) (next state : Value) :
    Nat → Value → Exec (List (Report × Report))
  | 0, _ => return []
  | fuel + 1, key => do
    match ← callFunction run next [state, key] with
    | [] | .nil :: _ => return []
    | k :: rest =>
      let w ← get
      let binding := (.value (w.shown k), .value (w.shown (rest.headD .nil)))
      let bindings ← bindingsFrom run next state fuel k
      return binding :: bindings

/-- Walk over a value. The function and the state of the walk are on the stack meanwhile, where the
collector finds them. -/
def bindings (run : Runner) (obj : Value) : Exec (List (Report × Report)) := do
  let (next, state, first) ← iterate run obj
  guarded do
    push next
    push state
    bindingsFrom run next state maxBindings first

/-- The text of a value, as its metatable gives it. -/
def toText (run : Runner) (obj : Value) : Exec (Option String) := do
  let handler := (← machine).metafield obj "__tostring"
  let results ← callFunction run handler [obj]
  return (← machine).text? (results.headD .nil)

/-- Do something with the table that an operand is. It is a panic, of no text, when it is none: the
actions without metamethods are for tables alone. -/
def withTable (v : Operand) (body : Nat → Exec Report) : Exec Report := do
  match ← tableOperand v with
  | some t => body t
  | none => panic none

end Exec

/-- Make the call of an action on tables and report its outcome. -/
def TableAction.perform (run : Runner) : TableAction → Exec Report
  | create => do
    let id ← Exec.updateMachine Machine.createTable
    Exec.push (.table id)
    return .nothing
  | rawGet t k => Exec.withTable t fun t ↦ do
    let k ← Exec.operand k
    let m ← Exec.machine
    Exec.shown (m.heap.rawGet t k)
  | rawSet t k v => Exec.withTable t fun t ↦ do
    let k ← Exec.operand k
    let v ← Exec.operand v
    Exec.silently (Exec.rawSet t k v)
  | rawGetField t name => Exec.withTable t fun t ↦ do
    let m ← Exec.machine
    Exec.shown (m.heap.rawGetField t name)
  | rawSetField t name v => Exec.withTable t fun t ↦ do
    let v ← Exec.operand v
    Exec.silently (Exec.rawSetField t name v)
  | rawGetPosition t n => Exec.withTable t fun t ↦ do
    let m ← Exec.machine
    Exec.shown (m.rawGetPosition t n)
  | rawSetPosition t n v => Exec.withTable t fun t ↦ do
    let v ← Exec.operand v
    Exec.silently (Exec.modifyMachine (·.rawSetPosition t n v))
  | rawLength t => Exec.withTable t fun t ↦ do
    let m ← Exec.machine
    return .count (m.rawLength t)
  | setMetatable o mt => do
    let o ← Exec.operand o
    let mt ← Exec.tableOperand mt
    let m ← Exec.machine
    let m ← Exec.ofExcept (m.setMetatable o mt)
    Exec.silently (Exec.modifyMachine fun _ ↦ m)
  | getMetatable o => do
    let o ← Exec.operand o
    let m ← Exec.machine
    let v : Value := match m.metatable? o with
      | some mt => .table mt
      | none => .nil
    Exec.push v
    Exec.shown v
  | metafield o name => do
    let o ← Exec.operand o
    let m ← Exec.machine
    Exec.shown (m.metafield o name)
  | reference t v => Exec.withTable t fun t ↦ do
    let v ← Exec.operand v
    let r ← Exec.updateMachine (·.reference t v)
    return .count r
  | unreference t r => Exec.withTable t fun t ↦
    Exec.silently (Exec.modifyMachine (·.unreference t r))
  | getTable idx => do
    Exec.getTable run idx
    Exec.shownTop
  | getField idx name => do
    Exec.getField run idx name
    Exec.shownTop
  | pushLength idx => do
    Exec.pushLength run idx
    Exec.shownTop
  | setTable idx => Exec.silently (Exec.setTable run idx)
  | setField idx name => Exec.silently (Exec.setField run idx name)
  | index o k => do
    let o ← Exec.operand o
    let k ← Exec.operand k
    let v ← Exec.index run o k
    Exec.shown v
  | newIndex o k v => do
    let o ← Exec.operand o
    let k ← Exec.operand k
    let v ← Exec.operand v
    Exec.silently (Exec.newIndex run o k v)
  | length o => do
    let o ← Exec.operand o
    let v ← Exec.length run o
    Exec.shown v
  | iterate o => do
    let o ← Exec.operand o
    let (next, state, first) ← Exec.iterate run o
    let results := [next, state, first]
    Exec.modifyMachine (·.pushAll results)
    Exec.shownAll results
  | pairs o => do
    let o ← Exec.operand o
    let bindings ← Exec.bindings run o
    -- A walk can take the container apart, and what is left of it is of no type.
    let ordered := (← get).typeName o ≠ MapShape.hashed.name
    return .bindings ordered bindings
  | toText o => do
    let o ← Exec.operand o
    let text ← Exec.toText run o
    return Exec.shownText (text.map fun s ↦ String.ofList (hideAddress s.toList))

end ObjectBridge
