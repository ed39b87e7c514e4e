import ObjectBridge.Gallery
import ObjectBridge.Registry.Plan

/-!
# Members of the gallery

A member is exported under a name of choice and comes from a source: a field of the type, a value
computed from its fields, a routine, or a method. Here are the sources of every type, and the plan
by which the gallery is usually registered.
-/

namespace ObjectBridge

namespace Gallery

/-- The ways to export a source. -/
inductive Export where
  /-- A variable that can be written. -/
  | variable
  /-- A variable that can only be read. -/
  | getter
  /-- A function that gets its arguments as they are. -/
  | function
  /-- A function on an object of the type. -/
  | method
  deriving DecidableEq, Inhabited

/-- The integer at an address. -/
def integerAt (m : Memory) (a : Address) : Int :=
  match m.datum? a with
  | some (.int n) => n
  | _ => 0

/-- The variable of a field. -/
def fieldVariable (f : Field) (writable : Bool) : Member :=
  .variable f.type (fun m a ↦ (m.datum? (a.up f.offset)).getD f.type.initial)
    (if writable then some fun m a d ↦ m.write (a.up f.offset) (.datum d) else none)

/-- The variables that are computed: their types, their sources, and how they are computed. -/
def computed : List ((String × String) × Member) := [
  (("Base", "id100"),
    .variable (.int .i32) (fun m a ↦ .int (IntKind.i32.wrap (integerAt m a + 100))) none),
  (("Derived", "twice"),
    .variable (.int .i64) (fun m a ↦ .int (integerAt m (a.up 4) * 2)) none),
  (("Deep", "negid"),
    .variable (.int .i64) (fun m a ↦ .int (-integerAt m a)) none)]

/-- The routines, by their sources. -/
def routine? : String → Option Routine
  | "echo" => some .echo
  | "argc" => some .count
  | "none" => some .nothing
  | "over" => some .overclaim
  | "fail" => some (.fail "native failure")
  | "panic" => some (.panic "native boom")
  | _ => none

/-- Add to the number of an object, 1 unless told otherwise, and give the sum. -/
def addToId (m : Memory) (a : Address) (args : MethodArguments) : Memory × Datum :=
  let n := match args.integer? 2 with
    | some i => i.toInt
    | none => 1
  let sum : Datum := .int (IntKind.i32.wrap (integerAt m a + n))
  (m.write a (.datum sum), sum)

/-- Give an object another name, and give the old one. -/
def rename (m : Memory) (a : Address) (args : MethodArguments) : Memory × Datum :=
  let cell := a.up 16
  (m.write cell (.datum (.text ((args.text? 2).getD "?"))), (m.datum? cell).getD (.text ""))

/-- The methods of a type, by their sources. -/
def method? (title : String) (name : String) : String → Option MethodBody
  | "Kind" => some (.routine (.say name))
  | "Argc" => some (.routine .count)
  | "Fail" => some (.routine (.fail "method failed"))
  | "Panic" => some (.routine (.panic "method boom"))
  | "Echo" => some (.routine .echo)
  | "GetId" =>
    if title = "Base" then some (.compute (.int .i32) fun m a _ ↦ (m, .int (integerAt m a)))
    else none
  | "AddId" => if title = "Base" then some (.compute (.int .i32) addToId) else none
  | "Rename" => if title = "Actor" then some (.compute .text rename) else none
  | _ => none

/-- The member that a source of a type becomes. -/
def member? (title : String) (e : Export) (source : String) : Option Member := do
  let t ← key? title
  let d := catalogue.declaration t
  match e with
  | .variable => (d.fields.find? fun f ↦ f.name = source).map (fieldVariable · true)
  | .getter =>
    ((d.fields.find? fun f ↦ f.name = source).map (fieldVariable · false)).or
      (computed.lookup (title, source))
  | .function => (routine? source).map fun r ↦ .function (.routine r)
  | .method => (method? title d.name source).map fun b ↦ .function (.method t b)

/-- Register a type of the gallery with the members that its sources become. -/
def declare? (title : String) (exports : List (String × Export × String)) (close : Bool) :
    Option PlanStep := do
  let t ← key? title
  let members ← exports.mapM fun (name, e, source) ↦ do
    return (name, ← member? title e source)
  return .declare t members close

/-- The exports by which the gallery is usually registered. -/
def usualExports : List (String × List (String × Export × String)) := [
  ("Base", [("id", .variable, "id"), ("GetId", .method, "GetId"), ("AddId", .method, "AddId"),
    ("Kind", .method, "Kind"), ("echo", .function, "echo")]),
  ("Derived", [("extra", .variable, "extra"), ("twice", .getter, "twice"),
    ("Kind", .method, "Kind")]),
  ("Deep", [("note", .variable, "note"), ("Fail", .method, "Fail"), ("id", .getter, "negid")]),
  ("Shifted", [("pad0", .variable, "pad0")]),
  ("ShiftDeep", [("head", .variable, "head"), ("Kind", .method, "Kind")]),
  ("Other", [("id", .variable, "id")]),
  ("Holder", [("tag", .variable, "tag")]),
  ("Shape", [("Kind", .method, "Kind"), ("Argc", .method, "Argc")]),
  ("Circle", [("radius", .getter, "radius")]),
  ("Square", [("side", .variable, "side")]),
  ("Ring", [("inner", .variable, "inner"), ("Kind", .method, "Kind")]),
  ("Actor", [("name", .variable, "name"), ("Rename", .method, "Rename"),
    ("Kind", .method, "Kind"), ("fail", .function, "fail")]),
  ("Pawn", [("hp", .getter, "hp"), ("Kind", .method, "Kind")]),
  ("Hero", [("level", .variable, "level")]),
  ("Prop", [("weight", .variable, "weight")]),
  ("Item", [("count", .variable, "count")]),
  ("Ghost", [("mark", .variable, "mark"), ("Kind", .method, "Kind")]),
  ("Counted", [("tag", .variable, "tag"), ("Argc", .method, "Argc")]),
  ("Zst", [("Kind", .method, "Kind")]),
  ("Fields", scalars.map fun entry ↦ (entry.1, .variable, entry.1))]

/-- The plan by which the gallery is usually registered. -/
def usualPlan : List PlanStep :=
  usualExports.filterMap fun entry ↦ declare? entry.1 entry.2 true

end Gallery

end ObjectBridge
