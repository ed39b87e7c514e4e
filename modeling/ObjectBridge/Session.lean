import ObjectBridge.Program.Run
import ObjectBridge.Registry.Plan
import ObjectBridge.Setup

/-!
# Sessions

A session has one host and any number of bindings, one of which is called at a time; the others are
parked. It follows directives: perform an action, or turn to another binding. An action that fails
is reported and the session goes on.

Bindings to one registry share its weak objects, and all bindings share the host.
-/

namespace ObjectBridge

/-- What a binding is made from: the number of a registry, and its settings. -/
structure BindingPlan where
  registry : Nat := 0
  settings : Settings := {}
  deriving DecidableEq, Inhabited

/-- What a session is told to do. -/
inductive Directive where
  | act (a : Action)
  /-- Turn to the binding with a number. -/
  | turn (binding : Nat)

/-- A session: the world of the binding that is called, and the bindings. The entry of the binding
that is called is out of date. -/
structure Session where
  world : World := {}
  bindings : Array Binding := #[]
  current : Nat := 0

namespace Session

instance : Inhabited Session := ⟨{}⟩

/-- Fuel that suffices for every run in a world: each program that runs as a function has a
frame. -/
def fuel (w : World) : Nat :=
  w.binding.settings.maxDepth + 1

/-- Set the binding that is called aside. -/
def park (s : Session) : Session :=
  { s with bindings := s.bindings.setIfInBounds s.current s.world.binding }

/-- Turn to a binding. The registers of the host do not follow it to another heap. -/
def turn (s : Session) (k : Nat) : Session :=
  let s := s.park
  match s.bindings[k]? with
  | some b =>
    let world := { s.world with binding := b, desk := s.world.desk.releaseRegisters }
    { s with world := world, current := k }
  | none => s

/-- Add a binding to a registry, and turn to it. -/
def addBinding (s : Session) (registries : Array Registry) (p : BindingPlan) :
    Except Failure Session :=
  let s := s.park
  -- Bindings are numbered in the order in which they are made.
  let number := s.bindings.size
  let fresh : Binding :=
    { registry := registries.getD p.registry {}, domain := p.registry, number := number,
      settings := p.settings }
  let world := { s.world with binding := fresh, pins := s.world.pins.push {} }
  match ((Exec.setup (Exec.runner (fuel world))).run world).run with
  | (.ok (), world) =>
    .ok { world := world, bindings := s.bindings.push world.binding, current := number }
  | (.error (.failure f), _) => .error f
  | (.error _, _) => .error (.custom "")

/-- A session with registries and bindings, turned to the first of the bindings. -/
def start (c : Catalogue) (registries : List (List PlanStep)) (bindings : List BindingPlan) :
    Except Failure Session := do
  let registries := (registries.map (Registry.ofPlan c)).toArray
  let host : Host := { catalogue := c, weakTables := registries.map fun _ ↦ some {} }
  let s ← bindings.foldlM (fun s p ↦ addBinding s registries p) { world := { host := host } }
  return s.turn 0

/-- Follow one directive. -/
def follow (s : Session) : Directive → Session
  | .act a =>
    let (_, world) := ((a.perform (Exec.runner (fuel s.world))).run s.world).run
    { s with world := world }
  | .turn k => s.turn k

/-- Follow directives in order. -/
def run (s : Session) (directives : List Directive) : Session :=
  directives.foldl follow s

/-- The reports, in order. -/
def reports (s : Session) : List Entry :=
  s.world.desk.reports.reverse

end Session

end ObjectBridge
