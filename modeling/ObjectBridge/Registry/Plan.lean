import ObjectBridge.Registry.Builder

/-!
# Registration plans

A plan lists the steps of a registration. Running it gives the builder in the end, and for every
step the number of the type it was about and the number of clashes so far.
-/

namespace ObjectBridge

/-- One step of a registration. -/
inductive PlanStep where
  | create (t : TypeKey)
  | declare (t : TypeKey) (members : List (String × Member)) (close : Bool)
  /-- Register several types that have no members. -/
  | fill (types : List TypeKey)

/-- What a step led to: the number of its last type, and the number of clashes so far. -/
structure PlanNote where
  id : Option Nat
  conflicts : Nat
  deriving DecidableEq, Inhabited

namespace Builder

/-- The types that a step is about. -/
def stepTypes : PlanStep → List TypeKey
  | .create t => [t]
  | .declare t _ _ => [t]
  | .fill types => types

/-- Run one step. -/
def step (c : Catalogue) (b : Builder) : PlanStep → Builder
  | .create t => b.register c t
  | .declare t members close => b.declare c t members close
  | .fill types => types.foldl (fun b t ↦ b.register c t) b

/-- Run one step and note what it led to. -/
def notedStep (c : Catalogue) (state : Builder × List PlanNote) (s : PlanStep) :
    Builder × List PlanNote :=
  let b := state.1.step c s
  (b, state.2 ++ [⟨(stepTypes s).getLast?.map b.idOf, b.conflicts.size⟩])

/-- Run a plan from the beginning. -/
def runPlan (c : Catalogue) (plan : List PlanStep) : Builder × List PlanNote :=
  plan.foldl (notedStep c) ({}, [])

end Builder

/-- The registry that a plan leads to. -/
def Registry.ofPlan (c : Catalogue) (plan : List PlanStep) : Registry :=
  (Builder.runPlan c plan).1.build

/-- The members of a type, sorted by name. -/
def Descriptor.sortedMembers (d : Descriptor) : List (String × Member) :=
  d.members.toList.mergeSort fun x y ↦ x.1 ≤ y.1

end ObjectBridge
