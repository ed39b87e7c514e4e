import ObjectBridge.Library
import ObjectBridge.Program.Operand

/-!
# Actions on containers of the host
-/

namespace ObjectBridge

namespace Exec

/-- Put a container into the memory of the host. -/
def createContainer (c : Container) : Exec Address :=
  updateHost (·.addContainer c)

/-- Do something with the container of a name; nothing is done when there is none. -/
def withContainer (name : String) (body : ContainerKind → Address → Exec Report) :
    Exec Report := do
  match (← desk).containers.find? name with
  | some (kind, a) => body kind a
  | none => return .nothing

end Exec

/-- Make the call of an action on containers and report its outcome. -/
def ContainerAction.perform : ContainerAction → Exec Report
  | create name kind content => do
    let a ← Exec.createContainer content
    Exec.modifyDesk fun d ↦ { d with containers := d.containers.insert name (kind, a) }
    return .nothing
  | examine name => Exec.withContainer name fun kind a ↦
    return (← Exec.host).contents kind a
  | pushPointer name => Exec.withContainer name fun kind a ↦
    Exec.silently (Exec.pushContainer kind (some a))
  | pushNull kind => Exec.silently (Exec.pushContainer kind none)
  | pushOwned kind content => do
    let a ← Exec.createContainer content
    Exec.silently (Exec.pushOwnedContainer kind a)
  | load idx kind => do
    let a ← Exec.containerAt kind idx
    return (← Exec.host).contents kind a
  | repush idx kind => do
    let a ← Exec.containerAt kind idx
    Exec.silently (Exec.pushContainer kind (some a))

end ObjectBridge
