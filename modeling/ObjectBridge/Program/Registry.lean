import ObjectBridge.Program.Object

/-!
# Questions to the registry

Addresses are reported as offsets from the start of the object they belong to.
-/

namespace ObjectBridge

/-- The offset of `a` from the start of an object at `start`. -/
def Address.offsetFrom (a start : Address) : Int :=
  (a.toInt64 - start.toInt64).toInt

namespace Exec

/-- The object of a name at the address where it is a `view`, as the type exported under a name:
where the object starts, and the view. -/
def withView (name : String) (view : TypeKey) (type : String)
    (body : Address → View → Exec Report) : Exec Report :=
  withObject name fun t start ↦ do
    match (← registry).find? type with
    | some type =>
      let a ← viewAddress t start view
      body start ⟨a, type⟩
    | none => return .nothing

/-- Report an address that may be missing, as an offset. -/
def shownOffset (start : Address) (a : Option Address) : Report :=
  match a with
  | some a => .count (a.offsetFrom start)
  | none => .nothing

end Exec

/-- Answer a question to the registry. -/
def RegistryAction.perform : RegistryAction → Exec Report
  | isBase x y => do
    let r ← Exec.registry
    match r.find? x, r.find? y with
    | some x, some y => return .flag (r.isBaseOf x y)
    | _, _ => return .flag false
  | find name => return Exec.shownCount ((← Exec.registry).find? name)
  | typeId t => return Exec.shownCount ((← Exec.registry).idOf? t)
  | nameOf id => do
    let r ← Exec.registry
    return .list [.text (r.nameOf id), .text (r.nameOf id),
      Exec.shownText ((r.get? id).map (·.name))]
  | toSuper name view type target => Exec.withView name view type fun start v ↦ do
    let r ← Exec.registry
    return Exec.shownOffset start ((r.find? target).bind (r.toSuper? v))
  | toDerived name view type target => Exec.withView name view type fun start v ↦ do
    let r ← Exec.registry
    let memory := (← Exec.host).memory
    return Exec.shownOffset start ((r.find? target).bind (r.toDerived? memory v))
  | root name view type => Exec.withView name view type fun start v ↦ do
    let r ← Exec.registry
    return .list [.count ((r.root v).address.offsetFrom start), .text (r.nameOf (r.root v).type)]
  | settings => do
    let s := (← Exec.binding).settings
    return .list [.flag s.lightUserdata, .flag s.lightUserdata, .text s.libraryName,
      .count s.maxDepth, .count s.cacheIncrement]

end ObjectBridge
