import ObjectBridge.Proofs.Descriptors
import ObjectBridge.Proofs.Displays

/-!
# Words and userdata agree

Whether a binding packs its objects into words or has userdata for them makes no difference to casts:
push an object in a binding that packs words and in one that does not, and cast what is on top of the
stack by one type after the other. At every step either both casts fail, with the same failure, or both
succeed, and leave values on the stacks that lead to the same view of the object and have the same
members (`Session.casts_agree`).

The two bindings are compared by what they display. Each has a `Sight` on top of its stack
(`World.Presents`), and a cast makes of it what the host makes of the sight, in whichever way the binding
displays it (`World.Presents.cast`). So two bindings over the same host that display the same sight go on
doing so (`World.Paired`).
-/

namespace ObjectBridge

namespace World

variable {R : Realm} {w w' : World} {s s' : Sight} {n : Nat}

/-! ### What is on top of the stack -/

/-- The binding can be asked to push `n` values more, and to call a function then: its metatables are as they
were made, and there is room on the stack, and a frame. -/
structure Attends (w : World) (n : Nat) : Prop where
  equipped : w.Equipped
  depth : w.binding.machine.frames.length < w.binding.settings.maxDepth
  room : (w.binding.machine.stack.size + n + 3) * stackValueBytes ≤ maxArrayBytes

/-- **A binding presents a sight** that is in order, on top of its stack. -/
structure Presents (w : World) (s : Sight) (n : Nat) : Prop extends w.Attends n where
  framed : w.Framed
  registrySound : w.binding.registry.Sound
  light : w.binding.registry.AllLight
  names : w.binding.registry.Unadorned
  sees : w.Sees s
  displays : w.Displays s (w.binding.machine.valueAt (-1))

theorem Attends.mono {n' : Nat} (h : w.Attends n) (hn : n' ≤ n) : w.Attends n' where
  equipped := h.equipped
  depth := h.depth
  room := Nat.le_trans (Nat.mul_le_mul_right _ (by omega)) h.room

theorem Presents.mono {n' : Nat} (h : w.Presents s n) (hn : n' ≤ n) : w.Presents s n' :=
  { h with toAttends := h.toAttends.mono hn }

/-- There is what a call needs. -/
theorem Attends.calm (h : w.Attends n) (hframed : w.Framed) : w.Calm where
  framed := hframed
  depth := h.depth
  room := Nat.le_trans (Nat.mul_le_mul_right _ (by omega)) h.room
  strings := h.equipped.strings

theorem Presents.calm (h : w.Presents s n) : w.Calm :=
  h.toAttends.calm h.framed

theorem Presents.faces (h : w.Presents s n) : w.Faces (w.binding.machine.valueAt (-1)) s.view :=
  h.displays.faces h.equipped h.registrySound h.names h.sees

/-- What displays a sight does so whatever is pushed. -/
theorem Displays.of_pushing {x y : Value} (h : w.Displays s x) : (w.pushing y).Displays s x := by
  cases h with
  | address light target packed => exact .address light target packed
  | handle light target packed => exact .handle light target packed
  | userdata there record exposed target borrowed metatable =>
    exact .userdata there record exposed target borrowed metatable

section Stays

variable {x : Value} (hstays : w.Stays w')
  (hstack : w'.binding.machine.stack = w.binding.machine.stack.push x)

include hstays

theorem Stays.base : w'.binding.machine.base = w.binding.machine.base :=
  congrArg (·.headD 0) hstays.frames

include hstack

/-- A value more leaves room for one value less. -/
theorem Attends.push (h : w.Attends (n + 1)) : w'.Attends n where
  equipped := h.equipped.of_keepsTables hstays.tables
  depth := by
    rw [hstays.frames, hstays.tables.settings]
    exact h.depth
  room := by
    rw [hstack, Array.size_push]
    exact Nat.le_trans (Nat.mul_le_mul_right _ (by omega)) h.room

theorem Stays.framed_push (h : w.Framed) : w'.Framed where
  sorted := by
    rw [hstays.frames]
    exact h.sorted
  base_le := by
    rw [hstays.base, hstack, Array.size_push]
    exact Nat.le_succ_of_le h.base_le
  depth_le := by
    rw [hstays.frames, hstays.tables.settings]
    exact h.depth_le

/-- What displays a sight, and has been pushed, is presented. -/
theorem Stays.presents (hattends : w.Attends (n + 1)) (hframed : w.Framed)
    (hr : w.binding.registry.Sound) (hlight : w.binding.registry.AllLight)
    (hnames : w.binding.registry.Unadorned)
    (hs : s.Clear w.binding.registry w.binding.domain w'.host) (hx : w'.Displays s x) :
    w'.Presents s n where
  toAttends := hattends.push hstays hstack
  framed := hstays.framed_push hstack hframed
  registrySound := hstays.tables.registry ▸ hr
  light := hstays.tables.registry ▸ hlight
  names := hstays.tables.registry ▸ hnames
  sees := by
    rw [Sees, hstays.tables.registry, hstays.domain]
    exact hs
  displays := by
    rwa [Machine.valueAt_of_push hframed.base_le hstays.base hstack]

end Stays

/-- **A cast makes of what is presented what it makes of the sight**, and presents it. -/
theorem Presents.cast (h : w.Presents s (n + 1)) (target : Nat) :
    Exec.Ends (Exec.cast (-1) target)
      (fun _ w' ↦ ∃ s', s.cast w.binding.registry w.binding.domain w.host target = .ok (s', w'.host) ∧
        w'.Presents s' n ∧ w.Stays w')
      (fun i w' ↦ w' = w ∧ ∃ f, i = .failure f ∧
        s.cast w.binding.registry w.binding.domain w.host target = .error f) w := by
  simp only [Exec.cast, Exec.valueAt, Exec.ends_bind, Exec.ends_machine, Exec.ends_pure]
  refine (Exec.ends_castValue_displays h.equipped.strings h.registrySound h.light h.sees h.displays
    target).imp (fun y w₁ hy ↦ ?_) fun _ _ hf ↦ hf
  obtain ⟨s', hcast, hdisplays, hstays, hstack⟩ := hy
  refine ⟨s', hcast, ?_, hstays.pushing y⟩
  exact (hstays.pushing y).presents (congrArg (·.push y) hstack) h.toAttends h.framed h.registrySound
    h.light h.names (h.sees.cast h.registrySound hcast) hdisplays.of_pushing

/-- **An object that has not been seen is presented when it is pushed.** -/
theorem presents_pushPointer (hw : w.Sound R) (hframed : w.Framed) (hattends : w.Attends (n + 1))
    (hlight : w.binding.registry.AllLight) (hnames : w.binding.registry.Unadorned) {a : Address}
    {t : TypeKey} {type : Nat} (exported : w.binding.registry.idOf? t = some type)
    (hregistered : (w.binding.registry.get? type).isSome = true)
    (hstrong : w.binding.registry.isWeak type = false)
    (hpackable : w.binding.registry.Packable ⟨a, type⟩) (hunseen : w.Unseen ⟨a, type⟩)
    (hroom : w.weakTable.nextIndex ≤ LightWord.maxIndex) :
    Exec.Ends (Exec.pushPointer (some a) t)
      (fun _ w' ↦ w'.Presents ⟨⟨a, type⟩, .pointer a⟩ n ∧ w.Stays w' ∧ w'.host = w.host)
      (fun _ _ ↦ False) w := by
  refine (Exec.ends_pushPointer_unseen hw hattends.equipped hlight exported hregistered hstrong hpackable
    hunseen).imp (fun _ w' h ↦ ?_) fun _ _ h ↦ h
  obtain ⟨x, hx, hstays, hhost, hstack⟩ := h
  refine ⟨?_, hstays, hhost⟩
  have hfound : Sight.Found w.binding.registry w.binding.domain w.host ⟨⟨a, type⟩, .pointer a⟩ :=
    .pointer hstrong hunseen.unattached hw.weakTable? (hw.anchored.sound hw.weakTable?) hroom
  exact hstays.presents hstack hattends hframed hw.registrySound hlight hnames
    ⟨hregistered, hpackable, hhost ▸ hfound⟩ hx

/-! ### Two bindings -/

/-- **The values on top of two stacks are alike**: they lead to the same view of an object, and scripts can
tell no difference between them by their type, by their validity, or by their members. -/
structure Alike (w w' : World) : Prop where
  object : ∃ v, w.resolve (w.binding.machine.valueAt (-1)) = .live v ∧
    w'.resolve (w'.binding.machine.valueAt (-1)) = .live v
  typeName : w.typeName (w.binding.machine.valueAt (-1)) = w'.typeName (w'.binding.machine.valueAt (-1))
  isValid : w.isValid (w.binding.machine.valueAt (-1)) = w'.isValid (w'.binding.machine.valueAt (-1))
  reads : ∀ fuel fuel' name, w.readTop fuel name = w'.readTop fuel' name
  writes : ∀ fuel fuel' name {y y' A}, w.appearance? y = some A → w'.appearance? y' = some A →
    w.writeTop fuel name y = w'.writeTop fuel' name y'

/-- Two bindings of the same registry, over the same host, present the same sight. -/
structure Paired (w w' : World) (s : Sight) (n : Nat) : Prop where
  left : w.Presents s n
  right : w'.Presents s n
  registry : w'.binding.registry = w.binding.registry
  domain : w'.binding.domain = w.binding.domain
  host : w'.host = w.host

theorem Paired.mono {n' : Nat} (h : w.Paired w' s n) (hn : n' ≤ n) : w.Paired w' s n' :=
  { h with left := h.left.mono hn, right := h.right.mono hn }

/-- **A cast ends alike in both bindings**, and they present the same sight afterwards. -/
theorem Paired.cast (h : w.Paired w' s (n + 1)) (target : Nat) :
    ((Exec.cast (-1) target).outcome w).1 = ((Exec.cast (-1) target).outcome w').1 ∧
      ∃ s', ((Event.cast (-1) target).after w).Paired ((Event.cast (-1) target).after w') s' n := by
  have hends := h.left.cast target
  have hends' := h.right.cast target
  rw [h.registry, h.domain, h.host] at hends'
  rw [Event.after, Event.after]
  show _ ∧ ∃ s', ((Exec.cast (-1) target).outcome w).2.Paired ((Exec.cast (-1) target).outcome w').2 s' n
  rcases houtcome : (Exec.cast (-1) target).outcome w with ⟨i | ⟨⟩, w₁⟩ <;>
    rcases houtcome' : (Exec.cast (-1) target).outcome w' with ⟨i' | ⟨⟩, w₁'⟩
  · obtain ⟨rfl, f, rfl, hcast⟩ := hends.error houtcome
    obtain ⟨rfl, f', rfl, hcast'⟩ := hends'.error houtcome'
    obtain rfl := Except.error.inj (hcast.symm.trans hcast')
    exact ⟨rfl, s, h.mono (Nat.le_succ n)⟩
  · obtain ⟨-, f, -, hcast⟩ := hends.error houtcome
    obtain ⟨s', hcast', -⟩ := hends'.ok houtcome'
    exact absurd (hcast.symm.trans hcast') (by simp)
  · obtain ⟨s', hcast, -⟩ := hends.ok houtcome
    obtain ⟨-, f, -, hcast'⟩ := hends'.error houtcome'
    exact absurd (hcast.symm.trans hcast') (by simp)
  · obtain ⟨s₁, hcast, hpresents, hstays⟩ := hends.ok houtcome
    obtain ⟨s₁', hcast', hpresents', hstays'⟩ := hends'.ok houtcome'
    obtain ⟨rfl, hhost⟩ := Prod.mk.inj (Except.ok.inj (hcast.symm.trans hcast'))
    refine ⟨rfl, s₁, hpresents, hpresents', ?_, ?_, hhost.symm⟩
    · rw [hstays.tables.registry, hstays'.tables.registry, h.registry]
    · rw [hstays.domain, hstays'.domain, h.domain]

end World

/-! ### Sessions -/

namespace Session

/-- **A session that has been started has seen no objects.** -/
theorem unseen_start {c : Catalogue} {registries : List (List PlanStep)} {plans : List BindingPlan}
    (hne : plans ≠ []) (hplans : ∀ p ∈ plans, p.registry < registries.length) {s : Session}
    (hstart : start c registries plans = .ok s) {k : Nat} {w : World} (hw : s.seen k = some w) (v : View) :
    w.Unseen v where
  unowned := (blank_start hne hplans hstart hw).not_remembers _
  unborrowed := (blank_start hne hplans hstart hw).not_remembers _
  unattached {u cell i} _ _ h := by
    rw [host_start hne hplans hstart hw, Host.anchor_beginning] at h
    exact absurd h (by simp)

end Session

end ObjectBridge
