import ObjectBridge.Proofs.Pushing

/-!
# Pushing what userdata own

Objects that belong to a userdata, shares, and containers. A new object of the host, a share of
another kind, or a new container may take over a key of the identity cache; these are the only steps
that give a key to another userdata while the one before could still stand for its object.
-/

namespace ObjectBridge

namespace Exec

variable {β : Type} {R : Realm} {K : Set CacheKey} {w : World}

/-- A computation with the number of an exported type; a type that is not exported is a failure. -/
theorem keeps_exportedType (hw : w.Sound R) {t : TypeKey} {f : Nat → Exec β}
    {Q : β → World → Prop}
    (hf : ∀ type, w.binding.registry.idOf? t = some type → Keeps R K (f type) Q w) :
    Keeps R K (exportedType t >>= f) Q w := by
  simp only [Keeps, exportedType, ends_bind, ends_registry]
  cases ht : w.binding.registry.idOf? t with
  | none =>
    simp only [typeKeyName, ends_bind, ends_host, ends_pure, ends_fail]
    exact World.Leads.refl hw
  | some type => exact hf type ht

/-- **Pushing the object at an address** pushes the object seen as the exported type. -/
theorem ends_pushPointer (hw : w.Sound R) {a : Address} {t : TypeKey} {type : Nat}
    (htype : w.binding.registry.idOf? t = some type)
    (hsingle : w.binding.registry.isWeak type = true → w.Single ⟨a, type⟩) :
    Ends (pushPointer (some a) t)
      (fun _ w' ↦ w.Leads R ∅ w' ∧ ∃ x, w'.top? = some x ∧ w.Pushed ⟨a, type⟩ w' x)
      (fun _ w' ↦ w.Leads R ∅ w' ∧ w.Unknown ⟨a, type⟩ w') w := by
  simp only [pushPointer, exportedType, ends_bind, ends_registry, htype, ends_pure]
  exact keeps_pushView hw hsingle

theorem keeps_pushPointer (hw : w.Sound R) (a : Option Address) (t : TypeKey)
    (hsingle : ∀ a' type, a = some a' → w.binding.registry.idOf? t = some type →
      w.binding.registry.isWeak type = true → w.Single ⟨a', type⟩) :
    Keeps R ∅ (pushPointer a t) (fun _ _ ↦ True) w := by
  cases a with
  | none => exact (keeps_push hw .nil).imp fun _ _ _ _ ↦ trivial
  | some a =>
    simp only [pushPointer]
    refine keeps_exportedType hw fun type htype ↦ ?_
    exact (keeps_pushView hw (hsingle a type rfl htype)).imp (fun _ _ h ↦ ⟨h.1, trivial⟩)
      fun _ _ h ↦ h.1

/-! ### Owned objects -/

/-- The record of an owned object fits the key of the object. -/
theorem fits_owned (r : Registry) (root a : Address) (type : Nat) (p : Option Payload) :
    Record.Fits r ⟨root, .declared type, .owned, .pointer a, p⟩ (.owned root) where
  not_discarded := rfl
  cacheKey := rfl
  handle hk := absurd hk (by simp)

/-- **Pushing an object that belongs to its userdata** makes a new userdata, and it is remembered
unless objects of the type have no data. -/
theorem keeps_pushOwned (hw : w.Sound R) (t : TypeKey) (a : Address)
    (hK : ∀ type, w.binding.registry.idOf? t = some type →
      (w.host.catalogue.declaration t).size ≠ 0 → .owned (w.rootOf ⟨a, type⟩) ∈ K) :
    Keeps R K (pushOwned t a)
      (fun _ w' ↦ ∃ type id, w.binding.registry.idOf? t = some type ∧
        w'.top? = some (.userdata id) ∧ w.record? id = none ∧
        ((w.host.catalogue.declaration t).size ≠ 0 →
          w'.Remembers (.owned (w.rootOf ⟨a, type⟩)) id)) w := by
  rw [pushOwned]
  refine keeps_exportedType hw fun type htype ↦ ?_
  simp only [Keeps, ends_bind, ends_binding, ends_typeMetatable]
  refine Ends.imp (keeps_pushRecord (K := K) hw (issuable_pointer _ _ _ _ _ _) _)
    (fun id w₁ hpush ↦ ?_) fun _ _ h ↦ h.elim
  obtain ⟨h₁, hissues, hremembers⟩ := hpush
  simp only [ends_bind, ends_host]
  split
  · rename_i hsize
    have hnew : ∀ k', ¬ w₁.Remembers k' id := fun k' h ↦
      hw.not_remembers_of_record?_eq_none hissues.fresh k' ((hremembers k' id).1 h)
    rw [hissues.host] at hsize
    have hgive := hK type htype hsize
    refine (keeps_enrol (K := K) h₁.sound hissues.record hnew (fun _ ↦ fits_owned _ _ _ _ _)
      (fun _ _ ↦ hgive) (fun _ _ ↦ hgive)).imp (fun _ w' h ↦ ?_) fun _ _ h ↦ h₁.trans h.1
    obtain ⟨h₂, -, hstack, -, hremembers'⟩ := h
    exact ⟨h₁.trans h₂, type, id, htype, World.top?_of_stack (hstack.trans hissues.stack),
      hissues.fresh, fun _ ↦ (hremembers' _ _).2 (Or.inl ⟨rfl, rfl⟩)⟩
  · rename_i hsize
    rw [hissues.host] at hsize
    exact ⟨h₁, type, id, htype, hissues.top?, hissues.fresh, fun h ↦ absurd h hsize⟩

/-! ### Shares -/

/-- A question about a userdata and a block changes nothing. -/
theorem ends_ownsLike (id block : Nat) {Q : Bool → World → Prop} {E : Interrupt → World → Prop}
    (hQ : ∀ b, Q b w) : Ends (ownsLike id block) Q E w := by
  simp only [ownsLike, ends_bind, ends_host, ends_machine]
  split
  · exact hQ _
  · exact hQ _

/-- The record of a share fits the key of the object. -/
theorem fits_shared (r : Registry) (root a : Address) (type : Nat) (p : Option Payload) :
    Record.Fits r ⟨root, .declared type, .shared, .pointer a, p⟩ (.shared root) where
  not_discarded := rfl
  cacheKey := rfl
  handle hk := absurd hk (by simp)

/-- **Pushing a share** keeps up what the bridge keeps up. The key of the object may go from a share
of another kind to the new one. -/
theorem keeps_pushShare (hw : w.Sound R) (block : Nat) (hK : ∀ root, .shared root ∈ K) :
    Keeps R K (pushShare block) (fun _ _ ↦ True) w := by
  rw [pushShare, Keeps, ends_bind, ends_host]
  generalize (w.host.blocks[block]?).getD default = b
  refine keeps_exportedType hw fun type _ ↦ ?_
  simp only [Keeps, ends_bind, ends_registry]
  have hretrieve := keeps_retrieve (K := K) hw
    (k := .shared (w.binding.registry.root ⟨b.address, type⟩).address)
    (fun id ↦ ownsLike id block) (U := fun _ ↦ True) (P := fun _ _ ↦ True)
    fun id hr ↦ ends_ownsLike _ _ fun ok ↦ by
      cases ok with
      | true => exact Or.inl ⟨rfl, World.Leads.refl
          (World.Leads.quiet (K := K) hw (w.quiet_pushing (.userdata id))).sound, trivial⟩
      | false => exact Or.inr ⟨rfl, Or.inl ⟨rfl, Or.inl (hK _)⟩, trivial⟩
  refine hretrieve.imp (fun found w₁ hfound ↦ ?_) fun _ _ h ↦ h.elim
  obtain ⟨h₁, ⟨rfl, -⟩ | ⟨rfl, -⟩⟩ := hfound
  · exact ⟨h₁, trivial⟩
  · simp only [Bool.false_eq_true, if_false, ends_bind, ends_typeMetatable]
    exact (keeps_pushNew (K := K) h₁.sound (issuable_pointer _ _ _ _ _ _)
      (fun _ ↦ fits_shared _ _ _ _ _) (fun _ _ ↦ hK _) (fun _ hk ↦ absurd hk (by simp)) _).imp
        (fun _ w' h ↦ ⟨h₁.trans h.1, trivial⟩) fun _ _ h ↦ h₁.trans h.1

/-! ### Containers -/

/-- The record of a container fits the key of the container. -/
theorem fits_container (r : Registry) (a : Address) (kind : ContainerKind) {o : Ownership}
    (ho : o ≠ .shared) (p : Option Payload) :
    Record.Fits r ⟨a, .container kind, o, .pointer a, p⟩ (.container a kind) where
  not_discarded := rfl
  cacheKey := by
    cases o with
    | borrowed | owned => rfl
    | shared => exact absurd rfl ho
  handle hk := absurd hk (by simp)

/-- **Pushing a container that belongs to its userdata** makes a new userdata. -/
theorem keeps_pushOwnedContainer (hw : w.Sound R) (kind : ContainerKind) (a : Address)
    (hK : .container a kind ∈ K) :
    Keeps R K (pushOwnedContainer kind a)
      (fun _ w' ↦ ∃ id, w'.top? = some (.userdata id) ∧ w.record? id = none ∧
        w'.Remembers (.container a kind) id) w := by
  simp only [Keeps, pushOwnedContainer, ends_bind, ends_binding]
  refine (keeps_pushNew (K := K) hw (issuable_pointer _ _ _ _ _ _)
    (fun _ ↦ fits_container _ _ _ (by simp) _) (fun _ _ ↦ hK)
    (fun _ hk ↦ absurd hk (by simp)) _).imp (fun _ w' h ↦ ?_) fun _ _ h ↦ h.1
  obtain ⟨hleads, id, hissues, hremembers⟩ := h
  exact ⟨hleads, id, hissues.top?, hissues.fresh, (hremembers _ _).2 (Or.inl ⟨rfl, rfl⟩)⟩

/-- **Pushing a container of the host** pushes the userdata that is remembered for it, and makes one
if there is none. -/
theorem keeps_pushContainer (hw : w.Sound R) (kind : ContainerKind) (a : Option Address) :
    Keeps R K (pushContainer kind a)
      (fun _ w' ↦ ∀ a', a = some a' → ∃ id, w'.top? = some (.userdata id) ∧
        w'.Remembers (.container a' kind) id ∧
        ∀ id', w.Remembers (.container a' kind) id' → id' = id) w := by
  cases a with
  | none => exact (keeps_push hw .nil).imp fun _ _ _ _ a' ha ↦ absurd ha (by simp)
  | some a =>
    simp only [Keeps, pushContainer, ends_bind]
    refine (ends_retrieve_any hw (.container a kind)).imp (fun found w₁ hfound ↦ ?_) fun _ _ h ↦ h.elim
    rcases hfound with ⟨rfl, id, hr, rfl⟩ | ⟨rfl, hnone, hforgot⟩
    · refine ⟨(World.Leads.refl hw).pushing _, fun a' ha ↦ ?_⟩
      obtain rfl := Option.some.inj ha
      exact ⟨id, w.top?_pushing _, hr, fun id' hr' ↦ hr'.unique hr⟩
    · have h₁ : w.Leads R K w₁ ∧ ∀ id, ¬ w₁.Remembers (.container a kind) id := by
        rcases hforgot with ⟨rfl, -⟩ | ⟨e, he, rfl⟩
        · exact ⟨World.Leads.refl hw, hnone⟩
        · exact ⟨World.Leads.forget hw he fun id hr ↦ absurd hr (hnone id), fun id hr ↦
            hnone id (((hw.sameMemory_forgetting he hnone).remembers _ _).1 hr)⟩
      simp only [Bool.false_eq_true, if_false, ends_bind, ends_binding]
      refine (keeps_pushNew (K := K) h₁.1.sound (issuable_pointer _ _ _ _ _ _)
        (fun _ ↦ fits_container _ _ _ (by simp) _) (fun id hr ↦ absurd hr (h₁.2 id))
        (fun _ hk ↦ absurd hk (by simp)) _).imp (fun _ w' h ↦ ?_) fun _ _ h ↦ h₁.1.trans h.1
      obtain ⟨h₂, id, hissues, hremembers⟩ := h
      refine ⟨h₁.1.trans h₂, fun a' ha ↦ ?_⟩
      obtain rfl := Option.some.inj ha
      exact ⟨id, hissues.top?, (hremembers _ _).2 (Or.inl ⟨rfl, rfl⟩),
        fun id' hr' ↦ absurd hr' (hnone id')⟩

end Exec

end ObjectBridge
