import Mathlib.Data.Set.Basic
import ObjectBridge.Heap.Trace

/-!
# What a trace marks

`Heap.Reaches h roots` is reachability as a least fixpoint: the roots, and whatever the links of a
reachable object name. `Heap.trace` computes it with a stack and a fuel, and `Heap.trace_spec` says
that it computes nothing else: a trace that starts from marks closed under links ends with exactly
what can be reached from those marks and from its roots marked, unless it ends at a stray reference,
which `Heap.trace_ok` rules out when there is a mark for every reference.

Three facts carry the proof:

* `Tracing.Frontier`: what is marked and not pending has its links marked. Every step of
  `Tracing.run` keeps this, and when nothing is pending the marks are closed;
* `Tracing.Discovers`: what following a list of links does to marks and pending objects at once;
* the number of pending objects and of marks not set, together, falls with every step, so the fuel
  of a trace, one more than there are marks, is never used up.
-/

namespace ObjectBridge

/-! ### Reachability -/

/-- The objects that can be reached from some roots. -/
inductive Heap.Reaches (h : Heap) (roots : Set Ref) : Ref → Prop
  | root {r : Ref} : r ∈ roots → Heap.Reaches h roots r
  | link {r r' : Ref} : Heap.Reaches h roots r → r' ∈ h.links r → Heap.Reaches h roots r'

/-- A set of objects that contains whatever the links of its members name. -/
def Heap.Closed (h : Heap) (s : Set Ref) : Prop :=
  ∀ r ∈ s, ∀ r' ∈ h.links r, r' ∈ s

namespace Heap

variable {h : Heap} {roots : Set Ref}

theorem closed_reaches (h : Heap) (roots : Set Ref) : h.Closed {r | h.Reaches roots r} :=
  fun _ hr _ hl ↦ .link hr hl

/-- Reachability is the least closed set that contains the roots. -/
theorem Reaches.mem_of_closed {s : Set Ref} (hs : h.Closed s) (hr : roots ⊆ s) {r : Ref}
    (h' : h.Reaches roots r) : r ∈ s := by
  induction h' with
  | root hm => exact hr hm
  | link _ hl ih => exact hs _ ih _ hl

theorem Reaches.mono {roots' : Set Ref} (hs : roots ⊆ roots') {r : Ref} (h' : h.Reaches roots r) :
    h.Reaches roots' r :=
  h'.mem_of_closed (closed_reaches h roots') fun _ hm ↦ .root (hs hm)

end Heap

/-! ### Marks -/

namespace Marks

variable (m : Marks)

/-- The marks of the kind of a reference. -/
def flags : Ref → Array Bool
  | .string _ => m.strings
  | .table _ => m.tables
  | .function _ => m.functions
  | .userdata _ => m.userdata

theorem has_eq_flags (r : Ref) : m.has r = (m.flags r)[r.id]?.getD false := by
  cases r <;> rfl

theorem covers_iff {r : Ref} : m.covers r = true ↔ r.id < (m.flags r).size := by
  rw [covers, decide_eq_true_iff]
  cases r <;> rfl

theorem stray?_eq_none_iff {r : Ref} : m.stray? r = none ↔ m.covers r = true := by
  simp [stray?]

theorem covers_add {r r' : Ref} : (m.add r).covers r' = true ↔ m.covers r' = true := by
  rw [covers_iff, covers_iff]
  cases r <;> cases r' <;> simp [flags, add]

private theorem getD_set {a : Array Bool} {i : Nat} (hi : i < a.size) (j : Nat) :
    (a.setIfInBounds i true)[j]?.getD false = true ↔ j = i ∨ a[j]?.getD false = true := by
  rw [Array.getElem?_setIfInBounds]
  by_cases hij : i = j
  · subst hij; simp [hi]
  · have hji : j ≠ i := fun e ↦ hij e.symm
    simp [hij, hji]

/-- **Marking an object marks that object and no other.** -/
theorem has_add {r : Ref} (h : m.covers r = true) (r' : Ref) :
    (m.add r).has r' = true ↔ r' = r ∨ m.has r' = true := by
  rw [covers_iff] at h
  cases r <;> cases r' <;> simp [add, has] <;> exact getD_set h _

/-- The number of marks that are not set. -/
def unset : Nat :=
  m.strings.count false + m.tables.count false + m.functions.count false + m.userdata.count false

private theorem count_false_set {a : Array Bool} {i : Nat} (hi : i < a.size)
    (h : a[i]?.getD false = false) : (a.setIfInBounds i true).count false + 1 = a.count false := by
  rw [Array.getElem?_eq_getElem hi, Option.getD_some] at h
  have hpos : 0 < a.count false := Array.count_pos_iff.2 (h ▸ Array.getElem_mem hi)
  rw [Array.setIfInBounds, dif_pos hi, Array.count_set hi, h]
  simp only [BEq.rfl, if_true]
  simp only [Bool.true_beq, Bool.false_eq_true, if_false]
  omega

/-- Marking an object that was not marked leaves one mark less to set. -/
theorem unset_add {r : Ref} (hc : m.covers r = true) (h : ¬ m.has r = true) :
    (m.add r).unset + 1 = m.unset := by
  rw [covers_iff] at hc
  rw [has_eq_flags, Bool.not_eq_true] at h
  have hset := count_false_set hc h
  cases r <;> simp only [add, unset, flags, Ref.id] at hset ⊢ <;> omega

theorem unset_le_size : m.unset ≤ m.size := by
  have hs : m.strings.count false ≤ m.strings.size := Array.count_le_size
  have ht : m.tables.count false ≤ m.tables.size := Array.count_le_size
  have hf : m.functions.count false ≤ m.functions.size := Array.count_le_size
  have hu : m.userdata.count false ≤ m.userdata.size := Array.count_le_size
  simp only [unset, size]
  omega

end Marks

/-! ### Following a list of links -/

namespace Tracing

variable {h : Heap}

/-- What following the links `l` makes of `t`: their targets are marked, and those that were not
marked before are pending. -/
structure Discovers (l : List Ref) (t t' : Tracing) : Prop where
  has_iff : ∀ r, t'.marks.has r = true ↔ t.marks.has r = true ∨ r ∈ l
  mem_pending_iff : ∀ r, r ∈ t'.pending ↔ r ∈ t.pending ∨ r ∈ l ∧ ¬ t.marks.has r = true
  covers_iff : ∀ r, t'.marks.covers r = true ↔ t.marks.covers r = true
  measure : t'.pending.length + t'.marks.unset = t.pending.length + t.marks.unset

theorem discover_spec {t t' : Tracing} {r : Ref} (h' : t.discover r = .ok t') :
    Discovers [r] t t' := by
  rw [discover] at h'
  cases hs : t.marks.stray? r with
  | some s => simp [hs] at h'
  | none =>
    have hc : t.marks.covers r = true := t.marks.stray?_eq_none_iff.1 hs
    simp only [hs, Except.ok.injEq] at h'
    subst h'
    by_cases hm : t.marks.has r = true
    · rw [if_pos hm]
      refine ⟨fun r' ↦ ⟨Or.inl, ?_⟩, fun r' ↦ ⟨Or.inl, ?_⟩, fun _ ↦ Iff.rfl, rfl⟩
      · rintro (h | h)
        · exact h
        · rw [List.mem_singleton.1 h]; exact hm
      · rintro (h | ⟨h, hn⟩)
        · exact h
        · exact absurd (List.mem_singleton.1 h ▸ hm) hn
    · rw [if_neg hm]
      refine ⟨fun r' ↦ ?_, fun r' ↦ ?_, fun r' ↦ t.marks.covers_add, ?_⟩
      · rw [t.marks.has_add hc, List.mem_singleton, or_comm]
      · constructor
        · intro h
          rcases List.mem_cons.1 h with rfl | h
          · exact Or.inr ⟨List.mem_singleton_self _, hm⟩
          · exact Or.inl h
        · rintro (h | ⟨h, -⟩)
          · exact List.mem_cons_of_mem _ h
          · rw [List.mem_singleton.1 h]; exact List.mem_cons_self
      · have := t.marks.unset_add hc hm
        simp only [List.length_cons]
        omega

theorem foldlM_discover_spec {l : List Ref} :
    ∀ {t t' : Tracing}, l.foldlM discover t = .ok t' → Discovers l t t' := by
  induction l with
  | nil =>
    intro t t' h'
    obtain rfl : t = t' := Except.ok.inj h'
    exact ⟨by simp, by simp, fun _ ↦ Iff.rfl, rfl⟩
  | cons r l ih =>
    intro t t' h'
    rw [List.foldlM_cons] at h'
    cases h₁ : t.discover r with
    | error s => rw [h₁] at h'; exact absurd h' (by simp [bind, Except.bind])
    | ok t₁ =>
      rw [h₁] at h'
      have d₁ := discover_spec h₁
      have d₂ := ih h'
      refine ⟨fun r' ↦ ?_, fun r' ↦ ?_, fun r' ↦ ?_, ?_⟩
      · rw [d₂.has_iff, d₁.has_iff, List.mem_singleton, List.mem_cons, or_assoc]
      · rw [d₂.mem_pending_iff, d₁.mem_pending_iff, d₁.has_iff, List.mem_singleton, List.mem_cons]
        by_cases hr : r' = r
        · subst hr; simp
        · simp [hr]
      · rw [d₂.covers_iff, d₁.covers_iff]
      · rw [d₂.measure, d₁.measure]

/-- Following links never meets a stray reference when every target has a mark. -/
theorem foldlM_discover_ok {l : List Ref} :
    ∀ {t : Tracing}, (∀ r ∈ l, t.marks.covers r = true) → ∃ t', l.foldlM discover t = .ok t' := by
  induction l with
  | nil => exact fun _ ↦ ⟨_, rfl⟩
  | cons r l ih =>
    intro t hl
    have hs := t.marks.stray?_eq_none_iff.2 (hl r List.mem_cons_self)
    obtain ⟨t₁, h₁⟩ : ∃ t₁, t.discover r = .ok t₁ := by rw [discover, hs]; exact ⟨_, rfl⟩
    obtain ⟨t₂, h₂⟩ := ih (t := t₁) fun r' hr ↦
      ((discover_spec h₁).covers_iff r').2 (hl r' (List.mem_cons_of_mem _ hr))
    exact ⟨t₂, by rw [List.foldlM_cons, h₁]; exact h₂⟩

/-! ### Following the links of everything pending -/

/-- The pending objects are the frontier of the marks: they are marked, and a marked object that is
not pending has its links marked. -/
structure Frontier (h : Heap) (t : Tracing) : Prop where
  has_of_mem_pending : ∀ r ∈ t.pending, t.marks.has r = true
  has_link : ∀ r, t.marks.has r = true → r ∉ t.pending → ∀ r' ∈ h.links r, t.marks.has r' = true

/-- Following more links keeps the frontier. -/
theorem Frontier.discovers {l : List Ref} {t t' : Tracing} (hf : Frontier h t)
    (hd : Discovers l t t') : Frontier h t' where
  has_of_mem_pending r hr := by
    rw [hd.has_iff]
    rcases (hd.mem_pending_iff r).1 hr with hr | ⟨hr, -⟩
    · exact Or.inl (hf.has_of_mem_pending r hr)
    · exact Or.inr hr
  has_link r hm hp r' hl := by
    rw [hd.mem_pending_iff, not_or, not_and_not_right] at hp
    rw [hd.has_iff] at hm ⊢
    have hm' : t.marks.has r = true := hm.elim id hp.2
    exact Or.inl (hf.has_link r hm' hp.1 r' hl)

/-- **One step keeps the frontier**: the links of the object marked last have been followed. -/
theorem Frontier.step {r : Ref} {rest : List Ref} {t t' : Tracing} (hf : Frontier h t)
    (hp : t.pending = r :: rest) (hd : Discovers (h.links r) ⟨t.marks, rest⟩ t') :
    Frontier h t' where
  has_of_mem_pending x hx := by
    rw [hd.has_iff]
    rcases (hd.mem_pending_iff x).1 hx with hx | ⟨hx, -⟩
    · exact Or.inl (hf.has_of_mem_pending x (hp ▸ List.mem_cons_of_mem _ hx))
    · exact Or.inr hx
  has_link x hm hx y hl := by
    rw [hd.mem_pending_iff, not_or, not_and_not_right] at hx
    rw [hd.has_iff] at hm ⊢
    by_cases hxr : x = r
    · exact Or.inr (hxr ▸ hl)
    · have hm' : t.marks.has x = true := hm.elim id hx.2
      have hx' : x ∉ t.pending := by
        rw [hp, List.mem_cons, not_or]
        exact ⟨hxr, hx.1⟩
      exact Or.inl (hf.has_link x hm' hx' y hl)

/-- What a trace makes of the marks `m`: what can be reached from `s` is marked. -/
structure Marked (h : Heap) (s : Set Ref) (m m' : Marks) : Prop where
  has_iff : ∀ r, m'.has r = true ↔ h.Reaches s r
  covers_iff : ∀ r, m'.covers r = true ↔ m.covers r = true

theorem Frontier.marked {t : Tracing} (hf : Frontier h t) (hp : t.pending = []) :
    Marked h {r | t.marks.has r = true} t.marks t.marks where
  has_iff r := by
    refine ⟨fun hm ↦ .root hm, fun hr ↦ ?_⟩
    refine hr.mem_of_closed (s := {r | t.marks.has r = true}) (fun x hx y hl ↦ ?_) subset_rfl
    exact hf.has_link x hx (by simp [hp]) y hl
  covers_iff _ := Iff.rfl

/-- **A run marks what can be reached from the marks it starts with.** The fuel has to be enough for
the objects that are pending and for those that may still become so. -/
theorem run_spec {fuel : Nat} :
    ∀ {t : Tracing} {m : Marks}, Frontier h t → t.pending.length + t.marks.unset ≤ fuel →
      t.run h fuel = .ok m → Marked h {r | t.marks.has r = true} t.marks m := by
  induction fuel with
  | zero =>
    intro t m hf hfuel hm
    obtain rfl : t.marks = m := Except.ok.inj hm
    exact hf.marked (List.length_eq_zero_iff.1 (by omega))
  | succ fuel ih =>
    intro t m hf hfuel hm
    rw [run] at hm
    cases hp : t.pending with
    | nil =>
      simp only [hp, Except.ok.injEq] at hm
      exact hm ▸ hf.marked hp
    | cons r rest =>
      simp only [hp] at hm
      cases hd : (h.links r).foldlM discover ⟨t.marks, rest⟩ with
      | error s => simp [hd] at hm
      | ok t' =>
        have d := foldlM_discover_spec hd
        have hmeasure := d.measure
        simp only [hp, List.length_cons] at hmeasure hfuel
        have hmk := ih (hf.step hp d) (by omega) (by simpa only [hd] using hm)
        refine ⟨fun x ↦ ?_, fun x ↦ ?_⟩
        · rw [hmk.has_iff]
          refine ⟨fun hx ↦ ?_, fun hx ↦ hx.mono fun y hy ↦ (d.has_iff y).2 (Or.inl hy)⟩
          -- what the step has marked is a link of `r`, which was marked before
          refine hx.mem_of_closed (Heap.closed_reaches h _) fun y hy ↦ ?_
          rcases (d.has_iff y).1 hy with hy | hy
          · exact .root hy
          · exact .link (.root (hf.has_of_mem_pending r (hp ▸ List.mem_cons_self))) hy
        · rw [hmk.covers_iff, d.covers_iff]

/-- A run ends with marks when there is a mark for every link of the heap. -/
theorem run_ok {fuel : Nat} :
    ∀ {t : Tracing}, (∀ r, ∀ r' ∈ h.links r, t.marks.covers r' = true) →
      ∃ m, t.run h fuel = .ok m := by
  induction fuel with
  | zero => exact fun _ ↦ ⟨_, rfl⟩
  | succ fuel ih =>
    intro t hl
    rw [run]
    cases t.pending with
    | nil => exact ⟨_, rfl⟩
    | cons r rest =>
      obtain ⟨t', hd⟩ := foldlM_discover_ok (t := ⟨t.marks, rest⟩) (hl r)
      obtain ⟨m, hm⟩ := ih (t := t') fun x y hy ↦
        ((foldlM_discover_spec hd).covers_iff y).2 (hl x y hy)
      exact ⟨m, by simpa only [hd] using hm⟩

end Tracing

/-! ### The trace -/

namespace Heap

variable {h : Heap} {m m' : Marks} {roots : List Ref}

/-- **A trace marks exactly what can be reached** from its roots and from the marks it starts
with, provided these are closed under links. -/
theorem trace_spec (hm : h.Closed {r | m.has r = true}) (ht : h.trace m roots = .ok m') :
    Tracing.Marked h {r | m.has r = true ∨ r ∈ roots} m m' := by
  rw [trace] at ht
  cases hd : roots.foldlM Tracing.discover ⟨m, []⟩ with
  | error s => simp [hd] at ht
  | ok t =>
    have d := Tracing.foldlM_discover_spec hd
    have hf : Tracing.Frontier h ⟨m, []⟩ :=
      ⟨fun r h ↦ absurd h List.not_mem_nil, fun r hr _ r' hl ↦ hm r hr r' hl⟩
    have hfuel : t.pending.length + t.marks.unset ≤ m.size + 1 := by
      have hmeasure := d.measure
      have hle := m.unset_le_size
      simp only [List.length_nil] at hmeasure
      omega
    have hmk := Tracing.run_spec (hf.discovers d) hfuel (by simpa only [hd] using ht)
    refine ⟨fun r ↦ ?_, fun r ↦ ?_⟩
    · have hset : {r | t.marks.has r = true} = {r | m.has r = true ∨ r ∈ roots} :=
        Set.ext fun x ↦ d.has_iff x
      rw [hmk.has_iff, hset]
    · rw [hmk.covers_iff, d.covers_iff]

/-- A trace ends with marks when there is a mark for every reference it can meet. -/
theorem trace_ok (hl : ∀ r, ∀ r' ∈ h.links r, m.covers r' = true)
    (hr : ∀ r ∈ roots, m.covers r = true) : ∃ m', h.trace m roots = .ok m' := by
  obtain ⟨t, ht⟩ := Tracing.foldlM_discover_ok (t := ⟨m, []⟩) hr
  obtain ⟨m', hrun⟩ : ∃ m', t.run h (m.size + 1) = .ok m' := Tracing.run_ok fun x y hy ↦
    ((Tracing.foldlM_discover_spec ht).covers_iff y).2 (hl x y hy)
  exact ⟨m', by rw [trace, ht]; exact hrun⟩

end Heap

end ObjectBridge
