/-!
# Finite maps

A `Dict` is a list of bindings in which no key occurs twice. The absence of repeated keys is part
of the type, so the number of bindings is the number of keys, and a listing of the bindings visits
every key once. A dictionary is read through `find?`; the lemmas of this file say what each
operation does to it:

* `find?_insert`, `find?_erase` and `find?_filter` for the three ways of changing a dictionary;
* `mem_toList_iff` for the listing.

New keys go to the front of the list, and a key that is bound again keeps its place.
-/

universe u v

namespace ObjectBridge

/-- A finite map: bindings without a repeated key. -/
structure Dict (κ : Type u) (ν : Type v) where
  /-- The bindings, newest key first. -/
  toList : List (κ × ν)
  /-- No key is bound twice. -/
  nodup_keys : (toList.map Prod.fst).Nodup

namespace Dict

variable {κ : Type u} {ν : Type v}

/-- The dictionary without bindings. -/
def empty : Dict κ ν :=
  ⟨[], List.nodup_nil⟩

instance : EmptyCollection (Dict κ ν) := ⟨empty⟩

instance : Inhabited (Dict κ ν) := ⟨empty⟩

/-- The bound keys, newest first. -/
def keys (d : Dict κ ν) : List κ :=
  d.toList.map Prod.fst

/-- The bound values, in the order of their keys. -/
def values (d : Dict κ ν) : List ν :=
  d.toList.map Prod.snd

/-- The number of bindings. -/
def size (d : Dict κ ν) : Nat :=
  d.toList.length

/-- The bindings that satisfy `p`. -/
def filter (d : Dict κ ν) (p : κ → ν → Bool) : Dict κ ν :=
  ⟨d.toList.filter fun b ↦ p b.1 b.2, (List.filter_sublist.map Prod.fst).nodup d.nodup_keys⟩

variable [DecidableEq κ]

/-- The value bound to `k`. -/
def find? (d : Dict κ ν) (k : κ) : Option ν :=
  (d.toList.find? fun b ↦ b.1 = k).map Prod.snd

/-- Whether `k` is bound. -/
def contains (d : Dict κ ν) (k : κ) : Bool :=
  (d.find? k).isSome

/-- The dictionary without the binding of `k`. -/
def erase (d : Dict κ ν) (k : κ) : Dict κ ν :=
  d.filter fun k' _ ↦ k' ≠ k

/-- Replace the value of the binding of `k`, if there is one. -/
private def rebind (k : κ) (v : ν) : List (κ × ν) → List (κ × ν) :=
  List.map fun b ↦ if b.1 = k then (k, v) else b

private theorem keys_rebind (k : κ) (v : ν) (l : List (κ × ν)) :
    (rebind k v l).map Prod.fst = l.map Prod.fst := by
  induction l with
  | nil => rfl
  | cons b l ih =>
    by_cases h : b.1 = k <;> simp_all [rebind]

private theorem find?_eq_none_iff_list (k : κ) (l : List (κ × ν)) :
    (l.find? fun b ↦ b.1 = k) = none ↔ k ∉ l.map Prod.fst := by
  rw [List.find?_eq_none]
  constructor
  · intro h hm
    obtain ⟨b, hb, e⟩ := List.mem_map.1 hm
    exact absurd e (by simpa using h b hb)
  · intro h b hb
    simpa using fun e ↦ h (List.mem_map.2 ⟨b, hb, e⟩)

/-- Bind `k` to `v`, in place of any value it was bound to. -/
def insert (d : Dict κ ν) (k : κ) (v : ν) : Dict κ ν :=
  if h : (d.toList.find? fun b ↦ b.1 = k) = none then
    ⟨(k, v) :: d.toList,
      List.nodup_cons.2 ⟨(find?_eq_none_iff_list k d.toList).1 h, d.nodup_keys⟩⟩
  else
    ⟨rebind k v d.toList, by rw [keys_rebind]; exact d.nodup_keys⟩

/-- The dictionary of a list of bindings, in which a later binding of a key wins. -/
def ofList (bs : List (κ × ν)) : Dict κ ν :=
  bs.foldl (fun d b ↦ d.insert b.1 b.2) empty

/-! ### Reading after a change -/

@[simp]
theorem find?_empty (k : κ) : (empty : Dict κ ν).find? k = none :=
  rfl

private theorem find?_rebind (k k' : κ) (v : ν) (l : List (κ × ν))
    (h : k ∈ l.map Prod.fst) :
    ((rebind k v l).find? fun b ↦ b.1 = k').map Prod.snd =
      if k' = k then some v else (l.find? fun b ↦ b.1 = k').map Prod.snd := by
  induction l with
  | nil => simp at h
  | cons b l ih =>
    by_cases hb : b.1 = k
    · by_cases hk : k' = k
      · simp [rebind, hb, hk]
      · have hne : ¬ k = k' := fun e ↦ hk e.symm
        have hl : ((rebind k v l).find? fun b ↦ b.1 = k').map Prod.snd =
            (l.find? fun b ↦ b.1 = k').map Prod.snd := by
          by_cases hm : k ∈ l.map Prod.fst
          · rw [ih hm, if_neg hk]
          · congr 1
            have : rebind k v l = l := by
              unfold rebind
              conv => rhs; rw [← List.map_id l]
              refine List.map_congr_left fun c hc ↦ ?_
              have : c.1 ≠ k := fun e ↦ hm (List.mem_map.2 ⟨c, hc, e⟩)
              simp [this]
            rw [this]
        have : ¬ b.1 = k' := fun e ↦ hne (hb ▸ e)
        simpa [rebind, hb, hk, hne, this] using hl
    · have hm : k ∈ l.map Prod.fst := by
        rcases List.mem_cons.1 h with h | h
        · exact absurd h.symm hb
        · exact h
      by_cases hk' : b.1 = k'
      · have : ¬ k' = k := fun e ↦ hb (hk'.trans e)
        simp [rebind, hk', this]
      · simpa [rebind, hb, hk'] using ih hm

/-- After an insertion, `k` reads as the inserted value and every other key as before. -/
theorem find?_insert (d : Dict κ ν) (k k' : κ) (v : ν) :
    (d.insert k v).find? k' = if k' = k then some v else d.find? k' := by
  by_cases h : (d.toList.find? fun b ↦ b.1 = k) = none
  · by_cases hk : k = k'
    · subst hk; simp [insert, h, find?]
    · have hk' : ¬ k' = k := fun e ↦ hk e.symm
      simp [insert, h, find?, hk, hk']
  · have hm : k ∈ d.toList.map Prod.fst := by
      refine Decidable.byContradiction fun hm ↦ h ?_
      exact (find?_eq_none_iff_list k d.toList).2 hm
    simp only [insert, h, find?, dite_false]
    exact find?_rebind k k' v d.toList hm

@[simp]
theorem find?_insert_self (d : Dict κ ν) (k : κ) (v : ν) : (d.insert k v).find? k = some v := by
  simp [find?_insert]

theorem find?_insert_of_ne (d : Dict κ ν) {k k' : κ} (v : ν) (h : k' ≠ k) :
    (d.insert k v).find? k' = d.find? k' := by
  simp [find?_insert, h]

private theorem find?_filter_list (p : κ → ν → Bool) (k : κ) (l : List (κ × ν))
    (h : (l.map Prod.fst).Nodup) :
    ((l.filter fun b ↦ p b.1 b.2).find? fun b ↦ b.1 = k).map Prod.snd =
      ((l.find? fun b ↦ b.1 = k).map Prod.snd).filter (p k) := by
  induction l with
  | nil => rfl
  | cons b l ih =>
    rw [List.map_cons, List.nodup_cons] at h
    by_cases hb : b.1 = k
    · have hl : (l.find? fun b ↦ b.1 = k) = none :=
        (find?_eq_none_iff_list k l).2 (hb ▸ h.1)
      by_cases hp : p b.1 b.2 = true
      · subst hb; simp [hp, Option.filter]
      · have hr : ((l.filter fun b ↦ p b.1 b.2).find? fun b ↦ b.1 = k).map Prod.snd = none := by
          rw [ih h.2, hl]; rfl
        have hc : (b :: l).filter (fun b ↦ p b.1 b.2) = l.filter fun b ↦ p b.1 b.2 :=
          List.filter_cons_of_neg hp
        rw [hc, hr]
        subst hb
        simp [hp, Option.filter]
    · by_cases hp : p b.1 b.2 = true
      · simpa [hp, hb] using ih h.2
      · simpa [hp, hb] using ih h.2

/-- Filtering keeps a binding exactly when the predicate holds of it. -/
theorem find?_filter (d : Dict κ ν) (p : κ → ν → Bool) (k : κ) :
    (d.filter p).find? k = (d.find? k).filter (p k) :=
  find?_filter_list p k d.toList d.nodup_keys

/-- After an erasure, `k` is unbound and every other key reads as before. -/
theorem find?_erase (d : Dict κ ν) (k k' : κ) :
    (d.erase k).find? k' = if k' = k then none else d.find? k' := by
  rw [erase, find?_filter]
  by_cases h : k' = k
  · cases d.find? k' <;> simp [h, Option.filter]
  · cases d.find? k' <;> simp [h, Option.filter]

@[simp]
theorem find?_erase_self (d : Dict κ ν) (k : κ) : (d.erase k).find? k = none := by
  simp [find?_erase]

theorem find?_erase_of_ne (d : Dict κ ν) {k k' : κ} (h : k' ≠ k) :
    (d.erase k).find? k' = d.find? k' := by
  simp [find?_erase, h]

private theorem find?_list_eq_some_iff (k : κ) (v : ν) (l : List (κ × ν))
    (h : (l.map Prod.fst).Nodup) :
    (l.find? fun b ↦ b.1 = k).map Prod.snd = some v ↔ (k, v) ∈ l := by
  induction l with
  | nil => simp
  | cons b l ih =>
    rw [List.map_cons, List.nodup_cons] at h
    obtain ⟨c, w⟩ := b
    by_cases hb : c = k
    · subst hb
      have hn : ∀ x, (c, x) ∉ l := fun x hx ↦ h.1 (List.mem_map.2 ⟨_, hx, rfl⟩)
      simp [hn, eq_comm]
    · have : ¬ k = c := fun e ↦ hb e.symm
      simpa [hb, this] using ih h.2

/-- The listing shows exactly the bindings that can be read. -/
theorem mem_toList_iff (d : Dict κ ν) (k : κ) (v : ν) : (k, v) ∈ d.toList ↔ d.find? k = some v :=
  (find?_list_eq_some_iff k v d.toList d.nodup_keys).symm

/-- A key is listed exactly when it is bound. -/
theorem mem_keys_iff (d : Dict κ ν) (k : κ) : k ∈ d.keys ↔ d.contains k = true := by
  constructor
  · intro h
    obtain ⟨⟨_, v⟩, hv, rfl⟩ := List.mem_map.1 h
    simp [contains, (mem_toList_iff d _ v).1 hv]
  · intro h
    obtain ⟨v, hv⟩ := Option.isSome_iff_exists.1 h
    exact List.mem_map.2 ⟨_, (mem_toList_iff d k v).2 hv, rfl⟩

end Dict

end ObjectBridge
