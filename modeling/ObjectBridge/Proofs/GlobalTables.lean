import ObjectBridge.Proofs.Linking
import ObjectBridge.Proofs.Ordering
import ObjectBridge.Proofs.Recalling

/-!
# Making the tables of a global path

Making the tables of a global path follows the path as far as there are tables, links a new table
where the first name is missing, and goes on in the new table. It fails where a name has a value
that is no table, and then nothing has been made: a new table is empty, so nothing is in the way
there (`Exec.ends_makeNames_solitary`).

So it is all or nothing (`World.Reached.makeGlobal_all_or_nothing`), and what has been made is found
when the path is loaded, for which metatables are of no consequence. There is one exception. A path
can lead through a table that is gone, and one that is gone reads as an empty one; the link cannot
be written then, when the new table has been made already (`Exec.not_makeGlobal_undone`).
-/

namespace ObjectBridge

namespace World

/-- The world with another heap. -/
def withHeap (w : World) (h : Heap) : World :=
  { w with binding.machine.heap := h }

/-- Names lead from a table to another one, and all that was done for it is that tables were made
and linked. -/
structure Makes (w : World) (names : List String) (table target : Nat) (h' : Heap) : Prop where
  grows : w.binding.machine.heap.Grows h'
  spares : w.binding.machine.heap.Spares h'
  leads : h'.Leads names table target

/-- Why tables cannot be made, and what has been done then. -/
inductive FailsToMake (w : World) (names : List String) (table : Nat) : Interrupt → World → Prop
  /-- A name has a value that is no table. Nothing has been done. -/
  | blocked {before after : List String} {name : String} {base : Nat} {v : Value}
      (split : names = before ++ name :: after)
      (leads : w.binding.machine.heap.Leads before table base)
      (value : w.binding.machine.heap.rawGetField base name = v)
      (noTable : v ≠ .nil ∧ v.table? = none) :
      FailsToMake w names table (.failure (.globalIsNoTable name v.kind)) w
  /-- The names lead to a table that is gone. A table has been made and the next name is a string,
  but there is no link. -/
  | lost {before after : List String} {name : String} {base : Nat}
      (split : names = before ++ name :: after)
      (leads : w.binding.machine.heap.Leads before table base)
      (gone : w.binding.machine.heap.tables.live base = false) :
      FailsToMake w names table (.failure .noSuchTable)
        (w.withHeap ((w.binding.machine.heap.addTable {}).2.intern name).2)

variable {w : World} {names : List String} {name : String} {table id target : Nat}

theorem Makes.there {h' : Heap} (hm : w.Makes names id target h')
    (hlink : w.binding.machine.heap.rawGetField table name = .table id) :
    w.Makes (name :: names) table target h' :=
  ⟨hm.grows, hm.spares, .there (hm.grows.link hlink) hm.leads⟩

theorem FailsToMake.there {i : Interrupt} {w' : World} (hf : w.FailsToMake names id i w')
    (hlink : w.binding.machine.heap.rawGetField table name = .table id) :
    w.FailsToMake (name :: names) table i w' := by
  cases hf with
  | blocked hnames hleads hvalue hno =>
    exact .blocked (congrArg (name :: ·) hnames) (.there hlink hleads) hvalue hno
  | lost hnames hleads hgone =>
    exact .lost (congrArg (name :: ·) hnames) (.there hlink hleads) hgone

end World

namespace Exec

variable {w : World} {names : List String} {name : String} {table id target : Nat}

/-! ### Steps -/

theorem outcome_machine_bind {α : Type} (f : Machine → Exec α) :
    (machine >>= f).outcome w = (f w.binding.machine).outcome w :=
  rfl

/-- A link is followed. -/
theorem makeNames_link (hlink : w.binding.machine.heap.rawGetField table name = .table id) :
    (makeNames (name :: names) table).outcome w = (makeNames names id).outcome w := by
  rw [makeNames, outcome_machine_bind, hlink]

/-- Where a name is missing, a new table is linked, if the table is there. -/
theorem ends_makeNames_missing {Q : Nat → World → Prop} {E : Interrupt → World → Prop}
    (hmissing : w.binding.machine.heap.rawGetField table name = .nil) :
    Ends (makeNames (name :: names) table) Q E w ↔
      if (w.binding.machine.heap.addTable {}).2.tables.live table = true then
        Ends (makeNames names w.binding.machine.heap.tables.nextId) Q E
          (w.withHeap (w.binding.machine.heap.link table name))
      else E (.failure .noSuchTable)
        (w.withHeap ((w.binding.machine.heap.addTable {}).2.intern name).2) := by
  let m := w.binding.machine
  let made := (m.createTable.2.intern name).2
  let key := (m.createTable.2.intern name).1
  by_cases hthere : (m.heap.addTable {}).2.tables.live table = true
  · have hset : made.rawSet table key (.table m.createTable.1) =
        .ok { m with heap := m.heap.link table name } := if_pos hthere
    rw [if_pos hthere]
    simp only [makeNames, ends_bind, ends_machine, hmissing, ends_updateMachine, rawSetField,
      intern, rawSet, hset, ends_ofExcept_ok, ends_modifyMachine, made, key, m]
    exact .rfl
  · have hset : made.rawSet table key (.table m.createTable.1) = .error .noSuchTable :=
      if_neg hthere
    rw [if_neg hthere]
    simp only [makeNames, ends_bind, ends_machine, hmissing, ends_updateMachine, rawSetField,
      intern, rawSet, hset, ends_ofExcept_error, made, key, m]
    exact .rfl

/-! ### Making tables -/

/-- **Nothing is in the way in a new table.** -/
theorem ends_makeNames_solitary (ho : w.binding.machine.heap.Orderly)
    (ht : w.binding.machine.heap.Solitary table) (names : List String) {old : Nat → Prop}
    (hold : ∀ id, old id → w.binding.machine.heap.tables.live id = true) (hnew : ¬ old table) :
    Ends (makeNames names table)
      (fun target w' ↦ ∃ h', w' = w.withHeap h' ∧ w.binding.machine.heap.Grows h' ∧
        h'.Leads names table target ∧
        ∀ id, old id → h'.tables.get? id = w.binding.machine.heap.tables.get? id)
      (fun _ _ ↦ False) w := by
  induction names generalizing w table with
  | nil => exact ⟨_, rfl, .refl _, .here, fun _ _ ↦ rfl⟩
  | cons name names ih =>
    rcases ht.rawGetField name with hmissing | hlink
    · -- A table is linked to the new one, and it is solitary as well.
      have hthere : (w.binding.machine.heap.addTable {}).2.tables.live table = true :=
        w.binding.machine.heap.live_addTable (r := .table table) {} ht.live
      have hgrows := Heap.grows_link ho hmissing
      rw [ends_makeNames_missing hmissing, if_pos hthere]
      have hkept {id : Nat} (hid : old id) :
          (w.binding.machine.heap.link table name).tables.get? id =
            w.binding.machine.heap.tables.get? id :=
        Heap.get?_link_of_ne ho (hold id hid) fun e ↦ hnew (e ▸ hid)
      have hnext : ¬ old w.binding.machine.heap.tables.nextId := fun hid ↦
        Heap.nextId_ne_of_live ho (hold _ hid) rfl
      refine (ih (w := w.withHeap (w.binding.machine.heap.link table name)) (hgrows.orderly ho)
        (Heap.solitary_link ho table name) (fun id hid ↦ Heap.live_link ho (hold id hid)) hnext).imp
        (fun target w' hw' ↦ ?_) fun _ _ h ↦ h
      obtain ⟨h', rfl, hgrows', hleads, hkept'⟩ := hw'
      exact ⟨h', rfl, hgrows.trans hgrows',
        .there (hgrows'.link (Heap.rawGetField_link hthere)) hleads,
        fun id hid ↦ (hkept' id hid).trans (hkept hid)⟩
    · rw [Ends, makeNames_link hlink]
      refine (ih ho ht hold hnew).imp (fun target w' hw' ↦ ?_) fun _ _ h ↦ h
      obtain ⟨h', rfl, hgrows, hleads, hkept⟩ := hw'
      exact ⟨h', rfl, hgrows, .there (hgrows.link hlink) hleads, hkept⟩

/-- **Making tables** leads to the last one, or it fails for one of two reasons. -/
theorem ends_makeNames (ho : w.binding.machine.heap.Orderly) (names : List String) (table : Nat) :
    Ends (makeNames names table)
      (fun target w' ↦ ∃ h', w' = w.withHeap h' ∧ w.Makes names table target h')
      (fun i w' ↦ w.FailsToMake names table i w') w := by
  induction names generalizing table with
  | nil => exact ⟨_, rfl, .refl _, .kept fun _ _ ↦ rfl, .here⟩
  | cons name names ih =>
    cases hv : w.binding.machine.heap.rawGetField table name with
    | table id =>
      rw [Ends, makeNames_link hv]
      refine (ih id).imp (fun target w' hw' ↦ ?_) fun i w' hw' ↦ hw'.there hv
      obtain ⟨h', rfl, hmakes⟩ := hw'
      exact ⟨h', rfl, hmakes.there hv⟩
    | nil =>
      rw [ends_makeNames_missing hv]
      split
      · rename_i hthere
        -- From here on tables are linked to new ones, which are none of the tables that are there.
        have hgrows := Heap.grows_link ho hv
        have hold (id : Nat) (hid : w.binding.machine.heap.tables.live id = true) :
            (w.binding.machine.heap.link table name).tables.live id = true := Heap.live_link ho hid
        have hnew :
            ¬ w.binding.machine.heap.tables.live w.binding.machine.heap.tables.nextId = true :=
          fun hid ↦ Heap.nextId_ne_of_live ho hid rfl
        refine (ends_makeNames_solitary (w := w.withHeap (w.binding.machine.heap.link table name))
          (hgrows.orderly ho) (Heap.solitary_link ho table name) names hold hnew).imp
          (fun target w' hw' ↦ ?_) fun _ _ h ↦ h.elim
        obtain ⟨h', rfl, hgrows', hleads, hkept⟩ := hw'
        exact ⟨h', rfl, hgrows.trans hgrows', Heap.spares_link ho hv hgrows' hkept,
          .there (hgrows'.link (Heap.rawGetField_link hthere)) hleads⟩
      · rename_i hgone
        refine .lost (List.nil_append (name :: names)).symm .here ?_
        cases hlive : w.binding.machine.heap.tables.live table with
        | false => rfl
        | true =>
          exact absurd (w.binding.machine.heap.live_addTable (r := .table table) {} hlive) hgone
    | boolean | integer | number | string | function | word | userdata =>
      simp only [makeNames, ends_bind, ends_machine, hv, ends_fail]
      exact .blocked (List.nil_append (name :: names)).symm .here hv ⟨by simp, rfl⟩

/-! ### Reading what has been made -/

/-- Where names lead, nothing is made. -/
theorem makeNames_leads (hl : w.binding.machine.heap.Leads names table target) :
    (makeNames names table).outcome w = (.ok target, w) := by
  induction hl with
  | here => rfl
  | there hlink _ ih => exact (makeNames_link hlink).trans ih

/-- **Where names lead, reading leads as well.** No metatable is asked, as all fields have values.
-/
theorem followNames_leads (run : Runner) (hl : w.binding.machine.heap.Leads names table target) :
    (followNames run names (.table table)).outcome w = (.ok (.table target), w) := by
  induction hl with
  | here => rfl
  | @there name names table id target hlink _ ih =>
    obtain ⟨key, t, hkey, ht, hget⟩ := (Heap.rawGetField_eq (by simp)).1 hlink
    have hintern : w.binding.machine.intern name = (.string key, w.binding.machine) := by
      rw [Machine.intern, Heap.intern, StringPool.intern_of_lookup hkey]
    have hread : w.binding.machine.heap.rawGet table (.string key) = .table id := by
      rw [Heap.rawGet, ht]
      exact hget
    have hindex : (index run (.table table) (.string key)).outcome w = (.ok (.table id), w) := by
      have hends : Ends (index run (.table table) (.string key)) (fun v w' ↦ v = .table id ∧ w' = w)
          (fun _ _ ↦ False) w := by
        have hchain : maxChain = 1999 + 1 := rfl
        rw [index, hchain, indexFrom, ends_bind, ends_machine]
        simp [hread, Value.isNil]
      obtain ⟨_, _, houtcome, rfl, rfl⟩ := hends.exists_ok
      exact houtcome
    have hends : Ends (followNames run (name :: names) (.table table))
        (fun v w' ↦ v = .table target ∧ w' = w) (fun _ _ ↦ False) w := by
      simp only [followNames, Value.isNil, Bool.false_eq_true, if_false, ends_bind, intern,
        ends_updateMachine, hintern]
      rw [Ends, hindex]
      dsimp only
      rw [Ends, ih]
      exact ⟨rfl, rfl⟩
    obtain ⟨_, _, houtcome, rfl, rfl⟩ := hends.exists_ok
    exact houtcome

variable {path : String}

theorem makeGlobal_leads
    (hl : w.binding.machine.heap.Leads (globalNames path) w.binding.machine.globals target) :
    (makeGlobal path).outcome w = (.ok (), w.pushing (.table target)) := by
  have hends : Ends (makeGlobal path) (fun _ w' ↦ w' = w.pushing (.table target))
      (fun _ _ ↦ False) w := by
    rw [makeGlobal, ends_bind, ends_machine, ends_bind, Ends, makeNames_leads hl]
    exact rfl
  obtain ⟨_, _, houtcome, rfl⟩ := hends.exists_ok
  exact houtcome

theorem loadGlobal_leads (run : Runner)
    (hl : w.binding.machine.heap.Leads (globalNames path) w.binding.machine.globals target) :
    (loadGlobal run path).outcome w = (.ok (), w.pushing (.table target)) := by
  have hends : Ends (loadGlobal run path) (fun _ w' ↦ w' = w.pushing (.table target))
      (fun _ _ ↦ False) w := by
    rw [loadGlobal, ends_bind, ends_machine, ends_bind, Ends, followNames_leads run hl]
    exact rfl
  obtain ⟨_, _, houtcome, rfl⟩ := hends.exists_ok
  exact houtcome

end Exec

/-! ### All or nothing -/

/-- **Making a global path is all or nothing.** If it does not fail then the table that the path
leads to has been pushed, and nothing is changed but that new tables have been made and linked, of
which at most one is linked to a table that was there, under a name that was missing. Loading the
path then pushes this very table, and so does making the path again, which makes nothing more. If it
fails then nothing has been done, unless the path leads through a table that is gone. -/
theorem World.Reached.makeGlobal_all_or_nothing {w : World} (hw : w.Reached) (path : String) :
    Exec.Ends (Exec.makeGlobal path)
      (fun _ w' ↦ ∃ target h', w' = (w.withHeap h').pushing (.table target) ∧
        w.Makes (globalNames path) w.binding.machine.globals target h' ∧
        (∀ run, (Exec.loadGlobal run path).outcome w' = (.ok (), w'.pushing (.table target))) ∧
        (Exec.makeGlobal path).outcome w' = (.ok (), w'.pushing (.table target)))
      (fun i w' ↦ w.FailsToMake (globalNames path) w.binding.machine.globals i w') w := by
  rw [Exec.makeGlobal, Exec.ends_bind, Exec.ends_machine, Exec.ends_bind]
  refine (Exec.ends_makeNames hw.orderly (globalNames path) _).imp (fun target w₁ hw₁ ↦ ?_)
    fun _ _ h ↦ h
  obtain ⟨h', rfl, hmakes⟩ := hw₁
  rw [Exec.ends_push]
  exact ⟨target, h', rfl, hmakes, fun run ↦ Exec.loadGlobal_leads run hmakes.leads,
    Exec.makeGlobal_leads hmakes.leads⟩

/-- Two tables are made, and the second one is found afterwards. -/
theorem World.makeGlobal_all_or_nothing_lobby : ∃ target h',
    (Exec.makeGlobal "a.b").outcome Session.lobby.world =
      (.ok (), (Session.lobby.world.withHeap h').pushing (.table target)) ∧
    Session.lobby.world.Makes ["a", "b"] Session.lobby.world.binding.machine.globals target h' := by
  have hreached : Session.lobby.world.Reached := .session Session.start_lobby []
  have hok : ((Exec.makeGlobal "a.b").outcome Session.lobby.world).1 = .ok () := by decide +kernel
  obtain ⟨w', hout⟩ : ∃ w', (Exec.makeGlobal "a.b").outcome Session.lobby.world = (.ok (), w') :=
    ⟨_, Exec.outcome_eq_of_fst hok⟩
  obtain ⟨target, h', rfl, hmakes, -⟩ := (hreached.makeGlobal_all_or_nothing "a.b").ok hout
  have hnames : globalNames "a.b" = ["a", "b"] := by decide +kernel
  rw [hnames] at hmakes
  exact ⟨target, h', hout, hmakes⟩

/-- A table is stored as the member `v` of the global `q`, but while it is on its way there it is on
no stack, and a handler has a cycle take it. -/
def Session.bereaving : List Directive :=
  [.act (.table .create), .act (.table .create),
    .act (.closure [.collect .collect, .call (.loadGlobal "q"), .finish (.exactly 1)] "walk"),
    .act (.table (.rawSetField (.slot 2) "__index" (.slot 3))),
    .act (.table (.setMetatable (.slot 1) (.slot 2))), .act (.stack (.setTop 1)),
    .act (.call (.setGlobal "p")), .act (.table .create), .act (.call (.setGlobal "q")),
    .act (.table .create), .act (.table .create), .act (.stack (.pop 1)),
    .act (.call (.setGlobal "p.any.v"))]

/-- The member `v` of the global `q` is a table that is gone. -/
@[irreducible]
def World.bereft : World :=
  (Session.lobby.run Session.bereaving).world

theorem World.reached_bereft : bereft.Reached := by
  delta bereft
  exact .session Session.start_lobby Session.bereaving

/-- **A failure can leave a table behind**, which nothing refers to. -/
theorem Exec.not_makeGlobal_undone : ¬ ∀ (w : World) (path : String) (i : Interrupt) (w' : World),
    w.Reached → (makeGlobal path).outcome w = (.error i, w') →
      ∀ id, w'.binding.machine.heap.tables.live id = w.binding.machine.heap.tables.live id := by
  intro hall
  have hfails : ((makeGlobal "q.v.w").outcome .bereft).1 = .error (.failure .noSuchTable) := by
    decide +kernel
  have hsame := hall .bereft "q.v.w" _ _ World.reached_bereft (outcome_eq_of_fst hfails)
    (World.bereft.binding.machine.heap.tables.nextId)
  exact absurd hsame (by decide +kernel)

end ObjectBridge
