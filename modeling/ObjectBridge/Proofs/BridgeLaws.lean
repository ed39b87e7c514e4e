import ObjectBridge.Proofs.Laws

/-!
# What laws govern in the bridge

A law governs whatever the bridge does for a caller, part by part: access through metatables, globals
and typed calls, for any runner that the law governs; and with no runner at all the functions that the
bridge itself provides (`Builtin.governs_run`).
-/

namespace ObjectBridge

namespace Exec

variable {L : Law}

theorem governs_flushPins : L.Governs flushPins :=
  governs_binding.bind fun _ ↦ .reading fun _ ↦ (governs_modifyPins _ _).bind fun _ ↦
    governs_modifyMachine (·.edits_foldl_unreference _ _)

section Calling

variable {run : Runner} (hrun : ∀ c, L.Governs (run c))

include hrun

/-! ### Calls -/

theorem governs_callFunction (f : Value) (args : List Value) :
    L.Governs (callFunction run f args) :=
  .guarded <| (governs_push f).bind fun _ ↦ (governs_pushAll args).bind fun _ ↦
    (L.call _ _ hrun).bind fun _ ↦ governs_machine.bind fun _ ↦ .pure _

theorem governs_protectedCall (f : Value) (args : List Value) :
    L.Governs (protectedCall run f args) := by
  refine .guarded <| (governs_push f).bind fun _ ↦ (governs_pushAll args).bind fun _ ↦
    (L.tryCall _ _ hrun).attempt.bind fun r ↦ ?_
  cases r with
  | ok n => exact governs_machine.bind fun _ ↦ .pure _
  | error f => exact (governs_intern _).bind fun _ ↦ .pure _

theorem governs_callMetamethod (handler : Value) (args : List Value) :
    L.Governs (callMetamethod run handler args) :=
  (governs_callFunction hrun handler args).bind fun _ ↦ .pure _

/-! ### Access through metatables -/

theorem governs_indexFrom (fuel : Nat) (obj k : Value) :
    L.Governs (indexFrom run fuel obj k) := by
  induction fuel generalizing obj with
  | zero => exact governs_fail _
  | succ fuel ih =>
    rw [indexFrom]
    refine governs_machine.bind fun m ↦ .ite (fun _ ↦ .pure _) fun _ ↦ ?_
    split
    · exact .pure _
    · exact governs_fail _
    · exact governs_callMetamethod hrun _ _
    · exact ih _

theorem governs_index (obj k : Value) : L.Governs (index run obj k) :=
  governs_indexFrom hrun _ obj k

/-- An assignment that is left to a handler. -/
private theorem governs_newIndexHandler (fuel : Nat) (obj k v handler : Value)
    (ih : ∀ obj, L.Governs (newIndexFrom run fuel obj k v)) : L.Governs (match handler with
      | .function f => do
        let _ ← callFunction run (.function f) [obj, k, v]
      | handler => newIndexFrom run fuel handler k v) := by
  split
  · exact (governs_callFunction hrun _ _).bind fun _ ↦ .pure _
  · exact ih _

theorem governs_newIndexFrom (fuel : Nat) (obj k v : Value) :
    L.Governs (newIndexFrom run fuel obj k v) := by
  induction fuel generalizing obj with
  | zero => exact governs_fail _
  | succ fuel ih =>
    rw [newIndexFrom]
    refine governs_machine.bind fun m ↦ ?_
    have hhandler handler := governs_newIndexHandler hrun fuel obj k v handler ih
    split
    · exact .ite (fun _ ↦ (governs_rawSet _ _ _).bind fun _ ↦ .pure _) fun _ ↦ hhandler _
    · exact .ite (fun _ ↦ governs_fail _) fun _ ↦ hhandler _

theorem governs_newIndex (obj k v : Value) : L.Governs (newIndex run obj k v) :=
  governs_newIndexFrom hrun _ obj k v

theorem governs_length (obj : Value) : L.Governs (length run obj) := by
  refine governs_machine.bind fun m ↦
    .ite (fun _ ↦ governs_callMetamethod hrun _ _) fun _ ↦ ?_
  split
  · exact .pure _
  · exact .pure _
  · exact governs_fail _

theorem governs_iterate (obj : Value) : L.Governs (iterate run obj) :=
  governs_machine.bind fun _ ↦ .ite (fun _ ↦ governs_fail _) fun _ ↦
    (governs_callFunction hrun _ _).bind fun _ ↦ .pure _

theorem governs_getTable (idx : Int) : L.Governs (getTable run idx) :=
  (governs_valueAt idx).bind fun _ ↦ governs_popValue.bind fun _ ↦
    (governs_index hrun _ _).bind fun _ ↦ governs_push _

theorem governs_setTable (idx : Int) : L.Governs (setTable run idx) :=
  (governs_valueAt idx).bind fun _ ↦ governs_popValue.bind fun _ ↦
    governs_popValue.bind fun _ ↦ governs_newIndex hrun _ _ _

theorem governs_getField (idx : Int) (name : String) : L.Governs (getField run idx name) :=
  (governs_valueAt idx).bind fun _ ↦ (governs_intern name).bind fun _ ↦
    (governs_index hrun _ _).bind fun _ ↦ governs_push _

theorem governs_setField (idx : Int) (name : String) : L.Governs (setField run idx name) :=
  (governs_valueAt idx).bind fun _ ↦ governs_popValue.bind fun _ ↦
    (governs_intern name).bind fun _ ↦ governs_newIndex hrun _ _ _

theorem governs_pushLength (idx : Int) : L.Governs (pushLength run idx) :=
  (governs_valueAt idx).bind fun _ ↦ (governs_length hrun _).bind fun _ ↦ governs_push _

/-! ### Globals -/

theorem governs_followNames (names : List String) (v : Value) :
    L.Governs (followNames run names v) := by
  induction names generalizing v with
  | nil => exact .pure _
  | cons name rest ih =>
    exact .ite (fun _ ↦ .pure _) fun _ ↦ (governs_intern name).bind fun _ ↦
      (governs_index hrun _ _).bind fun _ ↦ ih _

theorem governs_loadGlobal (path : String) : L.Governs (loadGlobal run path) :=
  governs_machine.bind fun _ ↦ (governs_followNames hrun _ _).bind fun _ ↦
    governs_push _

theorem governs_setGlobal (path : String) : L.Governs (setGlobal run path) := by
  refine governs_popValue.bind fun v ↦ governs_machine.bind fun m ↦ ?_
  dsimp only
  split
  · exact ((governs_loadGlobal hrun _).seqRight governs_popValue).bind fun _ ↦
      .ite (fun _ ↦ governs_fail _) fun _ ↦ (governs_intern _).bind fun _ ↦
        governs_newIndex hrun _ _ _
  · exact (Law.Governs.pure _).bind fun _ ↦ .ite (fun _ ↦ governs_fail _) fun _ ↦
      (governs_intern _).bind fun _ ↦ governs_newIndex hrun _ _ _

omit hrun in
theorem governs_makeNames (names : List String) (table : Nat) :
    L.Governs (makeNames names table) := by
  induction names generalizing table with
  | nil => exact .pure _
  | cons name rest ih =>
    refine governs_machine.bind fun m ↦ ?_
    split
    · exact ih _
    · exact governs_createTable.bind fun id ↦ (governs_rawSetField _ _ _).bind fun _ ↦ ih _
    · exact governs_fail _

omit hrun in
theorem governs_makeGlobal (path : String) : L.Governs (makeGlobal path) :=
  governs_machine.bind fun _ ↦ (governs_makeNames _ _).bind fun _ ↦ governs_push _

omit hrun in
theorem governs_pushArgument (a : ReadyArgument) : L.Governs (pushArgument a) := by
  cases a with
  | scalar t d => exact governs_pushScalar t d
  | value v => exact (governs_push v).bind fun _ ↦ .pure _
  | unit => exact .pure _

omit hrun in
theorem governs_pushArguments (args : List ReadyArgument) :
    L.Governs (pushArguments args) := by
  induction args with
  | nil => exact .pure _
  | cons a rest ih =>
    exact (governs_pushArgument a).bind fun _ ↦ ih.bind fun _ ↦ .pure _

omit hrun in
theorem governs_readResults (first : Int) (position : Nat) (types : List CrossingType) :
    L.Governs (readResults first position types) := by
  induction types generalizing position with
  | nil => exact .pure _
  | cons t rest ih =>
    refine governs_machine.bind fun m ↦ ?_
    split
    · exact (ih _).bind fun _ ↦ .pure _
    · exact governs_fail _

theorem governs_callWith (f : Value) (args : List ReadyArgument) (results : List CrossingType) :
    L.Governs (callWith run f args results) :=
  .guarded <| (governs_push f).bind fun _ ↦ governs_top.bind fun _ ↦
    (governs_pushArguments args).bind fun _ ↦ (L.tryCall _ _ hrun).bind fun _ ↦
      governs_readResults _ _ _

theorem governs_callGlobal (path : String) (args : List ReadyArgument)
    (results : List CrossingType) : L.Governs (callGlobal run path args results) :=
  .guarded <| (governs_loadGlobal hrun path).bind fun _ ↦ governs_popValue.bind fun _ ↦
    governs_callWith hrun _ args results

theorem governs_getGlobal (path : String) (t : CrossingType) :
    L.Governs (getGlobal run path t) := by
  refine .guarded <| (governs_loadGlobal hrun path).bind fun _ ↦
    governs_machine.bind fun m ↦ ?_
  split
  · exact .pure _
  · exact governs_fail _

/-! ### Finalizers -/

theorem governs_runFinalizer (id : Nat) : L.Governs (runFinalizer run id) := by
  refine governs_machine.bind fun m ↦ .ite (fun _ ↦ .pure _) fun _ ↦
    (governs_push _).bind fun _ ↦ (governs_push _).bind fun _ ↦
      (L.tryCall _ _ hrun).attempt.bind fun _ ↦ governs_modifyMachine (·.edits_setTop _)

theorem governs_collect : L.Governs (collect run) :=
  L.sweep.bind fun _ ↦ (Law.Governs.forM fun _ _ ↦ governs_runFinalizer hrun _).bind
    fun _ ↦ .pure _

theorem governs_collectAll (rounds : Nat) : L.Governs (collectAll run rounds) := by
  induction rounds with
  | zero => exact .throw _
  | succ rounds ih =>
    exact (governs_collect hrun).bind fun _ ↦ .ite (fun _ ↦ .pure _) fun _ ↦
      ih.bind fun _ ↦ .pure _

end Calling

/-! ### From values to objects -/

theorem governs_resolve (v : Value) : L.Governs (resolve v) :=
  .reading fun _ ↦ .pure _

theorem governs_typeKeyName (t : TypeKey) : L.Governs (typeKeyName t) :=
  governs_host.bind fun _ ↦ .pure _

theorem governs_mismatch {α : Type} (idx : Int) (expected : String) :
    L.Governs (mismatch idx expected : Exec α) :=
  .reading fun _ ↦ governs_fail _

theorem governs_loadPointer (idx : Int) (t : TypeKey) : L.Governs (loadPointer idx t) :=
  .reading fun _ ↦ .pure _

theorem governs_checkPointer (idx : Int) (t : TypeKey) : L.Governs (checkPointer idx t) := by
  refine (governs_valueAt idx).bind fun _ ↦ .ite (fun _ ↦ .pure _) fun _ ↦
    (governs_loadPointer idx t).bind fun a ↦ ?_
  split
  · exact .pure _
  · exact (governs_typeKeyName t).bind fun _ ↦ governs_mismatch _ _

theorem governs_argumentPointer (idx : Int) (t : TypeKey) :
    L.Governs (argumentPointer idx t) := by
  refine (governs_loadPointer idx t).bind fun a ↦ ?_
  split
  · exact .pure _
  · exact (governs_typeKeyName t).bind fun _ ↦ governs_mismatch _ _

theorem governs_loadShare (s : Sharing) (idx : Int) (t : TypeKey) :
    L.Governs (loadShare s idx t) := by
  refine .reading fun w ↦ ?_
  dsimp only
  split
  · exact .pure _
  · exact (governs_typeKeyName t).bind fun _ ↦ governs_mismatch _ _

theorem governs_containerOf (kind : ContainerKind) (v : Value) :
    L.Governs (containerOf kind v) := by
  refine .reading fun w ↦ ?_
  split
  · exact .ite (fun _ ↦ .pure _) fun _ ↦ governs_fail _
  · exact governs_fail _

theorem governs_containerAt (kind : ContainerKind) (idx : Int) :
    L.Governs (containerAt kind idx) := by
  refine .reading fun w ↦ ?_
  split
  · exact .ite (fun _ ↦ .pure _) fun _ ↦ governs_mismatch _ _
  · exact governs_mismatch _ _

/-! ### Members of objects -/

theorem governs_typeMetatable (type : Nat) : L.Governs (typeMetatable type) :=
  governs_binding.bind fun _ ↦ .pure _

theorem governs_objectArgument : L.Governs objectArgument := by
  refine (governs_valueAt 1).bind fun v ↦ (governs_resolve v).bind fun r ↦ ?_
  cases r with
  | live view => exact .pure _
  | stale type => exact .pure _
  | foreign => exact governs_fail _

theorem governs_memberFunction? (type : Nat) (key : Value) :
    L.Governs (memberFunction? type key) := by
  refine governs_machine.bind fun m ↦ (governs_typeMetatable type).bind fun mt ↦ ?_
  split
  · exact .pure _
  · exact .pure _

theorem governs_ownerAddress (v : View) (owner : Nat) : L.Governs (ownerAddress v owner) := by
  refine governs_registry.bind fun r ↦ ?_
  split
  · exact .pure _
  · exact governs_fail _

theorem governs_objectIndex : L.Governs objectIndex := by
  refine governs_objectArgument.bind fun arg ↦ governs_registry.bind fun r ↦
    governs_machine.bind fun m ↦ ?_
  split
  · exact (governs_push _).bind fun _ ↦ .pure _
  · exact governs_fail _
  · refine (governs_valueAt 2).bind fun k ↦ (governs_memberFunction? _ k).bind fun f ↦ ?_
    split
    · exact (governs_push _).bind fun _ ↦ .pure _
    · split
      · exact (governs_ownerAddress _ _).bind fun _ ↦ governs_host.bind fun _ ↦
          governs_pushScalar _ _
      · exact (governs_push _).bind fun _ ↦ .pure _

theorem governs_fieldArgument (idx : Int) (t : ScalarType) :
    L.Governs (fieldArgument idx t) := by
  refine governs_machine.bind fun m ↦ ?_
  split
  · exact .pure _
  · exact governs_fail _

theorem governs_objectNewIndex : L.Governs objectNewIndex := by
  refine governs_objectArgument.bind fun arg ↦ governs_registry.bind fun r ↦
    governs_machine.bind fun m ↦ ?_
  dsimp only
  split
  · exact governs_fail _
  · split
    · exact (governs_ownerAddress _ _).bind fun _ ↦ (governs_fieldArgument _ _).bind fun _ ↦
        (governs_modifyHost _).bind fun _ ↦ .pure _
    · exact governs_fail _
    · exact governs_fail _

theorem governs_describe : L.Governs describe :=
  .reading fun _ ↦ (governs_valueAt 1).bind fun _ ↦ (governs_pushText _).bind fun _ ↦ .pure _

/-! ### Remembering userdata -/

theorem governs_modifyRecord (id : Nat) (f : Record → Record) :
    L.Governs (modifyMachine (·.modifyRecord id f)) :=
  governs_modifyMachine (·.edits_modifyRecord id f)

theorem governs_reference (table : Nat) (v : Value) :
    L.Governs (updateMachine (·.reference table v)) :=
  governs_updateMachine (·.edits_reference table v)

theorem governs_pushRecord (r : Record) (metatable : Option Nat) :
    L.Governs (pushRecord r metatable) :=
  (governs_createUserdata _).bind fun _ ↦ (governs_push _).bind fun _ ↦ .pure _

theorem governs_remember (id : Nat) : L.Governs (remember id) :=
  governs_binding.bind fun _ ↦ (governs_reference _ _).bind fun _ ↦ .pure _

theorem governs_forget (e : CacheEntry) : L.Governs (forget e) :=
  governs_binding.bind fun _ ↦ governs_modifyMachine (·.edits_unreference _ _)

theorem governs_pushRemembered (e : CacheEntry) : L.Governs (pushRemembered e) :=
  governs_binding.bind fun _ ↦
    .ite (fun _ ↦ (governs_push _).bind fun _ ↦ .pure _) fun _ ↦
      .ite (fun _ ↦ (governs_forget e).bind fun _ ↦ .pure _) fun _ ↦ .pure _

theorem governs_dismiss (e : CacheEntry) : L.Governs (dismiss e) :=
  (governs_modifyMachine (·.edits_pop 1)).bind fun _ ↦ governs_forget e

theorem governs_retrieve (k : CacheKey) {fits : Nat → Exec Bool}
    (hfits : ∀ id, L.Governs (fits id)) : L.Governs (retrieve k fits) := by
  refine governs_binding.bind fun b ↦ ?_
  have hdone : L.Governs (do modifyCache (·.erase k); return false) :=
    (governs_modifyCache _).bind fun _ ↦ .pure _
  split
  · exact .pure _
  · exact (governs_pushRemembered _).bind fun _ ↦ .ite (fun _ ↦ (hfits _).bind fun _ ↦
      .ite (fun _ ↦ .pure _) fun _ ↦ (governs_dismiss _).bind fun _ ↦ hdone) fun _ ↦ hdone

theorem governs_makeRoom (k : CacheKey) : L.Governs (makeRoom k) := by
  cases k with
  | weak index => exact governs_binding.bind fun _ ↦ governs_reserve _ _
  | _ => exact .pure _

theorem governs_enrol (k : CacheKey) (id : Nat) : L.Governs (enrol k id) := by
  refine (governs_remember id).bind fun entry ↦ (governs_makeRoom k).bind fun _ ↦
    governs_binding.bind fun b ↦ (governs_modifyCache _).bind fun _ ↦ ?_
  split
  · exact governs_forget _
  · exact .pure _

theorem governs_pushNew (k : CacheKey) (r : Record) (metatable : Option Nat) :
    L.Governs (pushNew k r metatable) :=
  (governs_pushRecord r metatable).bind fun _ ↦ governs_enrol k _

/-! ### From objects to values -/

theorem governs_exportedType (t : TypeKey) : L.Governs (exportedType t) := by
  refine governs_registry.bind fun r ↦ ?_
  split
  · exact .pure _
  · exact (governs_typeKeyName t).bind fun _ ↦ governs_fail _

theorem governs_upgradeView (id type : Nat) (target : Target) :
    L.Governs (upgradeView id type target) := by
  refine governs_machine.bind fun m ↦ ?_
  split
  · exact governs_registry.bind fun r ↦ .ite (fun _ ↦ (governs_typeMetatable type).bind
      fun _ ↦ governs_modifyMachine fun m ↦ (m.edits_modifyRecord _ _).trans
        (Machine.edits_modifyUserdata _ _ _)) fun _ ↦ .pure _
  · exact .pure _

theorem governs_reuse (id : Nat) (v : View) : L.Governs (reuse id v) := by
  refine governs_registry.bind fun r ↦ governs_machine.bind fun m ↦ ?_
  split
  · exact .pure _
  · exact .ite (fun _ ↦ .pure _) fun _ ↦
      .ite (fun _ ↦ (governs_upgradeView _ _ _).bind fun _ ↦ .pure _) fun _ ↦
        (governs_modifyRecord _ _).bind fun _ ↦ .pure _

theorem governs_weakHandle (v : View) : L.Governs (weakHandle v) := by
  refine governs_binding.bind fun b ↦ governs_host.bind fun h ↦ ?_
  split
  · exact (governs_modifyHost _).bind fun _ ↦ .pure _
  · exact .pure _

theorem governs_rejoin (id : Nat) (handle : Handle) (type : Nat) :
    L.Governs (rejoin id handle type) :=
  governs_machine.bind fun _ ↦ .ite (fun _ ↦ .pure _) fun _ ↦
    (governs_upgradeView _ _ _).bind fun _ ↦ .pure _

/-- A userdata is found or made. -/
theorem governs_pushKept (k : CacheKey) {fits : Nat → Exec Bool}
    (hfits : ∀ id, L.Governs (fits id))
    (r : Record) (type : Nat) : L.Governs (do
      if ← retrieve k fits then return
      pushNew k r (← typeMetatable type)) :=
  (governs_retrieve k hfits).bind fun _ ↦ .ite (fun _ ↦ .pure _) fun _ ↦
    (governs_typeMetatable type).bind fun _ ↦ governs_pushNew _ _ _

theorem governs_pushWeak (v : View) : L.Governs (pushWeak v) := by
  refine governs_binding.bind fun b ↦ (governs_weakHandle v).bind fun handle? ↦ ?_
  split
  · exact governs_fail _
  · dsimp only
    split
    · exact governs_push _
    · exact governs_pushKept _ (fun id ↦ governs_rejoin id _ _) _ _

theorem governs_pushBorrowed (v : View) (key : Address) :
    L.Governs (pushBorrowed v key) := by
  refine governs_binding.bind fun b ↦ ?_
  dsimp only
  split
  · exact governs_push _
  · exact governs_pushKept _ (fun id ↦ governs_reuse id _) _ _

theorem governs_pushView (v : View) : L.Governs (pushView v) :=
  governs_registry.bind fun _ ↦ (governs_retrieve _ fun _ ↦ .pure _).bind fun _ ↦
    .ite (fun _ ↦ .pure _) fun _ ↦
      .ite (fun _ ↦ governs_pushWeak v) fun _ ↦ governs_pushBorrowed v _

theorem governs_pushPointer (a : Option Address) (t : TypeKey) :
    L.Governs (pushPointer a t) := by
  cases a with
  | none => exact governs_push _
  | some a => exact (governs_exportedType t).bind fun _ ↦ governs_pushView _

theorem governs_pushOwned (t : TypeKey) (a : Address) : L.Governs (pushOwned t a) :=
  (governs_exportedType t).bind fun _ ↦ governs_binding.bind fun _ ↦
    (governs_typeMetatable _).bind fun _ ↦ (governs_pushRecord _ _).bind fun _ ↦
      governs_host.bind fun _ ↦ .ite (fun _ ↦ governs_enrol _ _) fun _ ↦ .pure _

theorem governs_ownsLike (id block : Nat) : L.Governs (ownsLike id block) := by
  refine governs_host.bind fun h ↦ governs_machine.bind fun m ↦ ?_
  split
  · exact .pure _
  · exact .pure _

theorem governs_pushShare (block : Nat) : L.Governs (pushShare block) :=
  governs_host.bind fun _ ↦ (governs_exportedType _).bind fun _ ↦
    governs_registry.bind fun _ ↦
      (governs_retrieve _ fun id ↦ governs_ownsLike id block).bind fun _ ↦
        .ite (fun _ ↦ .pure _) fun _ ↦ (governs_typeMetatable _).bind fun _ ↦
          (governs_pushNew _ _ _).bind fun _ ↦ .pure _

theorem governs_pushOwnedContainer (kind : ContainerKind) (a : Address) :
    L.Governs (pushOwnedContainer kind a) :=
  governs_binding.bind fun _ ↦ governs_pushNew _ _ _

theorem governs_pushContainer (kind : ContainerKind) (a : Option Address) :
    L.Governs (pushContainer kind a) := by
  cases a with
  | none => exact governs_push _
  | some a =>
    exact (governs_retrieve _ fun _ ↦ .pure _).bind fun _ ↦ .ite (fun _ ↦ .pure _) fun _ ↦
      governs_binding.bind fun _ ↦ governs_pushNew _ _ _

/-- A word that may not have been found to pack a reference into. -/
private theorem governs_wordFound (r : Registry) (view : View) (target : Nat)
    (word? : Option UInt64) : L.Governs (match word? with
      | some word => pure (.word word)
      | none => fail (.invalidCast (r.nameOf view.type) (r.nameOf target)) : Exec Value) := by
  cases word? with
  | some word => exact .pure _
  | none => exact governs_fail _

theorem governs_castDown (v : Value) (view : View) (target : Nat) (a : Address) :
    L.Governs (castDown v view target a) := by
  have hweak : L.Governs (weakHandle ⟨a, target⟩) := governs_weakHandle _
  have hword (r : Registry) (word? : Option UInt64) :=
    governs_wordFound (L := L) r view target word?
  refine governs_registry.bind fun r ↦ ?_
  cases v with
  | word word =>
    refine .ite (fun _ ↦ hweak.bind fun handle? ↦ ?_) fun _ ↦ (Law.Governs.pure _).bind (hword r)
    cases handle? with
    | some handle => exact (Law.Governs.pure _).bind (hword r)
    | none => exact (Law.Governs.pure _).bind (hword r)
  | userdata id =>
    refine .ite (fun _ ↦ hweak.bind fun handle? ↦ ?_) fun _ ↦
      (governs_upgradeView _ _ _).bind fun _ ↦ .pure _
    cases handle? with
    | some handle => exact (governs_upgradeView _ _ _).bind fun _ ↦ .pure _
    | none => exact (governs_fail _).bind fun _ ↦ .pure _
  | _ => exact governs_fail _

theorem governs_castValue (v : Value) (target : Nat) : L.Governs (castValue v target) := by
  refine governs_registry.bind fun r ↦ (governs_resolve v).bind fun found ↦ ?_
  cases found with
  | stale type => exact .pure _
  | foreign => exact .ite (fun _ ↦ .pure _) fun _ ↦ governs_fail _
  | live view =>
    refine .ite (fun _ ↦ .pure _) fun _ ↦ governs_machine.bind fun m ↦
      governs_host.bind fun h ↦ ?_
    dsimp only
    split
    · exact governs_castDown _ _ _ _
    · exact governs_fail _

theorem governs_cast (idx : Int) (target : Nat) : L.Governs (cast idx target) :=
  (governs_valueAt idx).bind fun _ ↦ (governs_castValue _ _).bind fun _ ↦ governs_push _

/-! ### Containers -/

theorem governs_position (idx : Int) : L.Governs (position idx) := by
  refine (governs_valueAt idx).bind fun v ↦ ?_
  split
  · exact .pure _
  · exact governs_fail _

theorem governs_element (idx : Int) (t : ScalarType) (container : String)
    (role : ElementRole) : L.Governs (element idx t container role) := by
  refine governs_machine.bind fun m ↦ ?_
  split
  · exact .pure _
  · exact governs_fail _

theorem governs_listAt (a : Address) : L.Governs (listAt a) := by
  refine governs_host.bind fun h ↦ ?_
  split
  · exact .pure _
  · exact .pure _

theorem governs_mapAt (a : Address) : L.Governs (mapAt a) := by
  refine governs_host.bind fun h ↦ ?_
  split
  · exact .pure _
  · exact .pure _

theorem governs_writeContainer (a : Address) (c : Container) :
    L.Governs (writeContainer a c) :=
  governs_modifyHost _

theorem governs_editList (shape : ListShape) (a : Address) (e : ListEdit) :
    L.Governs (editList shape a e) := by
  refine (governs_listAt a).bind fun items ↦ ?_
  split
  · exact governs_writeContainer _ _
  · exact governs_panic _

theorem governs_slotArgument (shape : ListShape) (a : Address) (room : Nat) :
    L.Governs (slotArgument shape a room) :=
  (governs_position 2).bind fun _ ↦ (governs_listAt a).bind fun _ ↦ governs_ofExcept _

theorem governs_listIndex (shape : ListShape) (item : ScalarType) (a : Address) :
    L.Governs (listIndex shape item a) := by
  refine (governs_slotArgument shape a 0).bind fun _ ↦ (governs_listAt a).bind fun _ ↦ ?_
  split
  · exact governs_pushScalar _ _
  · exact (governs_push _).bind fun _ ↦ .pure _

theorem governs_listNewIndex (shape : ListShape) (item : ScalarType) (a : Address) :
    L.Governs (listNewIndex shape item a) := by
  have hedit : L.Governs (newIndexEdit shape item a) :=
    (governs_slotArgument shape a 1).bind fun _ ↦ (governs_element _ _ _ _).bind fun _ ↦
      (governs_listAt a).bind fun _ ↦ .pure _
  exact hedit.bind fun e ↦ (governs_editList shape a e).bind fun _ ↦ .pure _

theorem governs_listInsert (shape : ListShape) (item : ScalarType) (a : Address) :
    L.Governs (listInsert shape item a) := by
  have hedit : L.Governs (insertEdit shape item a) :=
    (governs_slotArgument shape a 1).bind fun _ ↦ (governs_element _ _ _ _).bind fun _ ↦
      .pure _
  exact hedit.bind fun e ↦ (governs_editList shape a e).bind fun _ ↦
    (governs_push _).bind fun _ ↦ .pure _

theorem governs_listRemove (shape : ListShape) (a : Address) :
    L.Governs (listRemove shape a) := by
  have hedit : L.Governs (removeEdit shape a) :=
    (governs_slotArgument shape a 0).bind fun _ ↦ .pure _
  exact hedit.bind fun e ↦ (governs_editList shape a e).bind fun _ ↦ .pure _

theorem governs_listNext (shape : ListShape) (item : ScalarType) :
    L.Governs (listNext shape item) := by
  refine (governs_containerAt _ 1).bind fun a ↦ (governs_position 2).bind fun index ↦
    (governs_listAt a).bind fun items ↦ ?_
  split
  · exact (governs_push _).bind fun _ ↦ (governs_pushScalar _ _).bind fun _ ↦ .pure _
  · exact (governs_push _).bind fun _ ↦ .pure _

theorem governs_mapIndex (shape : MapShape) (key value : ScalarType) (a : Address) :
    L.Governs (mapIndex shape key value a) := by
  refine (governs_element _ _ _ _).bind fun _ ↦ (governs_mapAt a).bind fun _ ↦ ?_
  split
  · exact governs_pushScalar _ _
  · exact (governs_push _).bind fun _ ↦ .pure _

theorem governs_mapNewIndex (shape : MapShape) (key value : ScalarType) (a : Address) :
    L.Governs (mapNewIndex shape key value a) :=
  (governs_element _ _ _ _).bind fun _ ↦ (governs_valueAt 3).bind fun _ ↦
    .ite (fun _ ↦ (governs_mapAt a).bind fun _ ↦ (governs_modifyHost _).bind fun _ ↦ .pure _)
      fun _ ↦ (governs_element _ _ _ _).bind fun _ ↦ (governs_mapAt a).bind fun _ ↦
        (governs_modifyHost _).bind fun _ ↦ .pure _

theorem governs_mapInsert (shape : MapShape) (key value : ScalarType) (a : Address) :
    L.Governs (mapInsert shape key value a) :=
  (governs_element _ _ _ _).bind fun _ ↦ (governs_element _ _ _ _).bind fun _ ↦
    (governs_mapAt a).bind fun _ ↦ .ite
      (fun _ ↦ (governs_modifyHost _).bind fun _ ↦ (governs_push _).bind fun _ ↦ .pure _)
      fun _ ↦ (governs_push _).bind fun _ ↦ .pure _

theorem governs_mapRemove (shape : MapShape) (key : ScalarType) (a : Address) :
    L.Governs (mapRemove shape key a) :=
  (governs_element _ _ _ _).bind fun _ ↦ (governs_mapAt a).bind fun _ ↦
    (governs_modifyHost _).bind fun _ ↦ .pure _

theorem governs_userValue (v : Value) : L.Governs (userValue v) := by
  refine governs_machine.bind fun m ↦ ?_
  split
  · exact .pure _
  · exact .pure _

theorem governs_cursor? (v : Value) (key : ScalarType) : L.Governs (cursor? v key) := by
  refine governs_machine.bind fun m ↦ ?_
  split
  · split
    · exact .pure _
    · exact .pure _
  · exact .pure _

theorem governs_mapNext (shape : MapShape) (key value : ScalarType) :
    L.Governs (mapNext shape key value) := by
  refine (governs_valueAt 1).bind fun v ↦ (governs_userValue v).bind fun _ ↦
    (governs_containerOf _ _).bind fun a ↦ (governs_cursor? v key).bind fun c ↦ ?_
  split
  · exact governs_fail _
  · refine (governs_mapAt a).bind fun bindings ↦ ?_
    dsimp only
    refine (governs_modifyMachine (·.edits_modifyUserdata _ _)).bind fun _ ↦ ?_
    split
    · exact (governs_pushScalar _ _).bind fun _ ↦ (governs_pushScalar _ _).bind fun _ ↦
        .pure _
    · exact (governs_push _).bind fun _ ↦ .pure _

theorem governs_containerArgument : L.Governs containerArgument := by
  refine .reading fun w ↦ ?_
  dsimp only
  split
  · exact .pure _
  · exact governs_fail _

/-- A computation for the container of argument 1. -/
theorem governs_containerArgument_bind {α : Type} {f : ContainerKind × Address → Exec α}
    (hlist : ∀ shape item a, L.Governs (f (.list shape item, a)))
    (hmap : ∀ shape key value a, L.Governs (f (.map shape key value, a))) :
    L.Governs (containerArgument >>= f) := by
  refine governs_containerArgument.bind fun c ↦ ?_
  obtain ⟨kind, a⟩ := c
  cases kind with
  | list shape item => exact hlist shape item a
  | map shape key value => exact hmap shape key value a

theorem governs_containerPairs : L.Governs containerPairs :=
  governs_containerArgument_bind
    (fun _ _ _ ↦ (governs_valueAt 1).bind fun _ ↦ (governs_createFunction _ _).bind fun _ ↦
      (governs_push _).bind fun _ ↦ (governs_push _).bind fun _ ↦
        (governs_push _).bind fun _ ↦ .pure _)
    (fun _ _ _ a ↦ (governs_valueAt 1).bind fun _ ↦ (governs_createFunction _ _).bind fun _ ↦
      (governs_push _).bind fun _ ↦ (governs_mapAt a).bind fun _ ↦
        governs_binding.bind fun _ ↦ (governs_createUserdata _).bind fun _ ↦
          (governs_push _).bind fun _ ↦ (governs_push _).bind fun _ ↦ .pure _)

theorem governs_containerNext (kind : ContainerKind) : L.Governs (containerNext kind) := by
  cases kind with
  | list shape item => exact governs_listNext shape item
  | map shape key value => exact governs_mapNext shape key value

/-! ### Functions of the bridge -/

/-- The payload of a record is destroyed, if it has one. -/
private theorem governs_dropPayload (r : Record) : L.Governs (do
    if let some p := r.payload then
      modifyHost (·.dropPayload p)) := by
  split
  · exact governs_modifyHost _
  · exact .pure _

theorem governs_finalizeRecord (id : Nat) (r : Record) : L.Governs (finalizeRecord id r) := by
  refine governs_binding.bind fun b ↦ (governs_modifyRecord _ _).bind fun _ ↦ ?_
  have hpayload := governs_dropPayload (L := L) r
  dsimp only
  split
  · exact (governs_modifyCache _).bind fun _ ↦ (governs_forget _).bind fun _ ↦ hpayload
  · exact hpayload

theorem governs_finalize : L.Governs finalize := by
  refine governs_machine.bind fun m ↦ ?_
  split
  · split
    · exact (governs_finalizeRecord _ _).bind fun _ ↦ .pure _
    · exact .pure _
  · exact .pure _

theorem governs_libraryCast : L.Governs libraryCast := by
  refine governs_machine.bind fun m ↦ ?_
  split
  · exact (governs_valueAt 2).bind fun _ ↦ governs_fail _
  · refine governs_registry.bind fun r ↦ ?_
    split
    · exact governs_fail _
    · exact (governs_cast _ _).bind fun _ ↦ .pure _

theorem governs_libraryTypeMetatable : L.Governs libraryTypeMetatable := by
  refine governs_registry.bind fun r ↦ governs_machine.bind fun m ↦ ?_
  split
  · exact (governs_typeMetatable _).bind fun _ ↦ (governs_push _).bind fun _ ↦ .pure _
  · exact (governs_push _).bind fun _ ↦ .pure _

/-! ### Preparing a machine -/

theorem governs_setFunction (table : Nat) (name : String) (c : Callable) :
    L.Governs (setFunction table name c) :=
  (governs_createFunction _ _).bind fun _ ↦ governs_rawSetField _ _ _

theorem governs_setBuiltins (table : Nat) (entries : List (String × Builtin)) :
    L.Governs (setBuiltins table entries) :=
  .forM fun _ _ ↦ governs_setFunction _ _ _

theorem governs_setName (metatable : Nat) (name : String) :
    L.Governs (setName metatable name) :=
  (governs_intern name).bind fun _ ↦ governs_rawSetField _ _ _

theorem governs_setRegistryTable (name : String) (table : Nat) :
    L.Governs (setRegistryTable name table) :=
  governs_machine.bind fun _ ↦ governs_rawSetField _ _ _

theorem governs_createBridgeTables : L.Governs createBridgeTables :=
  governs_createTable.bind fun _ ↦ (governs_setRegistryTable _ _).bind fun _ ↦
    governs_createTable.bind fun _ ↦ governs_createTable.bind fun _ ↦
      (governs_intern _).bind fun _ ↦ (governs_rawSetField _ _ _).bind fun _ ↦
        governs_replaceMachine (fun _ _ ↦ Machine.edits_of_setMetatable) <|
          (governs_setRegistryTable _ _).bind fun _ ↦ governs_createTable.bind fun _ ↦
            (governs_setRegistryTable _ _).bind fun _ ↦ governs_createTable.bind fun _ ↦
              (governs_setRegistryTable _ _).bind fun _ ↦ governs_createTable.bind fun _ ↦
                (governs_setRegistryTable _ _).bind fun _ ↦ .pure _

theorem governs_createTypeMetatable (typeMetatables : Nat) (d : Descriptor) :
    L.Governs (createTypeMetatable typeMetatables d) :=
  governs_createTable.bind fun _ ↦ (governs_setName _ _).bind fun _ ↦
    (governs_setBuiltins _ _).bind fun _ ↦ governs_registry.bind fun _ ↦
      (Law.Governs.forM fun _ _ ↦ governs_setFunction _ _ _).bind fun _ ↦
        governs_modifyMachine (·.edits_rawSetPosition _ _ _)

theorem governs_fillContainerMetatables (t : BridgeTables) :
    L.Governs (fillContainerMetatables t) :=
  (governs_setName _ _).bind fun _ ↦ (governs_setBuiltins _ _).bind fun _ ↦
    governs_setName _ _

theorem governs_createLightMetatable : L.Governs createLightMetatable :=
  governs_createTable.bind fun _ ↦ (governs_setName _ _).bind fun _ ↦
    (governs_setBuiltins _ _).bind fun _ ↦ (governs_setRegistryTable _ _).bind fun _ ↦
      governs_modifyMachine fun _ ↦ .of_live rfl rfl (fun _ hr ↦ hr) rfl fun ho ↦ ho

/-- A law governs the preparation of a machine. -/
theorem governs_setup {run : Runner} (hrun : ∀ c, L.Governs (run c)) :
    L.Governs (setup run) := by
  have hlibrary (path : String) : L.Governs (createLibrary run path) :=
    governs_createTable.bind fun _ ↦ (governs_setBuiltins _ _).bind fun _ ↦
      (governs_push _).bind fun _ ↦ governs_setGlobal hrun path
  refine governs_createBridgeTables.bind fun tables ↦
    (governs_modify fun _ ↦ by exact .of_machine rfl rfl).bind fun _ ↦
      governs_binding.bind fun b ↦ (Law.Governs.forM fun _ _ ↦
        governs_createTypeMetatable _ _).bind fun _ ↦
          (governs_fillContainerMetatables _).bind fun _ ↦ ?_
  exact .ite (fun _ ↦ governs_createLightMetatable.bind fun _ ↦ hlibrary _) fun _ ↦ hlibrary _

end Exec

/-- **A law governs every function of the bridge.** -/
theorem Builtin.governs_run {L : Exec.Law} (b : Builtin) : L.Governs b.run := by
  cases b with
  | objectIndex => exact Exec.governs_objectIndex
  | objectNewIndex => exact Exec.governs_objectNewIndex
  | finalize => exact Exec.governs_finalize
  | describe => exact Exec.governs_describe
  | containerIndex =>
    exact Exec.governs_containerArgument_bind Exec.governs_listIndex
      Exec.governs_mapIndex
  | containerNewIndex =>
    exact Exec.governs_containerArgument_bind Exec.governs_listNewIndex
      Exec.governs_mapNewIndex
  | containerLength =>
    exact Exec.governs_containerArgument_bind
      (fun _ _ a ↦ ((Exec.governs_listAt a).map _).bind fun _ ↦
        (Exec.governs_push _).bind fun _ ↦ .pure _)
      (fun _ _ _ a ↦ ((Exec.governs_mapAt a).map _).bind fun _ ↦
        (Exec.governs_push _).bind fun _ ↦ .pure _)
  | containerPairs => exact Exec.governs_containerPairs
  | typeName =>
    exact .reading fun _ ↦ (Exec.governs_valueAt 1).bind fun _ ↦
      (Exec.governs_pushText _).bind fun _ ↦ .pure _
  | isValid =>
    exact .reading fun _ ↦ (Exec.governs_valueAt 1).bind fun _ ↦
      (Exec.governs_push _).bind fun _ ↦ .pure _
  | cast => exact Exec.governs_libraryCast
  | insert =>
    exact Exec.governs_containerArgument_bind Exec.governs_listInsert
      Exec.governs_mapInsert
  | remove =>
    exact Exec.governs_containerArgument_bind (fun shape _ a ↦ Exec.governs_listRemove shape a)
      fun shape key _ a ↦ Exec.governs_mapRemove shape key a
  | clear =>
    exact Exec.governs_containerArgument_bind
      (fun _ _ _ ↦ (Exec.governs_modifyHost _).bind fun _ ↦ .pure _)
      fun _ _ _ _ ↦ (Exec.governs_modifyHost _).bind fun _ ↦ .pure _
  | typeMetatable => exact Exec.governs_libraryTypeMetatable
  | advance kind => exact Exec.governs_containerNext kind

end ObjectBridge
