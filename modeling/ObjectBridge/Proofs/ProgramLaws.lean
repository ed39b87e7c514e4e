import ObjectBridge.Proofs.BridgeLaws

/-!
# What laws govern in programs

Programs are made of actions, each of which makes one call into the bridge, and so a law governs a
program whatever it is made of (`governs_performAll`). Programs call functions and functions run
programs; the induction on the fuel of the runner unties this knot (`Exec.governs_runner`).
-/

namespace ObjectBridge

variable {L : Exec.Law}

namespace Exec

/-! ### Actions of programs -/

theorem governs_operand (v : Operand) : L.Governs (operand v) := by
  cases v with
  | text s => exact governs_intern s
  | slot idx => exact governs_valueAt idx
  | register name => exact governs_desk.bind fun _ ↦ .pure _
  | _ => exact .pure _

theorem governs_operands (vs : List Operand) : L.Governs (operands vs) :=
  .mapM fun v _ ↦ governs_operand v

theorem governs_tableOperand (v : Operand) : L.Governs (tableOperand v) :=
  (governs_operand v).map _

theorem governs_readyArgument (a : Argument) : L.Governs (readyArgument a) := by
  cases a with
  | scalar t d => exact .pure _
  | value v => exact (governs_operand v).map _
  | unit => exact .pure _

theorem governs_shown (v : Value) : L.Governs (shown v) :=
  .reading fun _ ↦ .pure _

theorem governs_shownAll (vs : List Value) : L.Governs (shownAll vs) :=
  .reading fun _ ↦ .pure _

theorem governs_shownTop : L.Governs shownTop :=
  (governs_valueAt _).bind governs_shown

theorem governs_shownCrossed (c : Crossed) : L.Governs (shownCrossed c) := by
  cases c with
  | datum d => exact .pure _
  | value v => exact governs_shown v

theorem governs_silently {body : Exec Unit} (h : L.Governs body) :
    L.Governs (silently body) :=
  h.bind fun _ ↦ .pure _

end Exec

open Exec

theorem StackAction.governs_perform (a : StackAction) : L.Governs a.perform := by
  refine governs_machine.bind fun m ↦ ?_
  cases a with
  | push v => exact (governs_operand v).bind fun _ ↦ (governs_push _).bind fun _ ↦ .pure _
  | pop n => exact governs_silently <| governs_modifyMachine (·.edits_pop n)
  | popValue => exact governs_popValue.bind governs_shown
  | setTop n => exact governs_silently <| governs_setTop n
  | remove idx =>
    exact governs_silently <| governs_modifyMachine (·.edits_remove idx)
  | replace idx v =>
    exact (governs_operand v).bind fun v ↦
      (governs_modifyMachine (·.edits_replace idx v)).bind fun _ ↦ .pure _
  | read idx => exact governs_shown _
  | dump => exact .reading fun _ ↦ .pure _
  | keep name v =>
    exact (governs_operand v).bind fun _ ↦ (governs_modifyDesk _).bind fun _ ↦
      governs_shown _
  | typeName idx => exact .reading fun _ ↦ .pure _
  | isValid idx => exact .reading fun _ ↦ .pure _
  | describe v => exact (governs_operand v).bind fun _ ↦ .pure _
  | compare x y =>
    exact (governs_operand x).bind fun _ ↦ (governs_operand y).bind fun _ ↦ .pure _
  | _ => exact .pure _

/-! ### Actions on objects -/

theorem Exec.governs_withObject (name : String) {body : TypeKey → Address → Exec Report}
    (hbody : ∀ t a, L.Governs (body t a)) : L.Governs (withObject name body) := by
  refine (governs_desk.bind fun _ ↦ .pure _ : L.Governs (namedObject name)).bind fun found ↦ ?_
  split
  · exact hbody _ _
  · exact .pure _

theorem Exec.governs_withShare (name : String) {body : Nat → Block → Exec Report}
    (hbody : ∀ n b, L.Governs (body n b)) : L.Governs (withShare name body) := by
  refine governs_desk.bind fun d ↦ ?_
  split
  · refine governs_host.bind fun h ↦ ?_
    split
    · exact hbody _ _
    · exact .pure _
  · exact .pure _

theorem Exec.governs_keepShare (name : String) (block : Nat) :
    L.Governs (keepShare name block) := by
  refine governs_desk.bind fun d ↦ (governs_modifyDesk _).bind fun _ ↦ ?_
  split
  · exact governs_modifyHost _
  · exact .pure _

theorem Exec.governs_exhibit (t : TypeKey) (a : Address) : L.Governs (exhibit t a) :=
  governs_host.bind fun _ ↦ .pure _

theorem Exec.governs_exhibitSome (t : TypeKey) (a : Option Address) :
    L.Governs (exhibitSome t a) := by
  cases a with
  | some a => exact governs_exhibit t a
  | none => exact .pure _

theorem Exec.governs_viewAddress (t : TypeKey) (a : Address) (view : TypeKey) :
    L.Governs (viewAddress t a view) :=
  governs_host.bind fun _ ↦ .pure _

theorem Exec.governs_pushCreated (t : TypeKey) (given : List (String × Initial)) :
    L.Governs (pushCreated t given) :=
  (governs_updateHost _).bind fun _ ↦ governs_registry.bind fun _ ↦
    .ite (fun _ ↦ (governs_modifyHost _).bind fun _ ↦ governs_pushOwned _ _) fun _ ↦
      governs_pushOwned _ _

theorem Exec.governs_pushOneShare (block : Nat) : L.Governs (pushOneShare block) := by
  refine (governs_modifyHost _).bind fun _ ↦ .bind ?_ fun kept ↦
    .ite (fun _ ↦ governs_modifyHost _) fun _ ↦ .pure _
  exact L.onInterrupt _ (governs_pushShare block)

theorem Exec.governs_inspect (v : Value) : L.Governs (inspect v) := by
  refine governs_binding.bind fun b ↦ ?_
  split
  · exact .pure _
  · split
    · exact .pure _
    · exact .pure _

theorem Exec.governs_addForeign (v : Value) (n : Int64) : L.Governs (addForeign v n) := by
  refine governs_machine.bind fun m ↦ ?_
  split
  · split
    · exact (governs_modifyMachine (·.edits_modifyUserdata _ _)).bind fun _ ↦ .pure _
    · exact .pure _
  · exact .pure _

theorem ObjectAction.governs_perform (a : ObjectAction) : L.Governs a.perform := by
  cases a with
  | create name t given =>
    exact (governs_updateHost _).bind fun _ ↦ (governs_modifyDesk _).bind fun _ ↦ .pure _
  | destroy name =>
    exact governs_withObject name fun t a ↦ governs_silently <| governs_modifyHost _
  | detach name =>
    refine governs_withObject name fun t a ↦ governs_host.bind fun h ↦ ?_
    split
    · exact governs_silently <| governs_modifyHost _
    · exact .pure _
  | anchorSlot name =>
    exact governs_withObject name fun t a ↦ governs_host.bind fun _ ↦ .pure _
  | examine name => exact governs_withObject name governs_exhibit
  | pushPointer name view =>
    exact governs_withObject name fun t a ↦ (governs_viewAddress _ _ _).bind fun _ ↦
      (governs_pushPointer _ _).bind fun _ ↦ governs_shownTop
  | pushNull t => exact governs_silently <| governs_pushPointer _ _
  | pushOwned t given => exact governs_silently <| governs_pushCreated _ _
  | share s name t given =>
    exact (governs_updateHost _).bind fun _ ↦ governs_silently <| governs_keepShare _ _
  | pushShared name =>
    exact governs_withShare name fun block _ ↦ governs_silently <| governs_pushOneShare _
  | pushSharedPointer name =>
    exact governs_withShare name fun _ b ↦ (governs_pushPointer _ _).bind fun _ ↦
      governs_shownTop
  | ownerCount name => exact governs_withShare name fun _ b ↦ .pure _
  | dropShared name =>
    exact governs_withShare name fun block _ ↦ (governs_modifyDesk _).bind fun _ ↦
      (governs_modifyHost _).bind fun _ ↦ .pure _
  | load idx t => exact (governs_loadPointer idx t).bind fun _ ↦ governs_exhibitSome _ _
  | check idx t => exact (governs_checkPointer idx t).bind fun _ ↦ governs_exhibitSome _ _
  | argument idx t => exact (governs_argumentPointer idx t).bind fun _ ↦ governs_exhibit _ _
  | loadShared s idx t =>
    refine (governs_loadShare s idx t).bind fun block ↦ governs_host.bind fun h ↦ ?_
    split
    · exact (governs_exhibit _ _).bind fun _ ↦ .pure _
    · exact .pure _
  | repush idx t =>
    exact (governs_loadPointer idx t).bind fun _ ↦ (governs_pushPointer _ _).bind fun _ ↦
      governs_shownTop
  | cast idx name =>
    refine governs_registry.bind fun r ↦ ?_
    split
    · exact (governs_cast _ _).bind fun _ ↦ governs_shownTop
    · exact governs_fail _
  | inspect v => exact (governs_operand v).bind governs_inspect
  | weakResolve handle t =>
    refine governs_binding.bind fun b ↦ governs_host.bind fun h ↦ ?_
    split
    · exact governs_exhibitSome _ _
    · exact .pure _
  | weakCount => exact governs_weakTable.bind fun _ ↦ .pure _
  | pushForeign n =>
    exact (governs_createUserdata _).bind fun _ ↦ (governs_push _).bind fun _ ↦ .pure _
  | addForeign v n => exact (governs_operand v).bind fun _ ↦ governs_addForeign _ _

/-! ### Actions on containers -/

theorem Exec.governs_withContainer (name : String) {body : ContainerKind → Address → Exec Report}
    (hbody : ∀ kind a, L.Governs (body kind a)) : L.Governs (withContainer name body) := by
  refine governs_desk.bind fun d ↦ ?_
  split
  · exact hbody _ _
  · exact .pure _

theorem ContainerAction.governs_perform (a : ContainerAction) : L.Governs a.perform := by
  cases a with
  | create name kind content =>
    exact (governs_updateHost _).bind fun _ ↦ (governs_modifyDesk _).bind fun _ ↦ .pure _
  | examine name =>
    exact governs_withContainer name fun _ _ ↦ governs_host.bind fun _ ↦ .pure _
  | pushPointer name =>
    exact governs_withContainer name fun _ _ ↦
      governs_silently <| governs_pushContainer _ _
  | pushNull kind => exact governs_silently <| governs_pushContainer _ _
  | pushOwned kind content =>
    exact (governs_updateHost _).bind fun _ ↦ governs_silently <|
      governs_pushOwnedContainer _ _
  | load idx kind =>
    exact (governs_containerAt kind idx).bind fun _ ↦ governs_host.bind fun _ ↦ .pure _
  | repush idx kind =>
    exact (governs_containerAt kind idx).bind fun _ ↦ governs_silently <|
      governs_pushContainer _ _

/-! ### Questions to the registry -/

theorem Exec.governs_withView (name : String) (view : TypeKey) (type : String)
    {body : Address → View → Exec Report} (hbody : ∀ a v, L.Governs (body a v)) :
    L.Governs (withView name view type body) :=
  governs_withObject name fun t start ↦ governs_registry.bind fun r ↦ by
    split
    · exact (governs_viewAddress _ _ _).bind fun _ ↦ hbody _ _
    · exact .pure _

theorem RegistryAction.governs_perform (a : RegistryAction) : L.Governs a.perform := by
  cases a with
  | isBase x y =>
    refine governs_registry.bind fun r ↦ ?_
    split
    · exact .pure _
    · exact .pure _
  | find name => exact governs_registry.bind fun _ ↦ .pure _
  | typeId t => exact governs_registry.bind fun _ ↦ .pure _
  | nameOf id => exact governs_registry.bind fun _ ↦ .pure _
  | toSuper name view type target =>
    rw [RegistryAction.perform]
    refine governs_withView name view type fun start v ↦ ?_
    exact governs_registry.bind fun _ ↦ .pure _
  | toDerived name view type target =>
    rw [RegistryAction.perform]
    refine governs_withView name view type fun start v ↦ ?_
    exact governs_registry.bind fun _ ↦ governs_host.bind fun _ ↦ .pure _
  | root name view type =>
    rw [RegistryAction.perform]
    refine governs_withView name view type fun start v ↦ ?_
    exact governs_registry.bind fun _ ↦ .pure _
  | settings => exact governs_binding.bind fun _ ↦ .pure _

/-! ### Actions on tables -/

section Tables

variable {run : Runner} (hrun : ∀ c, L.Governs (run c))

theorem Exec.governs_withTable (v : Operand) {body : Nat → Exec Report}
    (hbody : ∀ t, L.Governs (body t)) : L.Governs (withTable v body) := by
  refine (governs_tableOperand v).bind fun t ↦ ?_
  split
  · exact hbody _
  · exact governs_panic _

include hrun

theorem Exec.governs_bindingsFrom (next state : Value) (fuel : Nat) (key : Value) :
    L.Governs (bindingsFrom run next state fuel key) := by
  induction fuel generalizing key with
  | zero => exact .pure _
  | succ fuel ih =>
    refine (governs_callFunction hrun _ _).bind fun results ↦ ?_
    split
    · exact .pure _
    · exact .pure _
    · exact .reading fun _ ↦ (ih _).bind fun _ ↦ .pure _

theorem Exec.governs_bindings (obj : Value) : L.Governs (bindings run obj) :=
  (governs_iterate hrun obj).bind fun _ ↦ .guarded <| (governs_push _).bind fun _ ↦
    (governs_push _).bind fun _ ↦ governs_bindingsFrom hrun _ _ _ _

theorem Exec.governs_toText (obj : Value) : L.Governs (toText run obj) :=
  governs_machine.bind fun _ ↦ (governs_callFunction hrun _ _).bind fun _ ↦
    governs_machine.bind fun _ ↦ .pure _

theorem TableAction.governs_perform (a : TableAction) : L.Governs (a.perform run) := by
  cases a with
  | create => exact governs_createTable.bind fun _ ↦ (governs_push _).bind fun _ ↦ .pure _
  | rawGet t k =>
    exact governs_withTable t fun t ↦ (governs_operand k).bind fun _ ↦
      governs_machine.bind fun _ ↦ governs_shown _
  | rawSet t k v =>
    exact governs_withTable t fun t ↦ (governs_operand k).bind fun _ ↦
      (governs_operand v).bind fun _ ↦ governs_silently <| governs_rawSet _ _ _
  | rawGetField t name =>
    exact governs_withTable t fun t ↦ governs_machine.bind fun _ ↦ governs_shown _
  | rawSetField t name v =>
    exact governs_withTable t fun t ↦ (governs_operand v).bind fun _ ↦
      governs_silently <| governs_rawSetField _ _ _
  | rawGetPosition t n =>
    exact governs_withTable t fun t ↦ governs_machine.bind fun _ ↦ governs_shown _
  | rawSetPosition t n v =>
    exact governs_withTable t fun t ↦ (governs_operand v).bind fun _ ↦
      governs_silently <| governs_modifyMachine (·.edits_rawSetPosition _ _ _)
  | rawLength t => exact governs_withTable t fun t ↦ governs_machine.bind fun _ ↦ .pure _
  | setMetatable o mt =>
    exact (governs_operand o).bind fun _ ↦ (governs_tableOperand mt).bind fun _ ↦
      governs_replaceMachine (fun _ _ ↦ Machine.edits_of_setMetatable) (.pure _)
  | getMetatable o =>
    exact (governs_operand o).bind fun _ ↦ governs_machine.bind fun _ ↦
      (governs_push _).bind fun _ ↦ governs_shown _
  | metafield o name =>
    exact (governs_operand o).bind fun _ ↦ governs_machine.bind fun _ ↦ governs_shown _
  | reference t v =>
    exact governs_withTable t fun t ↦ (governs_operand v).bind fun _ ↦
      (governs_reference _ _).bind fun _ ↦ .pure _
  | unreference t r =>
    exact governs_withTable t fun t ↦ governs_silently <|
      governs_modifyMachine (·.edits_unreference _ _)
  | getTable idx => exact (governs_getTable hrun idx).bind fun _ ↦ governs_shownTop
  | getField idx name => exact (governs_getField hrun idx name).bind fun _ ↦ governs_shownTop
  | pushLength idx => exact (governs_pushLength hrun idx).bind fun _ ↦ governs_shownTop
  | setTable idx => exact governs_silently <| governs_setTable hrun idx
  | setField idx name => exact governs_silently <| governs_setField hrun idx name
  | index o k =>
    exact (governs_operand o).bind fun _ ↦ (governs_operand k).bind fun _ ↦
      (governs_index hrun _ _).bind fun _ ↦ governs_shown _
  | newIndex o k v =>
    exact (governs_operand o).bind fun _ ↦ (governs_operand k).bind fun _ ↦
      (governs_operand v).bind fun _ ↦ governs_silently <| governs_newIndex hrun _ _ _
  | length o =>
    exact (governs_operand o).bind fun _ ↦ (governs_length hrun _).bind fun _ ↦
      governs_shown _
  | iterate o =>
    exact (governs_operand o).bind fun _ ↦ (governs_iterate hrun _).bind fun _ ↦
      (governs_pushAll _).bind fun _ ↦ governs_shownAll _
  | pairs o =>
    exact (governs_operand o).bind fun _ ↦ (governs_bindings hrun _).bind fun _ ↦
      .reading fun _ ↦ .pure _
  | toText o =>
    exact (governs_operand o).bind fun _ ↦ (governs_toText hrun _).bind fun _ ↦ .pure _

end Tables

/-! ### Actions that call -/

theorem Routine.governs_run (r : Routine) : L.Governs r.run := by
  cases r with
  | echo => exact governs_top
  | count => exact governs_top.bind fun _ ↦ (governs_push _).bind fun _ ↦ .pure _
  | nothing => exact .pure _
  | overclaim => exact governs_top.bind fun _ ↦ .pure _
  | fail text => exact governs_fail _
  | panic text => exact governs_panic _
  | say text => exact (governs_pushText text).bind fun _ ↦ .pure _

theorem Exec.governs_keepNumbered (n : Nat) (vs : List Value) :
    L.Governs (keepNumbered n vs) := by
  induction vs generalizing n with
  | nil => exact .pure _
  | cons v vs ih => exact (governs_modifyDesk _).bind fun _ ↦ ih _

section Calls

variable {run : Runner} (hrun : ∀ c, L.Governs (run c))

include hrun

theorem Exec.governs_invoke (path : String) (args : List Operand) :
    L.Governs (invoke run path args) :=
  (governs_loadGlobal hrun path).bind fun _ ↦ governs_popValue.bind fun _ ↦
    (governs_operands args).bind fun _ ↦ (governs_callFunction hrun _ _).bind fun _ ↦
      (governs_keepNumbered _ _).bind fun _ ↦ .pure _

theorem CallAction.governs_perform (a : CallAction) : L.Governs (a.perform run) := by
  have hready (args : List Argument) : L.Governs (args.mapM readyArgument) :=
    .mapM fun a _ ↦ governs_readyArgument a
  have hcrossed (cs : List Crossed) : L.Governs (do return Report.list (← cs.mapM shownCrossed)) :=
    (Law.Governs.mapM fun c _ ↦ governs_shownCrossed c).bind fun _ ↦ .pure _
  cases a with
  | pushRoutine name r =>
    exact (governs_createFunction _ _).bind fun _ ↦ (governs_push _).bind fun _ ↦ .pure _
  | call nargs nresults => exact (L.call _ _ hrun).bind fun _ ↦ .pure _
  | tryCall nargs nresults => exact (L.tryCall _ _ hrun).bind fun _ ↦ .pure _
  | protectedCall f args =>
    exact (governs_operand f).bind fun _ ↦ (governs_operands args).bind fun _ ↦
      (governs_protectedCall hrun _ _).bind fun _ ↦ (governs_shownAll _).bind fun _ ↦ .pure _
  | callFunction f args =>
    exact (governs_operand f).bind fun _ ↦ (governs_operands args).bind fun _ ↦
      (governs_callFunction hrun _ _).bind fun _ ↦ governs_shownAll _
  | invoke path args =>
    exact (governs_invoke hrun path args).bind fun _ ↦ governs_shownAll _
  | callWith f args results =>
    exact (governs_operand f).bind fun _ ↦ (hready args).bind fun _ ↦
      (governs_callWith hrun _ _ _).bind fun _ ↦ hcrossed _
  | callGlobal path args results =>
    exact (hready args).bind fun _ ↦ (governs_callGlobal hrun _ _ _).bind fun _ ↦ hcrossed _
  | getGlobal path t =>
    exact (governs_getGlobal hrun path t).bind fun _ ↦ governs_shownCrossed _
  | loadGlobal path => exact (governs_loadGlobal hrun path).bind fun _ ↦ governs_shownTop
  | setGlobal path => exact governs_silently <| governs_setGlobal hrun path
  | makeGlobal path => exact governs_silently <| governs_makeGlobal path
  | fail f => exact governs_fail f
  | panic text => exact governs_panic text
  | convert t v =>
    refine (governs_operand v).bind fun v ↦ governs_machine.bind fun m ↦ ?_
    split
    · exact governs_shownCrossed _
    · exact governs_fail _
  | pushConverted a =>
    exact (governs_readyArgument a).bind fun _ ↦ (governs_pushArgument _).bind fun _ ↦
      governs_shownTop.bind fun _ ↦ .pure _

end Calls

/-! ### Actions of the collector, and pins -/

theorem Exec.governs_dropPin (h : PinHandle) : L.Governs (dropPin h) :=
  governs_modifyPins _ _

theorem Exec.governs_keepPin (name : String) (h : PinHandle) : L.Governs (keepPin name h) := by
  refine governs_desk.bind fun d ↦ (governs_modifyDesk _).bind fun _ ↦ ?_
  split
  · exact governs_dropPin _
  · exact .pure _

theorem Exec.governs_pinReference (h : PinHandle) : L.Governs (pinReference h) :=
  .reading fun _ ↦ .pure _

theorem Exec.governs_pinValue (idx : Int) : L.Governs (pinValue idx) :=
  governs_flushPins.bind fun _ ↦ (governs_valueAt idx).bind fun _ ↦
    .ite (fun _ ↦ .pure _) fun _ ↦ governs_binding.bind fun _ ↦
      (governs_reference _ _).bind fun _ ↦ .reading fun _ ↦
        (governs_modifyPins _ _).bind fun _ ↦ .pure _

theorem Exec.governs_pushPin (h : PinHandle) : L.Governs (pushPin h) := by
  refine governs_binding.bind fun b ↦ (governs_pinReference h).bind fun r ↦ ?_
  split
  · exact governs_push _
  · exact governs_push _

theorem Exec.governs_withPin (name : String) {body : PinHandle → Exec Report}
    (hbody : ∀ h, L.Governs (body h)) : L.Governs (withPin name body) := by
  refine governs_desk.bind fun d ↦ ?_
  split
  · exact hbody _
  · exact .pure _

theorem CollectAction.governs_perform {run : Runner} (hrun : ∀ c, L.Governs (run c))
    (a : CollectAction) : L.Governs (a.perform run) := by
  cases a with
  | collect =>
    exact (governs_modifyDesk _).bind fun _ ↦ (governs_collect hrun).bind fun _ ↦ .pure _
  | collectAll =>
    exact (governs_modifyDesk _).bind fun _ ↦ (governs_collectAll hrun _).bind fun _ ↦ .pure _
  | statistics => exact governs_machine.bind fun _ ↦ .pure _
  | cacheLength => exact governs_binding.bind fun _ ↦ .pure _
  | farewells => exact (governs_updateHost _).bind fun _ ↦ .pure _
  | pin idx name =>
    refine (governs_pinValue idx).bind fun h ↦ ?_
    split
    · refine (governs_keepPin name _).bind fun _ ↦ (governs_pinReference _).bind fun r ↦ ?_
      split
      · exact .pure _
      · exact .pure _
    · exact .pure _
  | pushPin name =>
    exact governs_withPin name fun h ↦ (governs_pushPin h).bind fun _ ↦ governs_shownTop
  | clonePin source target =>
    exact governs_withPin source fun h ↦ (governs_modifyPins _ _).bind fun _ ↦
      (governs_keepPin target h).bind fun _ ↦ .pure _
  | dropPin name =>
    exact governs_withPin name fun h ↦ (governs_modifyDesk _).bind fun _ ↦
      (governs_dropPin h).bind fun _ ↦ .pure _
  | showPin name =>
    exact governs_withPin name fun h ↦ (governs_pinReference h).bind fun _ ↦ .pure _
  | sameSlot x y => exact governs_withPin x fun h ↦ governs_withPin y fun k ↦ .pure _
  | pinCount => exact .reading fun _ ↦ .pure _

/-! ### Programs -/

namespace Exec

theorem governs_note (r : Report) : L.Governs (note r) :=
  governs_modify fun _ ↦ .of_machine rfl rfl

theorem governs_noted {body : Exec Report} (h : L.Governs body) : L.Governs (noted body) := by
  refine h.attempt.bind fun r ↦ ?_
  cases r with
  | ok r => exact governs_note r
  | error f => exact (governs_note _).bind fun _ ↦ governs_fail f

theorem governs_times (n : Nat) {body : Exec Unit} (h : L.Governs body) :
    L.Governs (times n body) := by
  induction n with
  | zero => exact .pure _
  | succ n ih => exact h.bind fun _ ↦ ih

end Exec

mutual

theorem Action.governs_perform {run : Runner} (hrun : ∀ c, L.Governs (run c)) (a : Action) :
    L.Governs (a.perform run) :=
  match a with
  | .stack a => (governs_noted a.governs_perform).seqRight (.pure _)
  | .table a => (governs_noted (a.governs_perform hrun)).seqRight (.pure _)
  | .call a => (governs_noted (a.governs_perform hrun)).seqRight (.pure _)
  | .object a => (governs_noted a.governs_perform).seqRight (.pure _)
  | .container a => (governs_noted a.governs_perform).seqRight (.pure _)
  | .collect a => (governs_noted (a.governs_perform hrun)).seqRight (.pure _)
  | .registry a => (governs_noted a.governs_perform).seqRight (.pure _)
  | .closure _ _ =>
    (governs_noted ((governs_createFunction _ _).bind fun _ ↦ (governs_push _).bind
      fun _ ↦ .pure _)).seqRight (.pure _)
  | .guarded body =>
    (governs_noted (governs_top.bind fun _ ↦ (governs_performAll hrun body).guarded.bind
      fun _ ↦ .pure _)).seqRight (.pure _)
  | .repeated n body =>
    (governs_noted ((L.muted (governs_times n
      ((governs_performAll hrun body).bind fun _ ↦ .pure _))).bind fun _ ↦ .pure _)).seqRight
      (.pure _)
  | .finish _ => .pure _

/-- **A law governs every program**, whatever actions it is made of. -/
theorem governs_performAll {run : Runner} (hrun : ∀ c, L.Governs (run c))
    (body : List Action) : L.Governs (performAll run body) :=
  match body with
  | [] => .pure _
  | a :: rest => (a.governs_perform hrun).bind fun n ↦ by
    cases n with
    | some n => exact .pure _
    | none => exact governs_performAll hrun rest

end

theorem governs_runProgram {run : Runner} (hrun : ∀ c, L.Governs (run c))
    (body : List Action) : L.Governs (runProgram run body) := by
  refine L.deeper ((governs_performAll hrun body).bind fun n ↦ ?_)
  cases n with
  | none => exact .pure _
  | some n =>
    cases n with
    | exactly n => exact .pure _
    | all => exact governs_top

theorem MethodBody.governs_run (a : Address) (body : MethodBody) : L.Governs (body.run a) := by
  cases body with
  | routine r => exact r.governs_run
  | compute result f =>
    exact governs_machine.bind fun _ ↦ (governs_updateHost _).bind fun _ ↦
      governs_pushScalar _ _

/-- **A law governs every function**, for programs that run inside one another to any depth. -/
theorem Exec.governs_runner (fuel : Nat) (c : Callable) : L.Governs (runner fuel c) := by
  -- By induction on how deep programs run: what a program calls runs with less fuel.
  induction fuel generalizing c with
  | zero =>
    cases c with
    | builtin b => exact b.governs_run
    | routine r => exact r.governs_run
    | method owner body =>
      exact (governs_argumentPointer 1 owner).bind fun _ ↦ body.governs_run _
    | program body => exact .throw _
  | succ fuel ih =>
    cases c with
    | builtin b => exact b.governs_run
    | routine r => exact r.governs_run
    | method owner body =>
      exact (governs_argumentPointer 1 owner).bind fun _ ↦ body.governs_run _
    | program body => exact governs_runProgram ih body

end ObjectBridge
