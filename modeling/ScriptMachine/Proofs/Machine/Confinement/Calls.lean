import ScriptMachine.Proofs.Machine.Confinement.Operations
import ScriptMachine.Proofs.Machine.Turn
import ScriptMachine.Proofs.Machine.Dispatch

/-!
Calls, and every activity of a machine. A relation that takes in the natives of a host as well
confines whatever calls them, and so every instruction but the two that bind a global.
-/

namespace ScriptMachine.Machine

open World

variable {α : Type} {R : Machine → Machine → Prop} {host : Host} {m : Machine}

/-- Operations that bind a global. -/
def globalOps : List Opcode := [.globalDefine, .globalSet]

section Unbinding

variable [htolerant : Tolerant R]

/-! Closures. -/

theorem confined_bindArguments (proto : Prototype) (count : Nat) :
    Confined R (bindArguments proto count) := by
  have hpad (missing : Array Value) :
      Confined R (modify fun m : Machine => { m with stack := m.stack ++ missing } : Exec Unit) :=
    confined_modify fun _ => htolerant.aside rfl rfl
  unfold bindArguments
  dsimp only
  split
  · refine confined_read fun m => ?_
    split
    · exact confined_throw _
    · refine (confined_takeTop _).bind fun rest => (hpad _).bind fun _ => ?_
      exact confined_pushObject _
  · exact hpad _

theorem confined_callClosure (r : Ref) (proto : Prototype) (count : Nat) :
    Confined R (callClosure r proto count) := by
  refine confined_read fun m => ?_
  split
  · exact confined_misuse _
  · split
    · exact confined_misuse _
    · split
      · exact confined_throw _
      · refine (confined_bindArguments proto count).bind fun _ => confined_get fun m => ?_
        split
        · exact confined_throw _ m
        · exact htolerant.aside rfl rfl

theorem confined_replaceFrom (base : Nat) (v : Value) : Confined R (replaceFrom base v) :=
  Confined.bind (confined_modify fun _ => htolerant.aside rfl rfl) fun _ => confined_push v

theorem Confined.proceed {action : Exec Unit} (haction : Confined R action) :
    Confined R (proceed action) := haction.bind fun _ => confined_pure _

theorem Confined.maybeReturn {action : Exec (Option Value)} (haction : Confined R action) :
    Confined R (maybeReturn action) := haction.bind fun _ => confined_pure _

theorem tolerates_entered (m : Machine) (proto : Prototype) : R m (m.entered proto) :=
  htolerant.trans (htolerant.alloc m (.function proto))
    (htolerant.trans (htolerant.alloc (m.alloc (.function proto)).2
      (.closure { function := (m.heap.alloc (.function proto)).1, proto, upvalues := [] }))
      (htolerant.aside rfl rfl))

theorem confined_takeResult : Confined R takeResult :=
  confined_pop.bind fun v =>
    Confined.bind (confined_modify fun _ => htolerant.aside rfl rfl) fun _ => confined_pure v

end Unbinding

variable [htolerant : Tolerant R] [hhost : host.Within R]

/-! Natives. -/

theorem tolerates_native (m : Machine) (routine : Routine) (receiver : Value)
    (args : Array Value) : R m (native host routine receiver args m).2 := by
  cases routine with
  | exceptionInit =>
    have hinit : native host .exceptionInit receiver args m = exceptionInit receiver args m := rfl
    rw [hinit]
    rcases exceptionInit_cases receiver args m with ⟨v, -, heq⟩ | ⟨text, heq⟩
    · rw [heq]
      exact tolerates_setField _ _ _ _
    · rw [heq]
      exact htolerant.trans (htolerant.intern m text) (tolerates_setField _ _ _ _)
  | host name => exact hhost.native name receiver args m

theorem confined_runRoutine (routine : Routine) (receiver : Value) (args : Array Value) :
    Confined R (runRoutine host routine receiver args) := by
  refine Confined.bind (confined_modifyGet fun m => tolerates_native m routine receiver args) ?_
  intro result
  split
  · exact confined_pure _
  · refine confined_get fun m => ?_
    split
    · exact ConfinedAt.bind (htolerant.aside rfl rfl) fun _ => confined_throw _
    · exact confined_breach _ m

theorem confined_runNative (n : NativeFunction) (count : Nat) :
    Confined R (runNative host n count) := by
  intro m
  unfold ConfinedAt
  rcases @runNative_cases host n count m with ⟨what, heq⟩ | heq | ⟨-, heq⟩
  · rw [heq]
    exact confined_misuse what m
  · rw [heq]
    exact confined_breach _ m
  · rw [heq]
    exact confined_runRoutine _ _ _ m

theorem confined_callNative (n : NativeFunction) (count : Nat) :
    Confined R (callNative host n count) :=
  (confined_calleeSlot count).bind fun base =>
    (confined_runNative n count).bind (confined_replaceFrom base)

/-! Classes and values. -/

theorem confined_construct (c : Class) (base : Nat) (this : Value) (count : Nat) :
    Confined R (construct host c base this count) := by
  refine confined_read fun m => ?_
  split
  · exact confined_callClosure _ _ _
  · exact (confined_runNative _ _).bind fun _ => confined_replaceFrom _ _
  · exact confined_breach _
  · split
    · exact confined_misuse _
    · exact confined_pure ()

theorem confined_instantiate (r : Ref) (c : Class) (count : Nat) :
    Confined R (instantiate host r c count) := by
  refine (confined_calleeSlot count).bind fun base => confined_read fun m => ?_
  split
  · exact confined_throw _
  · refine Confined.bind (confined_modifyGet fun m => htolerant.alloc m _) fun this => ?_
    exact (confined_setSlot _ _).bind fun _ => confined_construct _ _ _ _

theorem confined_callTarget (m : Machine) (target : Value) (count : Nat) :
    Confined R (callTarget host m target count) := by
  unfold callTarget
  split
  · exact confined_callClosure _ _ _
  · exact confined_callNative _ _
  · exact confined_instantiate _ _ _
  · exact confined_misuse _

theorem confined_callValue (v : Value) (count : Nat) : Confined R (callValue host v count) := by
  refine confined_read fun m => ?_
  split
  · exact confined_throw _
  · next receiver? target _ =>
    have htarget : Confined R (callTarget host m target count) := confined_callTarget m target count
    cases receiver? with
    | none => exact htarget
    | some receiver =>
      exact (confined_calleeSlot count).bind fun base =>
        (confined_setSlot base receiver).bind fun _ => htarget

/-- A value takes the place of the callee and is called. -/
theorem confined_callInstead (value callee : Value) (count : Nat) :
    Confined R (do setSlot (← calleeSlot count) value; callValue host callee count) :=
  (confined_calleeSlot count).bind fun base =>
    (confined_setSlot base value).bind fun _ => confined_callValue callee count

/-! Invocation. -/

theorem confined_runGetter (receiver getter : Value) :
    Confined R (runGetter host receiver getter) := by
  refine confined_read fun m => ?_
  split
  · exact confined_runRoutine _ _ _
  · exact confined_breach _

theorem confined_invokeProperty (receiver : Value) (e : Entry) (count : Nat) :
    Confined R (invokeProperty host receiver e count) := by
  unfold invokeProperty
  cases e.kind with
  | value =>
    exact (confined_pure e.value).bind fun value => confined_callInstead value value count
  | getter =>
    exact (confined_runGetter receiver e.value).bind fun value =>
      confined_callInstead value value count

theorem confined_invokeMethod (receiver : Value) (e : Entry) (count : Nat) :
    Confined R (invokeMethod host receiver e count) := by
  unfold invokeMethod
  cases e.kind with
  | value => exact confined_callValue _ _
  | getter => exact confined_invokeProperty _ _ _

theorem confined_invokeOnInstance (receiver : Value) (cls : Ref) (name : Value) (count : Nat)
    (fromSelf : Bool) : Confined R (invokeOnInstance host receiver cls name count fromSelf) := by
  refine confined_read fun m => ?_
  split
  · exact confined_invokeProperty _ _ _
  · split
    · exact confined_misuse _
    · refine (confined_findMethod cls name).bind fun found => ?_
      split
      · exact confined_invokeMethod _ _ _
      · exact confined_misuse _

theorem confined_invoke (name : Value) (count : Nat) (fromSelf : Bool) :
    Confined R (invoke host name count fromSelf) := by
  refine (confined_peek count).bind fun receiver => (confined_calleeSlot count).bind fun base => ?_
  refine confined_read fun m => ?_
  split
  · exact confined_invokeOnInstance _ _ _ _ _
  · split
    · split
      · exact confined_callValue _ _
      · exact confined_misuse _
    · split
      · exact (confined_setSlot _ _).bind fun _ => confined_callValue _ _
      · refine (confined_primitiveMethod receiver name).bind fun found => ?_
        split
        · exact confined_invokeMethod _ _ _
        · exact confined_misuse _

theorem confined_invokeSuper (name : Value) (count : Nat) :
    Confined R (invokeSuper host name count) := by
  refine confined_popClass.bind fun superclass => ?_
  refine (confined_findMethod superclass name).bind fun found => ?_
  split
  · exact confined_callValue _ _
  · exact confined_read fun _ => confined_misuse _

theorem confined_superConstructor (count : Nat) : Confined R (superConstructor host count) := by
  refine confined_popClass.bind fun superclass => confined_read fun m => ?_
  split
  · split
    · refine (confined_calleeSlot count).bind fun base => ?_
      exact (confined_runNative _ count).bind fun _ => confined_replaceFrom _ _
    · exact confined_callValue _ _
  · split
    · exact confined_misuse _
    · exact confined_pure ()

/-! Properties. -/

theorem confined_showField (receiver : Value) (e : Entry) :
    Confined R (showField host receiver e) := by
  unfold showField
  cases e.kind with
  | value => exact confined_setTop _
  | getter => exact confined_callInstead receiver e.value 0

theorem confined_showMethod (receiver : Value) (e : Entry) :
    Confined R (showMethod host receiver e) := by
  unfold showMethod
  cases e.kind with
  | value => exact confined_bindTop _ _
  | getter => exact confined_showField _ _

theorem confined_getOnInstance (receiver : Value) (cls : Ref) (name : Value) (fromSelf : Bool) :
    Confined R (getOnInstance host receiver cls name fromSelf) := by
  refine confined_read fun m => ?_
  split
  · exact confined_misuse _
  · split
    · exact confined_showField _ _
    · refine (confined_findMethod cls name).bind fun found => ?_
      split
      · exact confined_showMethod _ _
      · exact confined_misuse _

theorem confined_getOnClass (receiver : Value) (c : Class) (name : Value) (fromSelf : Bool) :
    Confined R (getOnClass host receiver c name fromSelf) := by
  refine confined_read fun m => ?_
  split
  · split
    · exact confined_misuse _
    · exact confined_showField _ _
  · exact confined_misuse _

theorem confined_getOnPrimitive (receiver name : Value) :
    Confined R (getOnPrimitive host receiver name) := by
  refine confined_read fun m => ?_
  split
  · refine (confined_primitiveMethod receiver name).bind fun found => ?_
    split
    · exact confined_showMethod _ _
    · exact confined_misuse _
  · exact confined_misuse _

theorem confined_getProperty (name : Value) (fromSelf : Bool) :
    Confined R (getProperty host name fromSelf) := by
  refine (confined_peek 0).bind fun receiver => confined_read fun m => ?_
  split
  · exact confined_getOnInstance _ _ _ _
  · split
    · exact confined_getOnClass _ _ _ _
    · split
      · exact confined_showField _ _
      · exact confined_getOnPrimitive _ _

/-! Instructions. -/

/-- Every operation but those that bind a global. -/
theorem confined_execute (start : Nat) {op : Opcode} (hop : op ∉ globalOps) :
    Confined R (execute host start op) := by
  cases op with
  | globalDefine | globalSet => simp [globalOps] at hop
  | pushConst => exact (confined_fetchConstant.bind fun v => confined_push v).proceed
  | pushNil | pushEmpty | pushTrue | pushFalse | pushOne => exact (confined_push _).proceed
  | pop => exact (confined_pop.bind fun _ => confined_pure ()).proceed
  | popN => exact (confined_fetchShort.bind fun _ => confined_drop _).proceed
  | dup => exact ((confined_peek 0).bind fun v => confined_push v).proceed
  | globalGet => exact (confined_fetchConstant.bind fun v => confined_getNamed v).proceed
  | localGet => exact (confined_fetchShort.bind fun _ => confined_getLocal _).proceed
  | localSet => exact (confined_fetchShort.bind fun _ => confined_setLocal _).proceed
  | argDefault => exact (confined_fetchShort.bind fun _ => confined_defaultLocal _).proceed
  | upvalueGet =>
    exact (confined_fetchShort.bind fun _ =>
      (confined_readUpvalue _).bind fun v => confined_push v).proceed
  | upvalueSet =>
    exact (confined_fetchShort.bind fun _ =>
      (confined_peek 0).bind fun v => confined_writeUpvalue _ v).proceed
  | closeUpvalue => exact confined_closeTop.proceed
  | add => exact confined_add.proceed
  | mul => exact confined_multiply.proceed
  | sub | div | floorDiv | mod | pow | bitAnd | bitOr | bitXor | shiftLeft | shiftRight | greater
  | less => exact (confined_binaryNumber _ _).proceed
  | negate | bitNot => exact (confined_unaryNumber _ _).proceed
  | not =>
    exact (confined_pop.bind fun _ => confined_read fun _ => confined_push _).proceed
  | equal =>
    exact (confined_pop.bind fun _ => confined_pop.bind fun _ => confined_push _).proceed
  | jump => exact (confined_fetchShort.bind fun _ => confined_jumpBy _).proceed
  | jumpIfFalse => exact (confined_fetchShort.bind fun _ => confined_jumpIfFalse _).proceed
  | loop => exact (confined_fetchShort.bind fun _ => confined_jumpBack start _).proceed
  | call =>
    exact (confined_fetchByte.bind fun _ =>
      (confined_peek _).bind fun v => confined_callValue v _).proceed
  | invoke | invokeSelf =>
    exact (confined_fetchConstant.bind fun _ =>
      confined_fetchByte.bind fun _ => confined_invoke _ _ _).proceed
  | invokeSuper =>
    exact (confined_fetchConstant.bind fun _ =>
      confined_fetchByte.bind fun _ => confined_invokeSuper _ _).proceed
  | superConstructor =>
    exact (confined_fetchByte.bind fun _ => confined_superConstructor _).proceed
  | makeClosure => exact confined_makeClosure.proceed
  | ret => exact (confined_pop.bind fun v => confined_finishReturn v).maybeReturn
  | makeClass => exact (confined_fetchConstant.bind fun v => confined_makeClass v).proceed
  | makeMethod => exact (confined_fetchConstant.bind fun v => confined_makeMethod v).proceed
  | defineProperty =>
    exact (confined_fetchConstant.bind fun _ =>
      confined_fetchByte.bind fun _ => confined_defineProperty _ _).proceed
  | inherit => exact confined_inherit.proceed
  | getSuper => exact (confined_fetchConstant.bind fun v => confined_getSuper v).proceed
  | propertyGet | propertyGetSelf =>
    exact (confined_fetchConstant.bind fun v => confined_getProperty v _).proceed
  | propertySet => exact (confined_fetchConstant.bind fun v => confined_setProperty v).proceed
  | makeArray => exact (confined_fetchShort.bind fun _ => confined_makeArray _).proceed
  | makeDict => exact (confined_fetchShort.bind fun _ => confined_makeDict _).proceed
  | makeRange => exact confined_makeRange.proceed
  | indexGet => exact (confined_fetchByte.bind fun _ => confined_getIndex _).proceed
  | sliceGet => exact (confined_fetchByte.bind fun _ => confined_getSlice _).proceed
  | indexSet => exact confined_setIndex.proceed
  | enterTry => exact confined_enterTry.proceed
  | popTry => exact confined_popTry.proceed
  | endFinally => exact confined_endFinally.maybeReturn
  | throwTop => exact confined_throwTop.proceed
  | switch => exact (confined_fetchConstant.bind fun v => confined_switchOn v).proceed
  | typeOf => exact confined_typeOfTop.proceed
  | stringify => exact confined_stringify.proceed
  | instanceOf => exact confined_testInstance.proceed
  | echo => exact confined_echo.proceed
  | assert => exact confined_assertTop.proceed
  | halt =>
    refine confined_fetchByte.bind fun status => ?_
    exact (confined_modify fun m => tolerates_reset m).bind fun _ => confined_pure _

theorem confinedAt_instruction (hop : ∀ op ∈ globalOps, m.opcode? ≠ some op) :
    ConfinedAt R m (instruction host) := by
  unfold ConfinedAt
  cases hframes : m.frames with
  | nil =>
    rw [instruction_of_nil host hframes]
    exact htolerant.aside rfl rfl
  | cons f rest =>
    have hfetched := fetched_instruction host hframes
    generalize instruction host m = result at hfetched
    cases hfetched with
    | atEnd => exact (confined_finishReturn .nil).maybeReturn m
    | unknown => exact htolerant.aside rfl rfl
    | @operation op hopcode =>
      have hother : op ∉ globalOps := fun hmem => hop op hmem hopcode
      refine htolerant.trans (htolerant.aside rfl rfl : R m (m.atOffset (f.ip + 1))) ?_
      exact ConfinedAt.throwing (confined_execute f.ip hother _) none

/-- Every activity but an instruction that binds a global. -/
theorem tolerates_activity (a : Activity)
    (hop : a = .instruction → ∀ op ∈ globalOps, m.opcode? ≠ some op) :
    R m (a.perform host m) := by
  cases a with
  | enter proto => exact tolerates_entered m proto
  | call callee args =>
    let pushed : Machine := { m with stack := m.stack.push callee ++ args }
    have hcalled : ConfinedAt R pushed (throwing () (callValue host callee args.size)) :=
      ConfinedAt.throwing (confined_callValue callee args.size pushed) ()
    exact htolerant.trans (htolerant.aside rfl rfl : R m pushed) hcalled
  | instruction => exact confinedAt_instruction (hop rfl)
  | takeResult => exact confined_takeResult m
  | reset => exact tolerates_reset m

end ScriptMachine.Machine
