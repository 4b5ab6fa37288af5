import ScriptMachine.Machine.Step
import ScriptMachine.Proofs.Machine.Cover.Element
import ScriptMachine.Proofs.Machine.Cover.Operator

/-!
Instructions. Each operation, the return at the end of a stream and the unwinding of an exception
keep the machine covered.
-/

namespace ScriptMachine.Machine

instance : Linked Ending where
  links
    | .returned v => v.refs
    | .halted _ => []

namespace World

variable {w : World} {host : Host}

/-! Variables. -/

theorem Covers.setGlobal {m : Machine} (hm : w.Covers m) {name v : Value} (hname : w.Knows name)
    (hv : w.Knows v) : w.Covers { m with globals := m.globals.set m.heap.pool name v } :=
  ⟨hm.heap, { hm.state with globals := hm.state.globals.set _ hname hv }⟩

theorem keeps_defineNamed {name : Value} (hname : w.Knows name) : w.Keeps (defineNamed name) :=
  keeps_pop.then fun _ hv => keeps_modify fun _ hm => hm.setGlobal hname hv

theorem grows_undefinedGlobal {α : Type} [Linked α] (name : Value) :
    w.Grows (undefinedGlobal name : Exec α) :=
  does_get fun _ _ => does_misuse _

theorem grows_getNamed (name : Value) : w.Grows (getNamed name) := by
  apply does_get
  intro m hm
  split
  · rename_i v hv
    exact (keeps_push (hm.state.globals.get? hv)).lift
  · exact grows_undefinedGlobal name

theorem grows_setNamed {name : Value} (hname : w.Knows name) : w.Grows (setNamed name) := by
  refine (keeps_peek 0).then fun v hv => ?_
  apply does_get
  intro m hm
  split
  · exact grows_undefinedGlobal name
  · exact (keeps_set (hm.setGlobal hname hv)).lift

theorem keeps_getLocal (slot : Nat) : w.Keeps (getLocal slot) := by
  refine (keeps_localSlot slot).then fun index _ => ?_
  exact does_get fun _ hm => keeps_push (knows_getD hm.state.stack index)

theorem keeps_setLocal (slot : Nat) : w.Keeps (setLocal slot) :=
  (keeps_peek 0).then fun _ hv => (keeps_localSlot slot).then fun index _ => keeps_setSlot index hv

theorem keeps_defaultLocal (slot : Nat) : w.Keeps (defaultLocal slot) := by
  refine keeps_pop.then fun v hv => (keeps_localSlot slot).then fun index _ => ?_
  apply does_get
  intro m _
  split
  · exact keeps_setSlot index hv
  · exact does_pure (knows_plain rfl)

/-! Control. -/

theorem keeps_jumpIfFalse (distance : Nat) : w.Keeps (jumpIfFalse distance) := by
  refine keeps_pop.then fun v _ => ?_
  apply does_get
  intro m _
  split
  · exact keeps_jumpBy distance
  · exact does_pure (knows_plain rfl)

theorem keeps_jumpBack (start distance : Nat) : w.Keeps (jumpBack start distance) := by
  refine keeps_frame.then fun f _ => ?_
  split
  · exact keeps_jumpTo _
  · exact does_malformed _ _

/-! Output and tests. -/

theorem grows_echo : w.Grows echo := by
  refine keeps_pop.then fun v _ => ?_
  apply does_get
  intro m hm
  have hwritten (output : Sink) : w.Covers { m with output } := ⟨hm.heap, { hm.state with }⟩
  refine (keeps_set (hwritten _)).then fun _ _ => ?_
  split
  · exact does_misuse _
  · exact does_pure (knows_plain rfl)

theorem grows_assertTop : w.Grows assertTop := by
  refine keeps_pop.then fun message _ => keeps_pop.then fun condition _ => ?_
  apply does_get
  intro m _
  split
  · exact does_misuse _
  · exact does_pure (knows_plain rfl)

theorem grows_typeOfTop : w.Grows typeOfTop :=
  keeps_pop.then fun _ _ => grows_pushNew fun _ hm => hm.intern _

theorem grows_stringify : w.Grows stringify := by
  refine (keeps_peek 0).then fun v _ => ?_
  split
  · exact (grows_modifyGet fun m hm => hm.intern _).then fun u v _ hv => (keeps_setTop hv).lift
  · exact does_pure (knows_plain rfl)

/-! Instructions. -/

theorem runs_proceed {x : Exec Unit} (hx : w.Runs host x) : w.Runs host (proceed x) :=
  hx.then fun _ _ _ => does_pure knows_none

theorem Keeps.proceed {x : Exec Unit} (hx : w.Keeps x) : w.Runs host (proceed x) :=
  runs_proceed hx.lift

theorem Grows.proceed {x : Exec Unit} (hx : w.Grows x) : w.Runs host (proceed x) :=
  runs_proceed hx.lift

theorem Keeps.maybeReturn {x : Exec (Option Value)} (hx : w.Keeps x) :
    w.Runs host (maybeReturn x) := by
  refine hx.then fun v? hv => ?_
  cases v? with
  | none => exact does_pure knows_none
  | some v => exact does_pure hv

/-- An operation with a short operand. -/
theorem runs_short {f : UInt16 → Exec Unit} (hf : ∀ n, w.Keeps (f n)) :
    w.Runs host (proceed (fetchShort >>= f)) :=
  Keeps.proceed (keeps_fetchShort.then fun n _ => hf n)

/-- An operation with a constant operand. -/
theorem runs_constant {f : Value → Exec Unit} (hf : ∀ v, w.Knows v → w.Runs host (f v)) :
    w.Runs host (proceed (fetchConstant >>= f)) :=
  runs_proceed (keeps_fetchConstant.then hf)

theorem runs_execute (horderly : host.Orderly) (start : Nat) (op : Opcode) :
    w.Runs host (execute host start op) := by
  cases op with
  | pushConst => exact runs_constant fun v hv => (keeps_push hv).lift
  | pushNil => exact (keeps_push knows_nil).proceed
  | pushEmpty => exact (keeps_push knows_nil).proceed
  | pushTrue => exact (keeps_push knows_bool).proceed
  | pushFalse => exact (keeps_push knows_bool).proceed
  | pushOne => exact (keeps_push knows_number).proceed
  | pop => exact Keeps.proceed (keeps_pop.then fun _ _ => does_pure (knows_plain rfl))
  | popN => exact runs_short fun n => keeps_drop _
  | dup => exact Keeps.proceed ((keeps_peek 0).then fun _ hv => keeps_push hv)
  | globalDefine => exact runs_constant fun name hname => (keeps_defineNamed hname).lift
  | globalGet => exact runs_constant fun name _ => (grows_getNamed name).lift
  | globalSet => exact runs_constant fun name hname => (grows_setNamed hname).lift
  | localGet => exact runs_short fun n => keeps_getLocal _
  | localSet => exact runs_short fun n => keeps_setLocal _
  | argDefault => exact runs_short fun n => keeps_defaultLocal _
  | upvalueGet => exact runs_short fun n => (keeps_readUpvalue _).then fun _ hv => keeps_push hv
  | upvalueSet => exact runs_short fun n => (keeps_peek 0).then fun _ hv => keeps_writeUpvalue _ hv
  | closeUpvalue => exact keeps_closeTop.proceed
  | add => exact grows_add.proceed
  | sub => exact (grows_arithmetic _ _).proceed
  | mul => exact grows_multiply.proceed
  | div => exact (grows_arithmetic _ _).proceed
  | floorDiv => exact (grows_arithmetic _ _).proceed
  | mod => exact (grows_arithmetic _ _).proceed
  | pow => exact (grows_arithmetic _ _).proceed
  | negate => exact (grows_unaryNumber _ fun _ => knows_number).proceed
  | not => exact Keeps.proceed (keeps_pop.then fun _ _ => does_get fun _ _ => keeps_push knows_bool)
  | bitNot => exact (grows_unaryNumber _ fun _ => knows_number).proceed
  | bitAnd => exact (grows_bitwise _ _).proceed
  | bitOr => exact (grows_bitwise _ _).proceed
  | bitXor => exact (grows_bitwise _ _).proceed
  | shiftLeft => exact (grows_bitwise _ _).proceed
  | shiftRight => exact (grows_bitwise _ _).proceed
  | equal =>
    exact Keeps.proceed (keeps_pop.then fun _ _ => keeps_pop.then fun _ _ => keeps_push knows_bool)
  | greater => exact (grows_comparison _ _).proceed
  | less => exact (grows_comparison _ _).proceed
  | jump => exact runs_short fun n => keeps_jumpBy _
  | jumpIfFalse => exact runs_short fun n => keeps_jumpIfFalse _
  | loop => exact runs_short fun n => keeps_jumpBack _ _
  | call =>
    refine runs_proceed (keeps_fetchByte.then fun count _ => (keeps_peek _).then fun v hv => ?_)
    exact runs_callValue horderly hv _
  | invoke =>
    exact runs_constant fun name _ => keeps_fetchByte.then fun count _ =>
      runs_invoke horderly name _ false
  | invokeSelf =>
    exact runs_constant fun name _ => keeps_fetchByte.then fun count _ =>
      runs_invoke horderly name _ true
  | invokeSuper =>
    exact runs_constant fun name _ => keeps_fetchByte.then fun count _ =>
      runs_invokeSuper horderly name _
  | superConstructor =>
    exact runs_proceed (keeps_fetchByte.then fun count _ => runs_superConstructor horderly _)
  | makeClosure => exact grows_makeClosure.proceed
  | ret => exact Keeps.maybeReturn (keeps_pop.then fun _ hv => keeps_finishReturn hv)
  | makeClass => exact runs_constant fun name _ => (grows_makeClass name).lift
  | makeMethod => exact runs_constant fun name hname => (keeps_makeMethod hname).lift
  | defineProperty =>
    exact runs_constant fun name hname => keeps_fetchByte.then fun flag _ =>
      (keeps_defineProperty hname _).lift
  | inherit => exact grows_inherit.proceed
  | getSuper => exact runs_constant fun name _ => (grows_getSuper name).lift
  | propertyGet => exact runs_constant fun name _ => runs_getProperty horderly name false
  | propertyGetSelf => exact runs_constant fun name _ => runs_getProperty horderly name true
  | propertySet => exact runs_constant fun name hname => (grows_setProperty hname).lift
  | makeArray => exact runs_proceed (keeps_fetchShort.then fun n _ => (grows_makeArray _).lift)
  | makeDict => exact runs_proceed (keeps_fetchShort.then fun n _ => (grows_makeDict _).lift)
  | makeRange => exact grows_makeRange.proceed
  | indexGet => exact runs_proceed (keeps_fetchByte.then fun flag _ => (grows_getIndex _).lift)
  | sliceGet => exact runs_proceed (keeps_fetchByte.then fun flag _ => (grows_getSlice _).lift)
  | indexSet => exact grows_setIndex.proceed
  | enterTry => exact grows_enterTry.proceed
  | popTry => exact keeps_popTry.proceed
  | endFinally => exact keeps_endFinally.maybeReturn
  | throwTop => exact grows_throwTop.proceed
  | switch => exact runs_constant fun table _ => (keeps_switchOn table).lift
  | typeOf => exact grows_typeOfTop.proceed
  | stringify => exact grows_stringify.proceed
  | instanceOf => exact grows_testInstance.proceed
  | echo => exact grows_echo.proceed
  | assert => exact grows_assertTop.proceed
  | halt =>
    refine keeps_fetchByte.then fun status _ => (keeps_modify fun _ hm => hm.reset).then fun _ _ => ?_
    exact does_pure (knows_plain rfl)

theorem runs_instruction (horderly : host.Orderly) : w.Runs host (instruction host) := by
  refine keeps_frame.then fun f _ => ?_
  split
  · exact (keeps_finishReturn knows_nil).maybeReturn
  · refine keeps_fetchByte.then fun byte _ => ?_
    split
    · rename_i op _
      intro m hm
      refine (runs_execute horderly f.ip op m hm).throwing (fun _ => knows_none) ?_
      intro u v hu huv
      exact Trans.trans hu (Trans.trans huv (Std.Refl.refl (r := Reaches host) v))
    · exact does_malformed _ _

end World

end ScriptMachine.Machine
