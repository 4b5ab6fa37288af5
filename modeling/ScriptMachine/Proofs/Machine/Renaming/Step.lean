import ScriptMachine.Machine.Step
import ScriptMachine.Proofs.Machine.Renaming.Element
import ScriptMachine.Proofs.Machine.Renaming.Operator
import ScriptMachine.Proofs.Machine.Renaming.Unwinding

/-!
Instructions of machines that are the same but for a renaming. Both machines read the same operation
with operands that are alike, and carry it out in the same way.
-/

namespace ScriptMachine

open Machine

namespace Renaming

variable {α : Type} [Renamed α] {R : Renaming → Renaming → Prop} {ρ : Renaming} {m n : Machine}
  {v w name name' : Value} {host : Host}

/-! Variables. -/

theorem keeps_defineNamed (hname : ρ.Alike name name') :
    ρ.Keeps (defineNamed name) (defineNamed name') :=
  keeps_pop.then fun _ _ hvw => keeps_modify fun _ _ hm => hm.setGlobal hname hvw

theorem grows_undefinedGlobal (hname : ρ.Alike name name') :
    ρ.Grows (undefinedGlobal name : Exec α) (undefinedGlobal name') := by
  refine does_get fun m n hm => ?_
  rw [hm.nameText hname]
  exact grows_misuse _

theorem Mirrors.globalOf? (hm : ρ.Mirrors m n) (hname : ρ.Alike name name') :
    ρ.Alike (m.globals.get? m.heap.pool name) (n.globals.get? n.heap.pool name') :=
  hm.state.globals.get? hm.heap.leftPool hm.heap.rightPool hname

theorem grows_getNamed (hname : ρ.Alike name name') :
    ρ.Grows (getNamed name) (getNamed name') := by
  refine does_get fun m n hm => ?_
  have hglobal := hm.globalOf? hname
  generalize m.globals.get? m.heap.pool name = v? at hglobal
  generalize n.globals.get? n.heap.pool name' = w? at hglobal
  cases hglobal with
  | none => exact grows_undefinedGlobal hname
  | some hvw => exact (keeps_push hvw).lift

theorem grows_setNamed (hname : ρ.Alike name name') :
    ρ.Grows (setNamed name) (setNamed name') := by
  refine (keeps_peek 0).then fun v w hvw => does_get fun m n hm => ?_
  have hunbound : (m.globals.get? m.heap.pool name).isNone =
      (n.globals.get? n.heap.pool name').isNone := by
    have hglobal := hm.globalOf? hname
    generalize m.globals.get? m.heap.pool name = v? at hglobal
    generalize n.globals.get? n.heap.pool name' = w? at hglobal
    cases hglobal <;> rfl
  rw [hunbound, hm.limits.2.2]
  split
  · exact grows_undefinedGlobal hname
  · exact (keeps_set (hm.setGlobal hname hvw)).lift

theorem keeps_getLocal (slot : Nat) : ρ.Keeps (getLocal slot) (getLocal slot) := by
  refine (keeps_localSlot slot).then fun index index' hindex => ?_
  obtain rfl : index = index' := hindex
  exact does_get fun m n hm => keeps_push (alike_getD hm.state.stack index .nil)

theorem keeps_setLocal (slot : Nat) : ρ.Keeps (setLocal slot) (setLocal slot) := by
  refine (keeps_peek 0).then fun v w hvw => ?_
  refine (keeps_localSlot slot).then fun index index' hindex => ?_
  obtain rfl : index = index' := hindex
  exact keeps_setSlot index hvw

theorem keeps_defaultLocal (slot : Nat) : ρ.Keeps (defaultLocal slot) (defaultLocal slot) := by
  refine keeps_pop.then fun v w hvw => ?_
  refine (keeps_localSlot slot).then fun index index' hindex => ?_
  obtain rfl : index = index' := hindex
  refine does_get fun m n hm => ?_
  rw [Value.Alike.isNil (alike_getD hm.state.stack index .nil)]
  split
  · exact keeps_setSlot index hvw
  · exact keeps_pure rfl

/-! Control. -/

theorem keeps_jumpIfFalse (distance : Nat) :
    ρ.Keeps (jumpIfFalse distance) (jumpIfFalse distance) := by
  refine keeps_pop.then fun v w hvw => does_get fun m n hm => ?_
  rw [hm.heap.isFalsy hvw]
  split
  · exact keeps_jumpBy distance
  · exact keeps_pure rfl

theorem keeps_jumpBack (start distance : Nat) :
    ρ.Keeps (jumpBack start distance) (jumpBack start distance) := by
  refine keeps_frame.then fun f g hfg => ?_
  rw [hfg.ip]
  split
  · exact keeps_jumpTo _
  · exact keeps_malformed _ _

/-! Output and tests. -/

theorem grows_echo : ρ.Grows echo echo := by
  refine keeps_pop.then fun v w hvw => does_get fun m n hm => ?_
  rw [hm.state.output, hm.render hvw]
  have hwritten (output : Sink) : ρ.Mirrors { m with output } { n with output } :=
    ⟨hm.heap, { hm.state with output := rfl }⟩
  refine (keeps_set (hwritten _)).then fun _ _ _ => ?_
  split
  · exact grows_misuse _
  · exact Keeps.lift (keeps_pure rfl)

theorem grows_assertTop : ρ.Grows assertTop assertTop := by
  refine keeps_pop.then fun message message' hmessage => ?_
  refine keeps_pop.then fun condition condition' hcondition => does_get fun m n hm => ?_
  rw [hm.heap.isFalsy hcondition, Value.Alike.isNil hmessage, hm.render hmessage]
  split
  · exact grows_misuse _
  · exact Keeps.lift (keeps_pure rfl)

theorem grows_typeOfTop : ρ.Grows typeOfTop typeOfTop := by
  refine keeps_pop.then fun v w hvw => grows_pushNew fun m n hm => ?_
  rw [hm.typeName hvw]
  exact hm.intern _

theorem grows_stringify : ρ.Grows stringify stringify := by
  refine (keeps_peek 0).then fun v w hvw => ?_
  rw [Value.Alike.isNil hvw, Value.Alike.isText hvw]
  split
  · refine Grows.then (does_modifyGet fun m n hm => ?_) fun _ _ _ _ htext =>
      (keeps_setTop htext).lift
    rw [hm.render hvw]
    exact hm.intern _
  · exact Keeps.lift (keeps_pure rfl)

/-! Instructions. -/

variable [Course R]

theorem does_proceed {x y : Exec Unit} (h : ρ.Does R x y) : ρ.Does R (proceed x) (proceed y) :=
  h.then fun _ _ _ _ _ => (keeps_pure Option.Rel.none).lift

theorem Keeps.proceed {x y : Exec Unit} (h : ρ.Keeps x y) : ρ.Does R (proceed x) (proceed y) :=
  does_proceed h.lift

theorem Grows.proceed {x y : Exec Unit} (h : ρ.Grows x y) : ρ.Does R (proceed x) (proceed y) :=
  does_proceed h.lift

theorem Keeps.maybeReturn {x y : Exec (Option Value)} (h : ρ.Keeps x y) :
    ρ.Does R (maybeReturn x) (maybeReturn y) := by
  refine h.then fun v? w? hvw => ?_
  cases hvw with
  | none => exact (keeps_pure Option.Rel.none).lift
  | some hvw => exact (keeps_pure (Option.Rel.some (Ending.Alike.returned hvw))).lift

/-- Operations with the same byte as an operand. -/
theorem does_byte {f g : UInt8 → Exec α} (hfg : ∀ b, ρ.Does R (f b) (g b)) :
    ρ.Does R (fetchByte >>= f) (fetchByte >>= g) := by
  refine keeps_fetchByte.then fun b b' hb => ?_
  obtain rfl : b = b' := hb
  exact hfg b

/-- Operations with the same short as an operand. -/
theorem does_short {f g : UInt16 → Exec Unit} (hfg : ∀ b, ρ.Does R (f b) (g b)) :
    ρ.Does R (proceed (fetchShort >>= f)) (proceed (fetchShort >>= g)) := by
  refine does_proceed (keeps_fetchShort.then fun b b' hb => ?_)
  obtain rfl : b = b' := hb
  exact hfg b

/-- Operations with constants that are alike as operands. -/
theorem does_constant {f g : Value → Exec Unit}
    (hfg : ∀ v w, ρ.Alike v w → ρ.Does R (f v) (g w)) :
    ρ.Does R (proceed (fetchConstant >>= f)) (proceed (fetchConstant >>= g)) :=
  does_proceed (keeps_fetchConstant.then hfg)

theorem does_execute (hhost : host.Uniform R) (start : Nat) (op : Opcode) :
    ρ.Does R (execute host start op) (execute host start op) := by
  cases op with
  | pushConst => exact does_constant fun v w hvw => (keeps_push hvw).lift
  | pushNil => exact (keeps_push .nil).proceed
  | pushEmpty => exact (keeps_push .nil).proceed
  | pushTrue => exact (keeps_push (.bool _)).proceed
  | pushFalse => exact (keeps_push (.bool _)).proceed
  | pushOne => exact (keeps_push (.number _)).proceed
  | pop => exact Keeps.proceed (keeps_pop.then fun _ _ _ => keeps_pure rfl)
  | popN => exact does_short fun n => (keeps_drop _).lift
  | dup => exact Keeps.proceed ((keeps_peek 0).then fun _ _ hvw => keeps_push hvw)
  | globalDefine => exact does_constant fun _ _ hname => (keeps_defineNamed hname).lift
  | globalGet => exact does_constant fun _ _ hname => (grows_getNamed hname).lift
  | globalSet => exact does_constant fun _ _ hname => (grows_setNamed hname).lift
  | localGet => exact does_short fun n => (keeps_getLocal _).lift
  | localSet => exact does_short fun n => (keeps_setLocal _).lift
  | argDefault => exact does_short fun n => (keeps_defaultLocal _).lift
  | upvalueGet =>
    exact does_short fun n => (keeps_readUpvalue _).then fun _ _ hvw => (keeps_push hvw).lift
  | upvalueSet =>
    exact does_short fun n => (keeps_peek 0).then fun _ _ hvw => (keeps_writeUpvalue _ hvw).lift
  | closeUpvalue => exact keeps_closeTop.proceed
  | add => exact grows_add.proceed
  | sub => exact (grows_arithmetic _ _).proceed
  | mul => exact grows_multiply.proceed
  | div => exact (grows_arithmetic _ _).proceed
  | floorDiv => exact (grows_arithmetic _ _).proceed
  | mod => exact (grows_arithmetic _ _).proceed
  | pow => exact (grows_arithmetic _ _).proceed
  | negate => exact (grows_unaryNumber _ fun _ => .number _).proceed
  | not =>
    refine Keeps.proceed (keeps_pop.then fun v w hvw => does_get fun m n hm => ?_)
    rw [hm.heap.isFalsy hvw]
    exact keeps_push (.bool _)
  | bitNot => exact (grows_unaryNumber _ fun _ => .number _).proceed
  | bitAnd => exact (grows_bitwise _ _).proceed
  | bitOr => exact (grows_bitwise _ _).proceed
  | bitXor => exact (grows_bitwise _ _).proceed
  | shiftLeft => exact (grows_bitwise _ _).proceed
  | shiftRight => exact (grows_bitwise _ _).proceed
  | equal =>
    refine Keeps.proceed (keeps_pop.then fun b b' hb => keeps_pop.then fun a a' ha => ?_)
    rw [Value.Alike.equals ha hb]
    exact keeps_push (.bool _)
  | greater => exact (grows_comparison _ _).proceed
  | less => exact (grows_comparison _ _).proceed
  | jump => exact does_short fun n => (keeps_jumpBy _).lift
  | jumpIfFalse => exact does_short fun n => (keeps_jumpIfFalse _).lift
  | loop => exact does_short fun n => (keeps_jumpBack _ _).lift
  | call =>
    refine does_proceed (does_byte fun count => (keeps_peek _).then fun v w hvw => ?_)
    exact does_callValue hhost hvw _
  | invoke =>
    exact does_constant fun _ _ hname => does_byte fun count => does_invoke hhost hname _ false
  | invokeSelf =>
    exact does_constant fun _ _ hname => does_byte fun count => does_invoke hhost hname _ true
  | invokeSuper =>
    exact does_constant fun _ _ hname => does_byte fun count => does_invokeSuper hhost hname _
  | superConstructor =>
    exact does_proceed (does_byte fun count => does_superConstructor hhost _)
  | makeClosure => exact grows_makeClosure.proceed
  | ret => exact Keeps.maybeReturn (keeps_pop.then fun _ _ hvw => keeps_finishReturn hvw)
  | makeClass => exact does_constant fun _ _ hname => (grows_makeClass hname).lift
  | makeMethod => exact does_constant fun _ _ hname => (keeps_makeMethod hname).lift
  | defineProperty =>
    exact does_constant fun _ _ hname => does_byte fun flag => (keeps_defineProperty hname _).lift
  | inherit => exact grows_inherit.proceed
  | getSuper => exact does_constant fun _ _ hname => (grows_getSuper hname).lift
  | propertyGet => exact does_constant fun _ _ hname => does_getProperty hhost hname false
  | propertyGetSelf => exact does_constant fun _ _ hname => does_getProperty hhost hname true
  | propertySet => exact does_constant fun _ _ hname => (grows_setProperty hname).lift
  | makeArray => exact does_short fun n => (grows_makeArray _).lift
  | makeDict => exact does_short fun n => (grows_makeDict _).lift
  | makeRange => exact grows_makeRange.proceed
  | indexGet => exact does_proceed (does_byte fun flag => (grows_getIndex _).lift)
  | sliceGet => exact does_proceed (does_byte fun flag => (grows_getSlice _).lift)
  | indexSet => exact grows_setIndex.proceed
  | enterTry => exact grows_enterTry.proceed
  | popTry => exact keeps_popTry.proceed
  | endFinally => exact keeps_endFinally.maybeReturn
  | throwTop => exact grows_throwTop.proceed
  | switch => exact does_constant fun _ _ htable => (keeps_switchOn htable).lift
  | typeOf => exact grows_typeOfTop.proceed
  | stringify => exact grows_stringify.proceed
  | instanceOf => exact grows_testInstance.proceed
  | echo => exact grows_echo.proceed
  | assert => exact grows_assertTop.proceed
  | halt =>
    refine does_byte fun status => (keeps_modify fun _ _ hm => hm.reset).then fun _ _ _ => ?_
    exact (keeps_pure (Option.Rel.some (Ending.Alike.halted status))).lift

theorem does_instruction (hhost : host.Uniform R) :
    ρ.Does R (instruction host) (instruction host) := by
  refine keeps_frame.then fun f g hfg => ?_
  have hsize : f.proto.blob.size = g.proto.blob.size := by
    obtain ⟨-, hproto, -⟩ := hfg
    generalize f.proto = p at hproto
    generalize g.proto = q at hproto
    cases hproto
    rfl
  rw [hsize, hfg.ip]
  split
  · exact (keeps_finishReturn .nil).maybeReturn
  · refine does_byte fun byte => ?_
    cases Opcode.ofByte? byte with
    | none => exact (keeps_malformed _ _).lift
    | some op => exact Does.throwing Option.Rel.none (does_execute hhost g.ip op)

end Renaming

end ScriptMachine
