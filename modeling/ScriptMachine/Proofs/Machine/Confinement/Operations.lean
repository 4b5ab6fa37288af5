import ScriptMachine.Proofs.Machine.Confinement

/-!
Operators, containers and classes are confined: they store objects, intern texts and change objects,
and leave the globals alone. Reading a global leaves them alone as well.
-/

namespace ScriptMachine.Machine

variable {α : Type} {R : Machine → Machine → Prop} [htolerant : Tolerant R]

/-! Operators. -/

theorem confined_refuseOperands (symbol : String) (a b : Value) :
    Confined R (refuseOperands symbol a b : Exec α) := confined_read fun _ => confined_misuse _

theorem confined_binaryNumber (symbol : String) (op : Float → Float → Value) :
    Confined R (binaryNumber symbol op) := by
  refine confined_pop.bind fun b => confined_pop.bind fun a => ?_
  split
  · exact confined_push _
  · exact confined_refuseOperands symbol a b

theorem confined_unaryNumber (symbol : String) (op : Float → Value) :
    Confined R (unaryNumber symbol op) := by
  refine confined_pop.bind fun v => ?_
  split
  · exact confined_push _
  · exact confined_read fun _ => confined_misuse _

theorem confined_add : Confined R add := by
  refine confined_pop.bind fun b => confined_pop.bind fun a => ?_
  split
  · exact confined_push _
  · refine confined_read fun m => ?_
    split
    · exact confined_pushText
    · split
      · exact confined_pushObject _
      · exact confined_refuseOperands "+" a b

theorem confined_checkRepeat (unit count : Nat) (b : Value) :
    Confined R (checkRepeat unit count b) := by
  unfold checkRepeat
  split
  · exact confined_read fun _ => confined_misuse _
  · exact confined_pure _

theorem confined_repeatValue (a b : Value) (count : Nat) : Confined R (repeatValue a b count) := by
  refine confined_read fun m => ?_
  split
  · exact (confined_checkRepeat _ _ _).bind fun _ => confined_pushText
  · exact (confined_checkRepeat _ _ _).bind fun _ => confined_pushObject _
  · exact confined_refuseOperands "*" a b

theorem confined_multiply : Confined R multiply := by
  refine confined_pop.bind fun b => confined_pop.bind fun a => ?_
  split
  · exact confined_push _
  · split
    · exact confined_repeatValue _ _ _
    · exact confined_refuseOperands "*" _ _
  · exact confined_refuseOperands "*" a b

/-! Variables, output and tests. -/

theorem confined_undefinedGlobal (name : Value) : Confined R (undefinedGlobal name : Exec α) :=
  confined_read fun _ => confined_misuse _

theorem confined_getNamed (name : Value) : Confined R (getNamed name) := by
  refine confined_read fun m => ?_
  split
  · exact confined_push _
  · exact confined_undefinedGlobal name

theorem confined_getLocal (slot : Nat) : Confined R (getLocal slot) :=
  (confined_localSlot slot).bind fun _ => confined_read fun _ => confined_push _

theorem confined_setLocal (slot : Nat) : Confined R (setLocal slot) :=
  (confined_peek 0).bind fun v =>
    (confined_localSlot slot).bind fun index => confined_setSlot index v

theorem confined_defaultLocal (slot : Nat) : Confined R (defaultLocal slot) := by
  refine confined_pop.bind fun v => (confined_localSlot slot).bind fun index => ?_
  refine confined_read fun m => ?_
  split
  · exact confined_setSlot index v
  · exact confined_pure _

theorem confined_jumpIfFalse (distance : Nat) : Confined R (jumpIfFalse distance) := by
  refine confined_pop.bind fun v => confined_read fun m => ?_
  split
  · exact confined_jumpBy _
  · exact confined_pure _

theorem confined_jumpBack (start distance : Nat) : Confined R (jumpBack start distance) := by
  refine confined_frame.bind fun f => ?_
  split
  · exact confined_jumpTo _
  · exact confined_malformed _ _

theorem confined_switchOn (table : Value) : Confined R (switchOn table) := by
  refine confined_pop.bind fun v => confined_read fun m => ?_
  split
  · exact confined_jumpBy _
  · exact confined_breach _

theorem confined_echo : Confined R echo := by
  refine confined_pop.bind fun v => confined_get fun m => ?_
  refine ConfinedAt.bind (confinedAt_set (htolerant.aside rfl rfl)) fun _ => ?_
  split
  · exact confined_misuse _
  · exact confined_pure _

theorem confined_assertTop : Confined R assertTop := by
  refine confined_pop.bind fun message => confined_pop.bind fun condition => ?_
  refine confined_read fun m => ?_
  split
  · exact confined_misuse _
  · exact confined_pure _

theorem confined_typeOfTop : Confined R typeOfTop := confined_pop.bind fun _ => confined_pushText

theorem confined_stringify : Confined R stringify := by
  refine (confined_peek 0).bind fun v => ?_
  split
  · exact (confined_modifyGet fun m => htolerant.intern m _).bind fun v => confined_setTop v
  · exact confined_pure _

/-! Containers. -/

theorem confined_insertIntoDict (r : Ref) (key value : Value) :
    Confined R (insertIntoDict r key value) := by
  unfold insertIntoDict
  split
  · refine confined_get fun m => ?_
    split
    · exact confinedAt_set (htolerant.update m r _)
    · exact confined_breach _ m
  · exact confined_misuse _

theorem confined_insertPairs (r : Ref) (items : List Value) : Confined R (insertPairs r items) := by
  induction items using insertPairs.induct with
  | case1 key value rest ih => exact (confined_insertIntoDict r key value).bind fun _ => ih
  | case2 items hitems =>
    unfold insertPairs
    split
    · exact absurd rfl (hitems _ _ _)
    · exact confined_pure _

theorem confined_makeArray (count : Nat) : Confined R (makeArray count) :=
  (confined_takeTop count).bind fun _ => confined_pushObject _

theorem confined_makeDict (count : Nat) : Confined R (makeDict count) := by
  refine (confined_takeTop _).bind fun items => ?_
  have hmake : Confined R (modifyGet fun m : Machine =>
      ((m.heap.alloc (.dict {})).1, { m with heap := (m.heap.alloc (.dict {})).2 }) : Exec Ref) :=
    confined_modifyGet fun m => htolerant.alloc m (.dict {})
  exact hmake.bind fun r => (confined_insertPairs r _).bind fun _ => confined_push _

theorem confined_makeRange : Confined R makeRange := by
  refine confined_pop.bind fun upper => confined_pop.bind fun lower => ?_
  split
  · exact confined_pushObject _
  · exact confined_misuse _

theorem confined_slice (receiver lower upper : Value) :
    Confined R (slice receiver lower upper) := by
  refine confined_read fun m => ?_
  split
  · split
    · exact confined_modifyGet fun m => htolerant.intern m _
    · split
      · exact confined_modifyGet fun m => htolerant.alloc m _
      · exact confined_misuse _
  · exact confined_misuse _

theorem confined_atPosition (sequence : Sequence) (index : Value) (length : Nat)
    (get? : Nat → Option α) : Confined R (atPosition sequence index length get?) := by
  unfold atPosition
  split
  · split
    · exact confined_pure _
    · exact confined_misuse _
  · exact confined_misuse _

theorem confined_element (receiver index : Value) : Confined R (element receiver index) := by
  refine confined_read fun m => ?_
  split
  · exact (confined_atPosition _ _ _ _).bind fun c =>
      confined_modifyGet fun m => htolerant.intern m _
  · split
    · exact confined_atPosition _ _ _ _
    · exact (confined_atPosition _ _ _ _).bind fun x => confined_pure _
    · split
      · exact confined_pure _
      · exact confined_misuse _
    · exact confined_misuse _

theorem confined_elementOrSlice (receiver index : Value) :
    Confined R (elementOrSlice receiver index) := by
  refine confined_read fun m => ?_
  split
  · split
    · exact confined_slice _ _ _
    · exact confined_element _ _
  · exact confined_element _ _

/-- The operands of a read are dropped unless an assignment follows. -/
theorem confined_answer (willAssign : Bool) (count : Nat) (v : Value) :
    Confined R (do
      if !willAssign then drop count
      push v) := by
  dsimp only
  split
  · exact (confined_drop count).bind fun _ => confined_push v
  · exact confined_push v

theorem confined_getIndex (willAssign : Bool) : Confined R (getIndex willAssign) := by
  refine (confined_peek 0).bind fun index => (confined_peek 1).bind fun receiver => ?_
  exact (confined_elementOrSlice receiver index).bind fun v => confined_answer willAssign 2 v

theorem confined_getSlice (willAssign : Bool) : Confined R (getSlice willAssign) := by
  refine (confined_peek 0).bind fun upper => (confined_peek 1).bind fun lower => ?_
  refine (confined_peek 2).bind fun receiver => ?_
  exact (confined_slice receiver lower upper).bind fun v => confined_answer willAssign 3 v

theorem confined_setIndex : Confined R setIndex := by
  refine (confined_peek 0).bind fun value => (confined_peek 1).bind fun index => ?_
  refine (confined_peek 2).bind fun receiver => confined_get fun m => ?_
  have hrest : Confined R (do drop 3; push value) :=
    (confined_drop 3).bind fun _ => confined_push value
  have hrefused (what : Misuse) : ConfinedAt R m (do misuse what; drop 3; push value) :=
    (confined_misuse what m).bind fun _ => hrest
  split
  · split
    · split
      · split
        · exact (confinedAt_set (htolerant.update m _ _)).bind fun _ => hrest
        · exact hrefused _
      · exact hrefused _
    · exact (confined_insertIntoDict _ _ _ m).bind fun _ => hrest
    · exact hrefused _
  · exact hrefused _
  · exact hrefused _

/-! Classes. -/

theorem confined_findMethod (cls : Ref) (name : Value) : Confined R (findMethod cls name) :=
  confined_read fun _ => confined_settle _

theorem confined_primitiveMethod (receiver name : Value) :
    Confined R (primitiveMethod receiver name) := by
  refine confined_read fun m => ?_
  split
  · exact confined_settle _
  · exact confined_pure _

theorem confined_popClass : Confined R popClass := by
  refine confined_pop.bind fun v => ?_
  split
  · refine confined_read fun m => ?_
    split
    · exact confined_pure _
    · exact confined_breach _
  · exact confined_breach _

theorem confined_modifyClass (v : Value) (g : Pool → Class → Class) :
    Confined R (modifyClass v g) := by
  refine confined_get fun m => ?_
  split
  · split
    · exact confinedAt_set (htolerant.update m _ _)
    · exact confined_breach _ m
  · exact confined_breach _ m

theorem confined_makeClass (name : Value) : Confined R (makeClass name) :=
  confined_pushNew fun m => htolerant.alloc m _

theorem confined_makeMethod (name : Value) : Confined R (makeMethod name) :=
  confined_pop.bind fun _ => confined_read fun _ =>
    (confined_peek 0).bind fun cls => confined_modifyClass cls _

theorem confined_defineProperty (name : Value) (isStatic : Bool) :
    Confined R (defineProperty name isStatic) :=
  confined_pop.bind fun _ => (confined_peek 0).bind fun cls => confined_modifyClass cls _

theorem confined_inherit : Confined R inherit := by
  refine (confined_peek 1).bind fun superclass => confined_read fun m => ?_
  split
  · exact confined_pop.bind fun subclass => confined_modifyClass subclass _
  · exact confined_misuse _

theorem confined_bindTop (receiver method : Value) : Confined R (bindTop receiver method) :=
  (confined_modifyGet fun m => htolerant.alloc m _).bind fun v => confined_setTop v

theorem confined_getSuper (name : Value) : Confined R (getSuper name) := by
  refine confined_popClass.bind fun superclass => (confined_peek 0).bind fun receiver => ?_
  refine (confined_findMethod superclass name).bind fun found => ?_
  split
  · exact confined_bindTop _ _
  · exact confined_read fun _ => confined_misuse _

theorem confined_setOnClass (cls name value : Value) : Confined R (setOnClass cls name value) :=
  confined_read fun _ => confined_modifyClass cls _

theorem confined_setProperty (name : Value) : Confined R (setProperty name) := by
  refine confined_pop.bind fun value => confined_pop.bind fun target => confined_get fun m => ?_
  split
  · split
    · exact (confinedAt_set (tolerates_setField _ _ _ _)).bind fun _ => confined_push value
    · exact (confined_insertIntoDict _ _ _ m).bind fun _ => confined_push value
    · exact (confined_setOnClass _ _ _ m).bind fun _ => confined_push value
    · split
      · exact (confined_setOnClass _ _ _ m).bind fun _ => confined_push value
      · exact (confined_misuse _ m).bind fun _ => confined_push value
  · exact confined_misuse _ m

theorem confined_testInstance : Confined R testInstance := by
  refine confined_pop.bind fun cls => confined_pop.bind fun value => confined_read fun m => ?_
  split
  · split
    · exact (confined_settle _).bind fun _ => confined_push _
    · exact confined_misuse _
  · exact confined_misuse _

end ScriptMachine.Machine
