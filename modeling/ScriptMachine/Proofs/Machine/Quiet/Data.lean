import ScriptMachine.Proofs.Machine.Quiet

/-!
Operators, variables and containers are mild: they read and write the stack, the globals and
objects of the heap, and none of them touches a function, a closure or a switch table.
-/

namespace ScriptMachine.Machine

variable {α : Type} {host : Host}

/-! Captured variables. -/

theorem mild_frameUpvalue (index : Nat) : Mild host (frameUpvalue index) := by
  refine mild_frame.bind fun f => mild_read fun m => ?_
  split
  · split
    · exact mild_pure _
    · exact mild_breach rfl
  · exact mild_breach rfl

theorem mild_readUpvalue (index : Nat) : Mild host (readUpvalue index) := by
  refine (mild_frameUpvalue index).bind fun r => mild_read fun m => ?_
  split
  · split
    · exact mild_pure _
    · exact mild_breach rfl
  · exact mild_pure _
  · exact mild_breach rfl

theorem mild_writeUpvalue (index : Nat) (v : Value) : Mild host (writeUpvalue index v) := by
  refine (mild_frameUpvalue index).bind fun r => mild_get fun m => ?_
  split
  · split
    · exact mild_setSlot _ v m
    · exact mild_breach rfl m
  · rename_i old hold
    refine mildAt_set (.update .refl _ _ ?_)
    intro o ho
    rw [hold] at ho
    obtain rfl := Option.some.inj ho
    exact Or.inr ⟨rfl, rfl⟩
  · exact mild_breach rfl m

theorem mild_closeTop : Mild host closeTop := by
  refine mild_get fun m => ?_
  split
  · exact mild_breach rfl m
  · have hset : MildAt host m (set (m.closeUpvalues (m.stack.size - 1)) : Exec Unit) :=
      mildAt_set (.close .refl _)
    exact hset.bind fun _ => mild_pop.bind fun _ => mild_pure ()

/-! Operators. -/

theorem mild_refuseOperands (symbol : String) (a b : Value) :
    Mild host (refuseOperands symbol a b : Exec α) := mild_read fun _ => mild_misuse _

theorem mild_binaryNumber (symbol : String) (op : Float → Float → Value) :
    Mild host (binaryNumber symbol op) := by
  refine mild_pop.bind fun b => mild_pop.bind fun a => ?_
  split
  · exact mild_push _
  · exact mild_refuseOperands symbol a b

theorem mild_unaryNumber (symbol : String) (op : Float → Value) :
    Mild host (unaryNumber symbol op) := by
  refine mild_pop.bind fun v => ?_
  split
  · exact mild_push _
  · exact mild_read fun _ => mild_misuse _

theorem mild_add : Mild host add := by
  refine mild_pop.bind fun b => mild_pop.bind fun a => ?_
  split
  · exact mild_push _
  · refine mild_read fun m => ?_
    split
    · exact mild_pushNew fun m => .intern .refl _
    · split
      · exact mild_pushNew fun m => .alloc .refl _ rfl
      · exact mild_refuseOperands "+" a b

theorem mild_checkRepeat (unit count : Nat) (b : Value) : Mild host (checkRepeat unit count b) := by
  unfold checkRepeat
  split
  · exact mild_read fun _ => mild_misuse _
  · exact mild_pure _

theorem mild_repeatValue (a b : Value) (count : Nat) : Mild host (repeatValue a b count) := by
  refine mild_read fun m => ?_
  split
  · exact (mild_checkRepeat _ _ _).bind fun _ => mild_pushNew fun m => .intern .refl _
  · exact (mild_checkRepeat _ _ _).bind fun _ => mild_pushNew fun m => .alloc .refl _ rfl
  · exact mild_refuseOperands "*" a b

theorem mild_multiply : Mild host multiply := by
  refine mild_pop.bind fun b => mild_pop.bind fun a => ?_
  split
  · exact mild_push _
  · split
    · exact mild_repeatValue _ _ _
    · exact mild_refuseOperands "*" _ _
  · exact mild_refuseOperands "*" a b

/-! Variables. -/

theorem mild_defineNamed (name : Value) : Mild host (defineNamed name) :=
  mild_pop.bind fun _ => mild_modify fun _ => .globals .refl _

theorem mild_undefinedGlobal (name : Value) : Mild host (undefinedGlobal name : Exec α) :=
  mild_read fun _ => mild_misuse _

theorem mild_getNamed (name : Value) : Mild host (getNamed name) := by
  refine mild_read fun m => ?_
  split
  · exact mild_push _
  · exact mild_undefinedGlobal name

theorem mild_setNamed (name : Value) : Mild host (setNamed name) := by
  refine (mild_peek 0).bind fun v => mild_get fun m => ?_
  split
  · exact mild_undefinedGlobal name m
  · exact mildAt_set (.globals .refl _)

theorem mild_getLocal (slot : Nat) : Mild host (getLocal slot) :=
  (mild_localSlot slot).bind fun _ => mild_read fun _ => mild_push _

theorem mild_setLocal (slot : Nat) : Mild host (setLocal slot) :=
  (mild_peek 0).bind fun v => (mild_localSlot slot).bind fun index => mild_setSlot index v

theorem mild_defaultLocal (slot : Nat) : Mild host (defaultLocal slot) := by
  refine mild_pop.bind fun v => (mild_localSlot slot).bind fun index => mild_read fun m => ?_
  split
  · exact mild_setSlot index v
  · exact mild_pure _

/-! Output and tests. -/

theorem mild_echo : Mild host echo := by
  refine mild_pop.bind fun v => mild_get fun m => (mildAt_set (.output .refl _)).bind fun _ => ?_
  split
  · exact mild_misuse _
  · exact mild_pure _

theorem mild_assertTop : Mild host assertTop := by
  refine mild_pop.bind fun message => mild_pop.bind fun condition => mild_read fun m => ?_
  split
  · exact mild_misuse _
  · exact mild_pure _

theorem mild_typeOfTop : Mild host typeOfTop :=
  mild_pop.bind fun _ => mild_pushNew fun _ => .intern .refl _

theorem mild_stringify : Mild host stringify := by
  refine (mild_peek 0).bind fun v => ?_
  split
  · exact (mild_modifyGet fun _ => .intern .refl _).bind fun v => mild_setTop v
  · exact mild_pure _

theorem mild_throwTop : Mild host throwTop := by
  refine mild_pop.bind fun e => mild_read fun m => (mild_settle _).bind fun found => ?_
  split
  · exact mild_throw rfl
  · exact mild_misuse _

/-! Making containers. -/

/-- A change of the object behind a reference that keeps functions, closures and switch tables. -/
theorem mildAt_setUpdate {m : Machine} {r : Ref} {f : Object → Object}
    (hf : ∀ o, f o = o ∨ o.isFixed = false ∧ (f o).isFixed = false) :
    MildAt host m (set (m.update r f) : Exec Unit) :=
  mildAt_set (.update .refl r f fun o _ => hf o)

theorem mild_insertIntoDict (r : Ref) (key value : Value) :
    Mild host (insertIntoDict r key value) := by
  unfold insertIntoDict
  split
  · refine mild_get fun m => ?_
    split
    · refine mildAt_setUpdate fun o => ?_
      cases o with
      | dict d => exact Or.inr ⟨rfl, rfl⟩
      | _ => exact Or.inl rfl
    · exact mild_breach rfl m
  · exact mild_misuse _

theorem mild_makeArray (count : Nat) : Mild host (makeArray count) :=
  (mild_takeTop count).bind fun _ => mild_pushNew fun _ => .alloc .refl _ rfl

theorem mild_insertPairs (r : Ref) (items : List Value) : Mild host (insertPairs r items) := by
  induction items using insertPairs.induct with
  | case1 key value rest ih => exact (mild_insertIntoDict r key value).bind fun _ => ih
  | case2 items hitems =>
    unfold insertPairs
    split
    · exact absurd rfl (hitems _ _ _)
    · exact mild_pure _

theorem mild_makeDict (count : Nat) : Mild host (makeDict count) := by
  refine (mild_takeTop _).bind fun items => ?_
  have hmake : Mild host (modifyGet fun m : Machine =>
      ((m.heap.alloc (.dict {})).1, { m with heap := (m.heap.alloc (.dict {})).2 }) : Exec Ref) :=
    mild_modifyGet fun m => .alloc .refl (.dict {}) rfl
  exact hmake.bind fun r => (mild_insertPairs r _).bind fun _ => mild_push _

theorem mild_makeRange : Mild host makeRange := by
  refine mild_pop.bind fun upper => mild_pop.bind fun lower => ?_
  split
  · exact mild_pushNew fun _ => .alloc .refl _ rfl
  · exact mild_misuse _

/-! Reading containers. -/

theorem mild_slice (receiver lower upper : Value) : Mild host (slice receiver lower upper) := by
  refine mild_read fun m => ?_
  split
  · split
    · exact mild_modifyGet fun _ => .intern .refl _
    · split
      · exact mild_modifyGet fun _ => .alloc .refl _ rfl
      · exact mild_misuse _
  · exact mild_misuse _

theorem mild_atPosition (sequence : Sequence) (index : Value) (length : Nat)
    (get? : Nat → Option α) : Mild host (atPosition sequence index length get?) := by
  unfold atPosition
  split
  · split
    · exact mild_pure _
    · exact mild_misuse _
  · exact mild_misuse _

theorem mild_element (receiver index : Value) : Mild host (element receiver index) := by
  refine mild_read fun m => ?_
  split
  · exact (mild_atPosition _ _ _ _).bind fun c => mild_modifyGet fun _ => .intern .refl _
  · split
    · exact mild_atPosition _ _ _ _
    · exact (mild_atPosition _ _ _ _).bind fun x => mild_pure _
    · split
      · exact mild_pure _
      · exact mild_misuse _
    · exact mild_misuse _

theorem mild_elementOrSlice (receiver index : Value) : Mild host (elementOrSlice receiver index) := by
  refine mild_read fun m => ?_
  split
  · split
    · exact mild_slice _ _ _
    · exact mild_element _ _
  · exact mild_element _ _

/-- The operands of a read are dropped unless an assignment follows. -/
theorem mild_answer (willAssign : Bool) (count : Nat) (v : Value) :
    Mild host (do
      if !willAssign then drop count
      push v) := by
  dsimp only
  split
  · exact (mild_drop count).bind fun _ => mild_push v
  · exact mild_push v

theorem mild_getIndex (willAssign : Bool) : Mild host (getIndex willAssign) := by
  refine (mild_peek 0).bind fun index => (mild_peek 1).bind fun receiver => ?_
  exact (mild_elementOrSlice receiver index).bind fun v => mild_answer willAssign 2 v

theorem mild_getSlice (willAssign : Bool) : Mild host (getSlice willAssign) := by
  refine (mild_peek 0).bind fun upper => (mild_peek 1).bind fun lower => ?_
  refine (mild_peek 2).bind fun receiver => (mild_slice receiver lower upper).bind fun v => ?_
  exact mild_answer willAssign 3 v

/-! Writing containers. -/

theorem mild_setIndex : Mild host setIndex := by
  refine (mild_peek 0).bind fun value => (mild_peek 1).bind fun index => ?_
  refine (mild_peek 2).bind fun receiver => mild_get fun m => ?_
  have hrest : Mild host (do drop 3; push value) := (mild_drop 3).bind fun _ => mild_push value
  split
  · split
    · split
      · split
        · refine MildAt.bind (mildAt_setUpdate fun o => ?_) fun _ => hrest
          cases o with
          | array items => exact Or.inr ⟨rfl, rfl⟩
          | _ => exact Or.inl rfl
        · exact (mild_misuse _ m).bind fun _ => hrest
      · exact (mild_misuse _ m).bind fun _ => hrest
    · exact (mild_insertIntoDict _ _ _ m).bind fun _ => hrest
    · exact (mild_misuse _ m).bind fun _ => hrest
  · exact (mild_misuse _ m).bind fun _ => hrest
  · exact (mild_misuse _ m).bind fun _ => hrest

end ScriptMachine.Machine
