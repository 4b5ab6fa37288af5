import ScriptMachine.Machine.Step
import ScriptMachine.Proofs.Machine.Footing

/-!
Operators, globals, containers and members work on top of the stack. Each takes its operands off and
puts its result there, if it has one, as the last thing it does.
-/

namespace ScriptMachine.Machine

variable {α : Type}

/-! Operators. -/

theorem onTop_refuseOperands {count : Nat} (symbol : String) (a b : Value) :
    OnTop count (refuseOperands symbol a b : Exec α) := onTop_read fun _ => onTop_misuse _

theorem onTop_binaryNumber (symbol : String) (op : Float → Float → Value) :
    OnTop 1 (binaryNumber symbol op) := by
  refine onTop_pop.bind fun b => onTop_pop.bind fun a => ?_
  split
  · exact onTop_push _
  · exact onTop_refuseOperands symbol a b

theorem onTop_unaryNumber (symbol : String) (op : Float → Value) :
    OnTop 1 (unaryNumber symbol op) := by
  refine onTop_pop.bind fun v => ?_
  split
  · exact onTop_push _
  · exact onTop_read fun _ => onTop_misuse _

theorem onTop_add : OnTop 1 add := by
  refine onTop_pop.bind fun b => onTop_pop.bind fun a => ?_
  split
  · exact onTop_push _
  · refine onTop_read fun m => ?_
    split
    · exact (onTop_intern _).thenPush
    · split
      · exact (onTop_alloc fun _ => rfl).thenPush
      · exact onTop_refuseOperands "+" a b

theorem onTop_checkRepeat (unit count : Nat) (b : Value) : OnTop 0 (checkRepeat unit count b) := by
  unfold checkRepeat
  split
  · exact onTop_read fun _ => onTop_misuse _
  · exact onTop_pure _

theorem onTop_repeatValue (a b : Value) (count : Nat) : OnTop 1 (repeatValue a b count) := by
  refine onTop_read fun m => ?_
  split
  · exact (onTop_checkRepeat _ _ _).bind fun _ => (onTop_intern _).thenPush
  · exact (onTop_checkRepeat _ _ _).bind fun _ => (onTop_alloc fun _ => rfl).thenPush
  · exact onTop_refuseOperands "*" a b

theorem onTop_multiply : OnTop 1 multiply := by
  refine onTop_pop.bind fun b => onTop_pop.bind fun a => ?_
  split
  · exact onTop_push _
  · split
    · exact onTop_repeatValue _ _ _
    · exact onTop_refuseOperands "*" _ _
  · exact onTop_refuseOperands "*" a b

/-! Variables. -/

theorem onTop_frameUpvalue (index : Nat) : OnTop 0 (frameUpvalue index) := by
  refine onTop_frame.bind fun f => onTop_read fun m => ?_
  split
  · split
    · exact onTop_pure _
    · exact onTop_breach _
  · exact onTop_breach _

theorem onTop_readUpvalue (index : Nat) : OnTop 0 (readUpvalue index) := by
  refine (onTop_frameUpvalue index).bind fun r => onTop_read fun m => ?_
  split
  · split
    · exact onTop_pure _
    · exact onTop_breach _
  · exact onTop_pure _
  · exact onTop_breach _

theorem onTopAt_withGlobals (m : Machine) (globals : Table) :
    OnTopAt 0 m (set { m with globals } : Exec Unit) := onTopAt_set ⟨rfl, .refl _ _⟩ rfl rfl

theorem onTop_defineNamed (name : Value) : OnTop 0 (defineNamed name) :=
  onTop_pop.bind fun _ => fun m => onTopAt_withGlobals m _

theorem onTop_undefinedGlobal {count : Nat} (name : Value) :
    OnTop count (undefinedGlobal name : Exec α) := onTop_read fun _ => onTop_misuse _

theorem onTop_getNamed (name : Value) : OnTop 1 (getNamed name) := by
  refine onTop_read fun m => ?_
  split
  · exact onTop_push _
  · exact onTop_undefinedGlobal name

theorem onTop_setNamed (name : Value) : OnTop 0 (setNamed name) := by
  refine (onTop_peek 0).bind fun v => onTop_get fun m => ?_
  split
  · exact onTop_undefinedGlobal name m
  · exact onTopAt_withGlobals m _

theorem onTop_getLocal (slot : Nat) : OnTop 1 (getLocal slot) :=
  (onTop_localSlot slot).bind fun _ => onTop_read fun _ => onTop_push _

/-! Output and tests. -/

theorem onTop_echo : OnTop 0 echo := by
  refine onTop_pop.bind fun v => onTop_get fun m => ?_
  refine OnTopAt.bind (onTopAt_set ⟨rfl, .refl _ _⟩ rfl rfl) fun _ => ?_
  split
  · exact onTop_misuse _
  · exact onTop_pure _

theorem onTop_assertTop : OnTop 0 assertTop := by
  refine onTop_pop.bind fun message => onTop_pop.bind fun condition => onTop_read fun m => ?_
  split
  · exact onTop_misuse _
  · exact onTop_pure _

theorem onTop_typeOfTop : OnTop 1 typeOfTop := onTop_pop.bind fun _ => (onTop_intern _).thenPush

/-- Nil and texts stay as they are. -/
theorem replaces_stringify (m : Machine) : Replaces (m.stack.size - 1) m (stringify m) := by
  refine (aside_peek 0).replaces fun v q hstack => ?_
  split
  · refine (aside_intern _).replaces fun text q' hstack' => ?_
    rw [← hstack, ← hstack']
    exact replaces_setTop text q'
  · rw [← hstack]
    refine ⟨.refl q, rfl, (Rests.refl q.stack), ?_⟩
    omega

theorem onTop_throwTop : OnTop 0 throwTop := by
  refine onTop_pop.bind fun e => onTop_read fun m => (onTop_settle _).bind fun found => ?_
  split
  · exact onTop_throw
  · exact onTop_misuse _

/-! Containers. -/

/-- A change of an object that is neither a closure nor a cell. -/
theorem onTopAt_update {m : Machine} {r : Ref} {f : Object → Object}
    (hf : ∀ o, f o = o ∨ o.isScoped = false ∧ (f o).isScoped = false) :
    OnTopAt 0 m (set (m.update r f) : Exec Unit) := onTopAt_set (.update hf) rfl rfl

theorem onTop_insertIntoDict (r : Ref) (key value : Value) :
    OnTop 0 (insertIntoDict r key value) := by
  unfold insertIntoDict
  split
  · refine onTop_get fun m => ?_
    split
    · refine onTopAt_update fun o => ?_
      cases o with
      | dict d => exact Or.inr ⟨rfl, rfl⟩
      | _ => exact Or.inl rfl
    · exact onTop_breach _ m
  · exact onTop_misuse _

theorem onTop_makeArray (count : Nat) : OnTop 1 (makeArray count) :=
  (onTop_takeTop count).bind fun _ => (onTop_alloc fun _ => rfl).thenPush

theorem onTop_insertPairs (r : Ref) (items : List Value) : OnTop 0 (insertPairs r items) := by
  induction items using insertPairs.induct with
  | case1 key value rest ih => exact (onTop_insertIntoDict r key value).bind fun _ => ih
  | case2 items hitems =>
    unfold insertPairs
    split
    · exact absurd rfl (hitems _ _ _)
    · exact onTop_pure _

theorem onTop_makeDict (count : Nat) : OnTop 1 (makeDict count) := by
  refine (onTop_takeTop _).bind fun items => ?_
  have hmake : OnTop 0 (modifyGet fun m : Machine =>
      ((m.heap.alloc (.dict {})).1, { m with heap := (m.heap.alloc (.dict {})).2 }) : Exec Ref) :=
    (aside_modifyGet (fun m => .alloc m (o := .dict {}) rfl) (fun _ => rfl) fun _ => rfl).onTop
  exact hmake.bind fun r => (onTop_insertPairs r _).bind fun _ => onTop_push _

theorem onTop_makeRange : OnTop 1 makeRange := by
  refine onTop_pop.bind fun upper => onTop_pop.bind fun lower => ?_
  split
  · exact (onTop_alloc fun _ => rfl).thenPush
  · exact onTop_misuse _

theorem onTop_slice (receiver lower upper : Value) : OnTop 0 (slice receiver lower upper) := by
  refine onTop_read fun m => ?_
  split
  · split
    · exact onTop_intern _
    · split
      · exact onTop_alloc fun _ => rfl
      · exact onTop_misuse _
  · exact onTop_misuse _

theorem onTop_atPosition (sequence : Sequence) (index : Value) (length : Nat)
    (get? : Nat → Option α) : OnTop 0 (atPosition sequence index length get?) := by
  unfold atPosition
  split
  · split
    · exact onTop_pure _
    · exact onTop_misuse _
  · exact onTop_misuse _

theorem onTop_element (receiver index : Value) : OnTop 0 (element receiver index) := by
  refine onTop_read fun m => ?_
  split
  · exact (onTop_atPosition _ _ _ _).bind fun c => onTop_intern _
  · split
    · exact onTop_atPosition _ _ _ _
    · exact (onTop_atPosition _ _ _ _).bind fun x => onTop_pure _
    · split
      · exact onTop_pure _
      · exact onTop_misuse _
    · exact onTop_misuse _

theorem onTop_elementOrSlice (receiver index : Value) : OnTop 0 (elementOrSlice receiver index) := by
  refine onTop_read fun m => ?_
  split
  · split
    · exact onTop_slice _ _ _
    · exact onTop_element _ _
  · exact onTop_element _ _

/-- The operands of a read are dropped unless an assignment follows. -/
theorem onTop_answer (willAssign : Bool) (count : Nat) (v : Value) :
    OnTop 1 (do
      if !willAssign then drop count
      push v) := by
  dsimp only
  split
  · exact (onTop_drop count).bind fun _ => onTop_push v
  · exact onTop_push v

theorem onTop_getIndex (willAssign : Bool) : OnTop 1 (getIndex willAssign) := by
  refine (onTop_peek 0).bind fun index => (onTop_peek 1).bind fun receiver => ?_
  exact (onTop_elementOrSlice receiver index).bind fun v => onTop_answer willAssign 2 v

theorem onTop_getSlice (willAssign : Bool) : OnTop 1 (getSlice willAssign) := by
  refine (onTop_peek 0).bind fun upper => (onTop_peek 1).bind fun lower => ?_
  refine (onTop_peek 2).bind fun receiver => (onTop_slice receiver lower upper).bind fun v => ?_
  exact onTop_answer willAssign 3 v

theorem onTop_setIndex : OnTop 1 setIndex := by
  refine (onTop_peek 0).bind fun value => (onTop_peek 1).bind fun index => ?_
  refine (onTop_peek 2).bind fun receiver => onTop_get fun m => ?_
  have hrest : OnTop 1 (do drop 3; push value) := (onTop_drop 3).bind fun _ => onTop_push value
  split
  · split
    · split
      · split
        · refine OnTopAt.bind (onTopAt_update fun o => ?_) fun _ => hrest
          cases o with
          | array items => exact Or.inr ⟨rfl, rfl⟩
          | _ => exact Or.inl rfl
        · exact (onTop_misuse _).bind (fun _ => hrest) m
      · exact (onTop_misuse _).bind (fun _ => hrest) m
    · exact (onTop_insertIntoDict _ _ _).bind (fun _ => hrest) m
    · exact (onTop_misuse _).bind (fun _ => hrest) m
  · exact (onTop_misuse _).bind (fun _ => hrest) m
  · exact (onTop_misuse _).bind (fun _ => hrest) m

/-! Members. -/

theorem aside_findMethod (cls : Ref) (name : Value) : Aside (findMethod cls name) :=
  aside_read fun _ => aside_settle _

theorem aside_primitiveMethod (receiver name : Value) :
    Aside (primitiveMethod receiver name) := by
  refine aside_read fun m => ?_
  split
  · exact aside_settle _
  · exact aside_pure _

theorem onTop_popClass : OnTop 0 popClass := by
  refine onTop_pop.bind fun v => ?_
  split
  · refine onTop_read fun m => ?_
    split
    · exact onTop_pure _
    · exact onTop_breach _
  · exact onTop_breach _

/-- A class is popped, and nothing else happens. -/
theorem popClass_cases (m : Machine) :
    (∃ r, popClass m = .ok r { m with stack := m.stack.pop }) ∨
      ∃ b q, popClass m = .error (.fault (.internal b)) q := by
  unfold popClass pop
  rw [bind_assoc, get_bind]
  cases m.stack.back? with
  | none => exact Or.inr ⟨_, _, rfl⟩
  | some v =>
    cases v with
    | ref r =>
      let popped : Machine := { m with stack := m.stack.pop }
      show (∃ s, (if m.heap.isClass r = true then pure r else breach .superclassOperand :
          Exec Ref) popped = .ok s popped) ∨ _
      by_cases hclass : m.heap.isClass r = true
      · rw [if_pos hclass]
        exact Or.inl ⟨r, rfl⟩
      · refine Or.inr ⟨.superclassOperand, popped, ?_⟩
        show (if m.heap.isClass r = true then pure r else breach .superclassOperand :
          Exec Ref) popped = _
        rw [if_neg hclass]
        rfl
    | _ => exact Or.inr ⟨_, _, rfl⟩

theorem onTop_modifyClass (v : Value) (g : Pool → Class → Class) : OnTop 0 (modifyClass v g) := by
  refine onTop_get fun m => ?_
  split
  · split
    · refine onTopAt_update fun o => ?_
      cases o with
      | cls c => exact Or.inr ⟨rfl, rfl⟩
      | _ => exact Or.inl rfl
    · exact onTop_breach _ m
  · exact onTop_breach _ m

theorem onTop_makeClass (name : Value) : OnTop 1 (makeClass name) :=
  (onTop_alloc fun _ => rfl).thenPush

theorem onTop_makeMethod (name : Value) : OnTop 0 (makeMethod name) :=
  onTop_pop.bind fun _ => onTop_read fun _ => (onTop_peek 0).bind fun cls => onTop_modifyClass cls _

theorem onTop_defineProperty (name : Value) (isStatic : Bool) :
    OnTop 0 (defineProperty name isStatic) :=
  onTop_pop.bind fun _ => (onTop_peek 0).bind fun cls => onTop_modifyClass cls _

theorem onTop_inherit : OnTop 0 inherit := by
  refine (onTop_peek 1).bind fun superclass => onTop_read fun m => ?_
  split
  · exact onTop_pop.bind fun subclass => onTop_modifyClass subclass _
  · exact onTop_misuse _

theorem replaces_bindTop (receiver method : Value) (m : Machine) :
    Replaces (m.stack.size - 1) m (bindTop receiver method m) := by
  have hmake : Aside (modifyGet fun m : Machine => m.alloc (.bound { receiver, method }) :
      Exec Value) := aside_alloc fun _ => rfl
  refine hmake.replaces fun v q hstack => ?_
  rw [← hstack]
  exact replaces_setTop v q

/-- The receiver below the popped class is replaced where it stands. -/
theorem replaces_getSuper (name : Value) (m : Machine) :
    Replaces (m.stack.size - 2) m (getSuper name m) := by
  refine Replaces.bind (onTop_popClass m) fun superclass p hpop => ?_
  have hslot : m.stack.pop.size - 1 = m.stack.size - 2 := by
    rw [Array.size_pop]
    omega
  rw [← hslot]
  rcases popClass_cases m with ⟨r, hok⟩ | ⟨b, q, herror⟩
  swap
  · rw [hpop] at herror
    cases herror
  rw [hpop] at hok
  obtain ⟨-, rfl⟩ := EStateM.Result.ok.inj hok
  refine (aside_peek 0).replaces fun receiver q hstack => ?_
  refine (aside_findMethod superclass name).replaces fun found q' hstack' => ?_
  rw [← show q'.stack = m.stack.pop from hstack'.trans hstack]
  cases found with
  | some e => exact replaces_bindTop receiver e.value q'
  | none => exact replaces_misuse _ q'

theorem onTop_setOnClass (cls name value : Value) : OnTop 0 (setOnClass cls name value) :=
  onTop_read fun _ => onTop_modifyClass cls _

theorem onTop_setProperty (name : Value) : OnTop 1 (setProperty name) := by
  refine onTop_pop.bind fun value => onTop_pop.bind fun target => onTop_get fun m => ?_
  have hpush : ∀ u : Unit, OnTop 1 (push value) := fun _ => onTop_push value
  split
  · split
    · exact (onTopAt_set (.setField m _ _ _) (congrArg List.length (frames_setField _ _ _ _))
        (stack_setField _ _ _ _)).bind hpush
    · exact (onTop_insertIntoDict _ _ _).bind hpush m
    · exact (onTop_setOnClass _ _ _).bind hpush m
    · split
      · exact (onTop_setOnClass _ _ _).bind hpush m
      · exact (onTop_misuse _).bind hpush m
  · exact onTop_misuse _ m

theorem onTop_testInstance : OnTop 1 testInstance := by
  refine onTop_pop.bind fun cls => onTop_pop.bind fun value => onTop_read fun m => ?_
  split
  · split
    · exact (onTop_settle _).bind fun _ => onTop_push _
    · exact onTop_misuse _
  · exact onTop_misuse _

end ScriptMachine.Machine
