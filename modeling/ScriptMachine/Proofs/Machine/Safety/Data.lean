import ScriptMachine.Proofs.Machine.Safety

/-!
Operators, variables and containers are safe. None of them searches a chain of classes or calls, and
what they store in the heap is no class.
-/

namespace ScriptMachine.Machine

variable {α : Type} {low : Prop} {I : Heap → Prop} {m : Machine}

/-! The stack, the globals and jumps alone. -/

theorem guards_frameUpvalue (index : Nat) : Guards low I (frameUpvalue index) := by
  refine guards_frame.bind fun f => guards_read fun m => ?_
  split
  · split
    · exact guards_pure _
    · exact guards_breach _
  · exact guards_breach _

theorem guards_readUpvalue (index : Nat) : Guards low I (readUpvalue index) := by
  refine (guards_frameUpvalue index).bind fun r => guards_read fun m => ?_
  split
  · split
    · exact guards_pure _
    · exact guards_breach _
  · exact guards_pure _
  · exact guards_breach _

theorem guards_defineNamed (name : Value) : Guards low I (defineNamed name) :=
  guards_pop.bind fun _ => guards_modify fun _ hm => hm

theorem guards_getLocal (slot : Nat) : Guards low I (getLocal slot) :=
  (guards_localSlot slot).bind fun _ => guards_read fun _ => guards_push _

theorem guards_setLocal (slot : Nat) : Guards low I (setLocal slot) :=
  (guards_peek 0).bind fun v => (guards_localSlot slot).bind fun index => guards_setSlot index v

theorem guards_defaultLocal (slot : Nat) : Guards low I (defaultLocal slot) := by
  refine guards_pop.bind fun v => (guards_localSlot slot).bind fun index => guards_read fun m => ?_
  split
  · exact guards_setSlot index v
  · exact guards_pure _

theorem guards_jumpIfFalse (distance : Nat) : Guards low I (jumpIfFalse distance) := by
  refine guards_pop.bind fun v => guards_read fun m => ?_
  split
  · exact guards_jumpBy _
  · exact guards_pure _

theorem guards_jumpBack (start distance : Nat) : Guards low I (jumpBack start distance) := by
  refine guards_frame.bind fun f => ?_
  split
  · exact guards_jumpTo _
  · exact guards_malformed _ _

theorem guards_switchOn (table : Value) : Guards low I (switchOn table) := by
  refine guards_pop.bind fun v => guards_read fun m => ?_
  split
  · exact guards_jumpBy _
  · exact guards_breach _

/-- The operands of a read are dropped unless an assignment follows. -/
theorem guards_answer (willAssign : Bool) (count : Nat) (v : Value) :
    Guards low I (do
      if !willAssign then drop count
      push v) := by
  dsimp only
  split
  · exact (guards_drop count).bind fun _ => guards_push v
  · exact guards_push v

section OutsideDicts

variable [hlasting : LastingOutsideDicts I]

/-! Operators. -/

theorem guards_pushText {text : Machine → String} :
    Guards low I (do push (← modifyGet fun m => m.intern (text m))) :=
  guards_pushNew fun _ hm => hlasting.intern _ hm

theorem guards_refuseOperands (symbol : String) (a b : Value) :
    Guards low I (refuseOperands symbol a b : Exec α) := guards_read fun _ => guards_misuse _

theorem guards_binaryNumber (symbol : String) (op : Float → Float → Value) :
    Guards low I (binaryNumber symbol op) := by
  refine guards_pop.bind fun b => guards_pop.bind fun a => ?_
  split
  · exact guards_push _
  · exact guards_refuseOperands symbol a b

theorem guards_unaryNumber (symbol : String) (op : Float → Value) :
    Guards low I (unaryNumber symbol op) := by
  refine guards_pop.bind fun v => ?_
  split
  · exact guards_push _
  · exact guards_read fun _ => guards_misuse _

theorem guards_pushArray (items : Array Value) :
    Guards low I (do push (← modifyGet fun m => m.alloc (.array items))) :=
  guards_pushNew fun _ hm => hlasting.alloc hm ⟨nofun, rfl⟩ rfl

theorem guards_add : Guards low I add := by
  refine guards_pop.bind fun b => guards_pop.bind fun a => ?_
  split
  · exact guards_push _
  · refine guards_read fun m => ?_
    split
    · exact guards_pushText
    · split
      · exact guards_pushArray _
      · exact guards_refuseOperands "+" a b

theorem guards_checkRepeat (unit count : Nat) (b : Value) :
    Guards low I (checkRepeat unit count b) := by
  unfold checkRepeat
  split
  · exact guards_read fun _ => guards_misuse _
  · exact guards_pure _

theorem guards_repeatValue (a b : Value) (count : Nat) : Guards low I (repeatValue a b count) := by
  refine guards_read fun m => ?_
  split
  · exact (guards_checkRepeat _ _ _).bind fun _ => guards_pushText
  · exact (guards_checkRepeat _ _ _).bind fun _ => guards_pushArray _
  · exact guards_refuseOperands "*" a b

theorem guards_multiply : Guards low I multiply := by
  refine guards_pop.bind fun b => guards_pop.bind fun a => ?_
  split
  · exact guards_push _
  · split
    · exact guards_repeatValue _ _ _
    · exact guards_refuseOperands "*" _ _
  · exact guards_refuseOperands "*" a b

/-! Variables. -/

theorem guards_writeUpvalue (index : Nat) (v : Value) : Guards low I (writeUpvalue index v) := by
  refine (guards_frameUpvalue index).bind fun r => guards_get fun m hm => ?_
  split
  · split
    · exact guards_setSlot _ v m hm
    · exact guards_breach _ m hm
  · next hold =>
    refine guardsAt_setUpdate hm (fun o ho => ?_) fun o ho => ?_
    · rw [hold] at ho
      rw [← Option.some.inj ho]
      rfl
    · rw [hold] at ho
      rw [← Option.some.inj ho]
      exact Or.inr ⟨rfl, rfl⟩
  · exact guards_breach _ m hm

theorem guards_closeTop : Guards low I closeTop := by
  refine guards_get fun m hm => ?_
  split
  · exact guards_breach _ m hm
  · exact GuardsAt.bind (lasts_closeUpvalues hm _) fun _ => guards_pop.bind fun _ => guards_pure ()

theorem lasts_captureSlot (hm : I m.heap) (slot : Nat) : I (m.captureSlot slot).2.heap := by
  unfold captureSlot
  dsimp only
  split
  · exact hm
  · exact hlasting.alloc hm ⟨nofun, rfl⟩ rfl

theorem guards_captureAll (base count : Nat) : Guards low I (captureAll base count) := by
  induction count with
  | zero => exact guards_pure _
  | succ count ih =>
    refine guards_fetchByte.bind fun flag => guards_fetchShort.bind fun index => ?_
    have hrest (cell : Ref) : Guards low I (do return cell :: (← captureAll base count)) :=
      ih.bind fun _ => guards_pure _
    dsimp only
    split
    · exact (guards_modifyGet fun _ hm => lasts_captureSlot hm _).bind hrest
    · exact (guards_frameUpvalue _).bind hrest

theorem guards_closeOver (function : Ref) : Guards low I (closeOver function) := by
  refine guards_read fun m => ?_
  split
  · refine guards_frame.bind fun f => (guards_captureAll _ _).bind fun upvalues => ?_
    exact guards_pushNew fun _ hm => hlasting.alloc hm ⟨by simp [Object.parent?], rfl⟩ rfl
  · exact guards_breach _

theorem guards_makeClosure : Guards low I makeClosure := by
  refine guards_fetchConstant.bind fun v => ?_
  split
  · exact guards_closeOver _
  · exact guards_breach _

theorem guards_undefinedGlobal (name : Value) : Guards low I (undefinedGlobal name : Exec α) :=
  guards_read fun _ => guards_misuse _

theorem guards_getNamed (name : Value) : Guards low I (getNamed name) := by
  refine guards_read fun m => ?_
  split
  · exact guards_push _
  · exact guards_undefinedGlobal name

theorem guards_setNamed (name : Value) : Guards low I (setNamed name) := by
  refine (guards_peek 0).bind fun v => guards_get fun m hm => ?_
  split
  · exact guards_undefinedGlobal name m hm
  · exact hm

/-! Output and tests. -/

theorem guards_echo : Guards low I echo := by
  refine guards_pop.bind fun v => guards_get fun m hm => GuardsAt.bind hm fun _ => ?_
  split
  · exact guards_misuse _
  · exact guards_pure _

theorem guards_assertTop : Guards low I assertTop := by
  refine guards_pop.bind fun message => guards_pop.bind fun condition => guards_read fun m => ?_
  split
  · exact guards_misuse _
  · exact guards_pure _

theorem guards_typeOfTop : Guards low I typeOfTop := guards_pop.bind fun _ => guards_pushText

theorem guards_stringify : Guards low I stringify := by
  refine (guards_peek 0).bind fun v => ?_
  split
  · exact (guards_modifyGet fun _ hm => hlasting.intern _ hm).bind fun v => guards_setTop v
  · exact guards_pure _

/-! Containers. -/

theorem guards_makeArray (count : Nat) : Guards low I (makeArray count) :=
  (guards_takeTop count).bind fun _ => guards_pushArray _

theorem guards_makeRange : Guards low I makeRange := by
  refine guards_pop.bind fun upper => guards_pop.bind fun lower => ?_
  split
  · exact guards_pushNew fun _ hm => hlasting.alloc hm ⟨nofun, rfl⟩ rfl
  · exact guards_misuse _

theorem guards_slice (receiver lower upper : Value) : Guards low I (slice receiver lower upper) := by
  refine guards_read fun m => ?_
  split
  · split
    · exact guards_modifyGet fun _ hm => hlasting.intern _ hm
    · split
      · exact guards_modifyGet fun _ hm => hlasting.alloc hm ⟨nofun, rfl⟩ rfl
      · exact guards_misuse _
  · exact guards_misuse _

theorem guards_atPosition (sequence : Sequence) (index : Value) (length : Nat)
    (get? : Nat → Option α) : Guards low I (atPosition sequence index length get?) := by
  unfold atPosition
  split
  · split
    · exact guards_pure _
    · exact guards_misuse _
  · exact guards_misuse _

theorem guards_element (receiver index : Value) : Guards low I (element receiver index) := by
  refine guards_read fun m => ?_
  split
  · exact (guards_atPosition _ _ _ _).bind fun c =>
      guards_modifyGet fun _ hm => hlasting.intern _ hm
  · split
    · exact guards_atPosition _ _ _ _
    · exact (guards_atPosition _ _ _ _).bind fun x => guards_pure _
    · split
      · exact guards_pure _
      · exact guards_misuse _
    · exact guards_misuse _

theorem guards_elementOrSlice (receiver index : Value) :
    Guards low I (elementOrSlice receiver index) := by
  refine guards_read fun m => ?_
  split
  · split
    · exact guards_slice _ _ _
    · exact guards_element _ _
  · exact guards_element _ _

theorem guards_getIndex (willAssign : Bool) : Guards low I (getIndex willAssign) := by
  refine (guards_peek 0).bind fun index => (guards_peek 1).bind fun receiver => ?_
  exact (guards_elementOrSlice receiver index).bind fun v => guards_answer willAssign 2 v

theorem guards_getSlice (willAssign : Bool) : Guards low I (getSlice willAssign) := by
  refine (guards_peek 0).bind fun upper => (guards_peek 1).bind fun lower => ?_
  refine (guards_peek 2).bind fun receiver => (guards_slice receiver lower upper).bind fun v => ?_
  exact guards_answer willAssign 3 v

/-- Storing at an index is safe if it is where the index is a key of a dict. -/
theorem guardsAt_setIndex (hm : I m.heap)
    (hinsert : ∀ r d key value, peek 0 m = .ok value m → peek 1 m = .ok key m →
      peek 2 m = .ok (.ref r) m → m.heap.get? r = some (.dict d) →
      GuardsAt low I m (insertIntoDict r key value)) : GuardsAt low I m setIndex := by
  have hpeek {β : Type} {distance : Nat} {f : Value → Exec β}
      (hf : ∀ v, peek distance m = .ok v m → GuardsAt low I m (f v)) :
      GuardsAt low I m (peek distance >>= f) := by
    refine (guards_peek distance m hm).bindAt fun v m' hok _ => ?_
    obtain rfl := peek_ok hok
    exact hf v hok
  refine hpeek fun value hvalue => hpeek fun index hindex => hpeek fun receiver hreceiver => ?_
  have hrest : Guards low I (do drop 3; push value) := (guards_drop 3).bind fun _ => guards_push value
  refine guardsAt_get ?_
  split
  · split
    · split
      · split
        · refine GuardsAt.bind (guardsAt_setUpdate hm (fun o _ => ?_) fun o _ => ?_) fun _ => hrest
          · cases o <;> rfl
          · cases o with
            | array items => exact Or.inr ⟨rfl, rfl⟩
            | _ => exact Or.inl rfl
        · exact (guards_misuse _ m hm).bind fun _ => hrest
      · exact (guards_misuse _ m hm).bind fun _ => hrest
    · next d hd =>
      exact (hinsert _ d index value hvalue hindex hreceiver hd).bind fun _ => hrest
    · exact (guards_misuse _ m hm).bind fun _ => hrest
  · exact (guards_misuse _ m hm).bind fun _ => hrest
  · exact (guards_misuse _ m hm).bind fun _ => hrest

end OutsideDicts

/-! Dicts. -/

variable [hlasting : Lasting I]

theorem guards_insertIntoDict (r : Ref) (key value : Value) :
    Guards low I (insertIntoDict r key value) := by
  unfold insertIntoDict
  split
  · refine guards_get fun m hm => ?_
    split
    · refine hlasting.update hm fun o _ => ?_
      cases o <;> rfl
    · exact guards_breach _ m hm
  · exact guards_misuse _

theorem guards_insertPairs (r : Ref) (items : List Value) : Guards low I (insertPairs r items) := by
  induction items using insertPairs.induct with
  | case1 key value rest ih => exact (guards_insertIntoDict r key value).bind fun _ => ih
  | case2 items hitems =>
    unfold insertPairs
    split
    · exact absurd rfl (hitems _ _ _)
    · exact guards_pure _

theorem guards_makeDict (count : Nat) : Guards low I (makeDict count) := by
  refine (guards_takeTop _).bind fun items => ?_
  have hmake : Guards low I (modifyGet fun m : Machine =>
      ((m.heap.alloc (.dict {})).1, { m with heap := (m.heap.alloc (.dict {})).2 }) : Exec Ref) :=
    guards_modifyGet fun m hm => hlasting.alloc hm ⟨nofun, rfl⟩
  exact hmake.bind fun r => (guards_insertPairs r _).bind fun _ => guards_push _

theorem guards_setIndex : Guards low I setIndex :=
  fun _ hm => guardsAt_setIndex hm fun r _ key value _ _ _ _ => guards_insertIntoDict r key value _ hm

end ScriptMachine.Machine
