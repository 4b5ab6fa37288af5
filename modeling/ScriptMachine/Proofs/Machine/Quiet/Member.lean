import ScriptMachine.Proofs.Machine.Quiet.Call

/-!
Classes, properties and methods. A lookup of a member ends in a mild action or in a call, and a
getter runs before the value it gives is called.
-/

namespace ScriptMachine.Machine

variable {α : Type} {host : Host}

theorem mayCall_misuse (what : Misuse) : MayCall host (misuse what : Exec α) :=
  (mild_misuse what).mayCall

/-! Searches. -/

theorem mild_findMethod (cls : Ref) (name : Value) : Mild host (findMethod cls name) :=
  mild_read fun _ => mild_settle _

theorem mild_primitiveMethod (receiver name : Value) :
    Mild host (primitiveMethod receiver name) := by
  refine mild_read fun m => ?_
  split
  · exact mild_settle _
  · exact mild_pure _

theorem mild_popClass : Mild host popClass := by
  refine mild_pop.bind fun v => ?_
  split
  · refine mild_read fun m => ?_
    split
    · exact mild_pure _
    · exact mild_breach rfl
  · exact mild_breach rfl

theorem mild_modifyClass (v : Value) (g : Pool → Class → Class) : Mild host (modifyClass v g) := by
  refine mild_get fun m => ?_
  split
  · split
    · refine mildAt_setUpdate fun o => ?_
      cases o with
      | cls c => exact Or.inr ⟨rfl, rfl⟩
      | _ => exact Or.inl rfl
    · exact mild_breach rfl m
  · exact mild_breach rfl m

/-! Invocation. -/

theorem mild_runGetter (receiver getter : Value) : Mild host (runGetter host receiver getter) := by
  refine mild_read fun m => ?_
  split
  · exact mild_runRoutine _ _ _
  · exact mild_breach rfl

theorem mayCall_invokeProperty (receiver : Value) (e : Entry) (count : Nat) :
    MayCall host (invokeProperty host receiver e count) := by
  have hcall (value : Value) :
      MayCall host (do setSlot (← calleeSlot count) value; callValue host value count) :=
    (mild_calleeSlot count).thenCall fun base =>
      (mild_setSlot base value).thenCall fun _ => mayCall_callValue value count
  unfold invokeProperty
  cases e.kind with
  | value => exact (mild_pure e.value).thenCall hcall
  | getter => exact (mild_runGetter receiver e.value).thenCall hcall

theorem mayCall_invokeMethod (receiver : Value) (e : Entry) (count : Nat) :
    MayCall host (invokeMethod host receiver e count) := by
  unfold invokeMethod
  cases e.kind with
  | value => exact mayCall_callValue _ _
  | getter => exact mayCall_invokeProperty _ _ _

theorem mayCall_invokeOnInstance (receiver : Value) (cls : Ref) (name : Value) (count : Nat)
    (fromSelf : Bool) : MayCall host (invokeOnInstance host receiver cls name count fromSelf) := by
  refine mayCall_read fun m => ?_
  split
  · exact mayCall_invokeProperty _ _ _
  · split
    · exact mayCall_misuse _
    · refine (mild_findMethod cls name).thenCall fun found => ?_
      split
      · exact mayCall_invokeMethod _ _ _
      · exact mayCall_misuse _

theorem mayCall_invoke (name : Value) (count : Nat) (fromSelf : Bool) :
    MayCall host (invoke host name count fromSelf) := by
  refine (mild_peek count).thenCall fun receiver => ?_
  refine (mild_calleeSlot count).thenCall fun base => mayCall_read fun m => ?_
  split
  · exact mayCall_invokeOnInstance _ _ _ _ _
  · split
    · split
      · exact mayCall_callValue _ _
      · exact mayCall_misuse _
    · split
      · exact (mild_setSlot _ _).thenCall fun _ => mayCall_callValue _ _
      · refine (mild_primitiveMethod receiver name).thenCall fun found => ?_
        split
        · exact mayCall_invokeMethod _ _ _
        · exact mayCall_misuse _

theorem mayCall_invokeSuper (name : Value) (count : Nat) :
    MayCall host (invokeSuper host name count) := by
  refine mild_popClass.thenCall fun superclass => ?_
  refine (mild_findMethod superclass name).thenCall fun found => ?_
  split
  · exact mayCall_callValue _ _
  · exact mayCall_read fun _ => mayCall_misuse _

theorem mayCall_superConstructor (count : Nat) : MayCall host (superConstructor host count) := by
  refine mild_popClass.thenCall fun superclass => mayCall_read fun m => ?_
  split
  · split
    · refine (mild_calleeSlot count).thenCall fun base => Mild.mayCall ?_
      exact (mild_runNative _ count).bind fun _ => mild_replaceFrom _ _
    · exact mayCall_callValue _ _
  · split
    · exact mayCall_misuse _
    · exact (mild_pure ()).mayCall

/-! Classes. -/

theorem mild_makeClass (name : Value) : Mild host (makeClass name) :=
  mild_pushNew fun _ => .alloc .refl _ rfl

theorem mild_makeMethod (name : Value) : Mild host (makeMethod name) :=
  mild_pop.bind fun _ => mild_read fun _ => (mild_peek 0).bind fun cls => mild_modifyClass cls _

theorem mild_defineProperty (name : Value) (isStatic : Bool) :
    Mild host (defineProperty name isStatic) :=
  mild_pop.bind fun _ => (mild_peek 0).bind fun cls => mild_modifyClass cls _

theorem mild_inherit : Mild host inherit := by
  refine (mild_peek 1).bind fun superclass => mild_read fun m => ?_
  split
  · exact mild_pop.bind fun subclass => mild_modifyClass subclass _
  · exact mild_misuse _

/-! Properties. -/

theorem mild_bindTop (receiver method : Value) : Mild host (bindTop receiver method) :=
  (mild_modifyGet fun _ => .alloc .refl _ rfl).bind fun v => mild_setTop v

theorem mild_getSuper (name : Value) : Mild host (getSuper name) := by
  refine mild_popClass.bind fun superclass => (mild_peek 0).bind fun receiver => ?_
  refine (mild_findMethod superclass name).bind fun found => ?_
  split
  · exact mild_bindTop _ _
  · exact mild_read fun _ => mild_misuse _

theorem mayCall_showField (receiver : Value) (e : Entry) :
    MayCall host (showField host receiver e) := by
  unfold showField
  cases e.kind with
  | value => exact (mild_setTop _).mayCall
  | getter =>
    exact (mild_calleeSlot 0).thenCall fun base =>
      (mild_setSlot base receiver).thenCall fun _ => mayCall_callValue _ _

theorem mayCall_showMethod (receiver : Value) (e : Entry) :
    MayCall host (showMethod host receiver e) := by
  unfold showMethod
  cases e.kind with
  | value => exact (mild_bindTop _ _).mayCall
  | getter => exact mayCall_showField _ _

theorem mayCall_getOnInstance (receiver : Value) (cls : Ref) (name : Value) (fromSelf : Bool) :
    MayCall host (getOnInstance host receiver cls name fromSelf) := by
  refine mayCall_read fun m => ?_
  split
  · exact mayCall_misuse _
  · split
    · exact mayCall_showField _ _
    · refine (mild_findMethod cls name).thenCall fun found => ?_
      split
      · exact mayCall_showMethod _ _
      · exact mayCall_misuse _

theorem mayCall_getOnClass (receiver : Value) (c : Class) (name : Value) (fromSelf : Bool) :
    MayCall host (getOnClass host receiver c name fromSelf) := by
  refine mayCall_read fun m => ?_
  split
  · split
    · exact mayCall_misuse _
    · exact mayCall_showField _ _
  · exact mayCall_misuse _

theorem mayCall_getOnPrimitive (receiver name : Value) :
    MayCall host (getOnPrimitive host receiver name) := by
  refine mayCall_read fun m => ?_
  split
  · refine (mild_primitiveMethod receiver name).thenCall fun found => ?_
    split
    · exact mayCall_showMethod _ _
    · exact mayCall_misuse _
  · exact mayCall_misuse _

theorem mayCall_getProperty (name : Value) (fromSelf : Bool) :
    MayCall host (getProperty host name fromSelf) := by
  refine (mild_peek 0).thenCall fun receiver => mayCall_read fun m => ?_
  split
  · exact mayCall_getOnInstance _ _ _ _
  · split
    · exact mayCall_getOnClass _ _ _ _
    · split
      · exact mayCall_showField _ _
      · exact mayCall_getOnPrimitive _ _

theorem mild_setOnClass (cls name value : Value) : Mild host (setOnClass cls name value) :=
  mild_read fun _ => mild_modifyClass cls _

theorem mild_setProperty (name : Value) : Mild host (setProperty name) := by
  refine mild_pop.bind fun value => mild_pop.bind fun target => mild_get fun m => ?_
  split
  · split
    · exact (mildAt_set (quiet_setField _ _ _ _)).bind fun _ => mild_push value
    · exact (mild_insertIntoDict _ _ _ m).bind fun _ => mild_push value
    · exact (mild_setOnClass _ _ _ m).bind fun _ => mild_push value
    · split
      · exact (mild_setOnClass _ _ _ m).bind fun _ => mild_push value
      · exact (mild_misuse _ m).bind fun _ => mild_push value
  · exact mild_misuse _ m

theorem mild_testInstance : Mild host testInstance := by
  refine mild_pop.bind fun cls => mild_pop.bind fun value => mild_read fun m => ?_
  split
  · split
    · exact (mild_settle _).bind fun _ => mild_push _
    · exact mild_misuse _
  · exact mild_misuse _

end ScriptMachine.Machine
