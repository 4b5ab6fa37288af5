import ScriptMachine.Proofs.Machine.Cover.Invocation
import ScriptMachine.Proofs.Machine.Footing.Call

/-!
Calls of members. A lookup leaves the stack as it is, and what it yields is called in the slot of
the receiver. A superclass is popped before its methods are looked for.
-/

namespace ScriptMachine.Machine

open World

variable {α : Type} {host : Host} {m : Machine} {count : Nat}

/-! Invocation. -/

theorem leaves_runGetter (hsparing : host.Sparing) (hunder : m.frames ≠ [])
    (receiver getter : Value) : Leaves m (runGetter host receiver getter m) := by
  unfold runGetter
  rw [get_bind]
  cases m.heap.callee? getter with
  | none => exact aside_breach _ m
  | some callee =>
    cases callee with
    | native n => exact leaves_runRoutine hsparing hunder n.routine receiver #[]
    | _ => exact aside_breach _ m

theorem callsTop_invokeProperty (hsparing : host.Sparing) (receiver : Value) (e : Entry)
    (count : Nat) : CallsTop count (invokeProperty host receiver e count) := by
  have hcall (value : Value) :
      CallsTop count (do setSlot (← calleeSlot count) value; callValue host value count) :=
    callsTop_placing (callsTop_callValue hsparing value count)
  unfold invokeProperty
  cases e.kind with
  | value => exact (aside_pure e.value).thenCall hcall
  | getter =>
    exact .after (fun _ hunder => leaves_runGetter hsparing hunder receiver e.value) hcall

theorem callsTop_invokeMethod (hsparing : host.Sparing) (receiver : Value) (e : Entry)
    (count : Nat) : CallsTop count (invokeMethod host receiver e count) := by
  unfold invokeMethod
  cases e.kind with
  | value => exact callsTop_callValue hsparing _ _
  | getter => exact callsTop_invokeProperty hsparing _ _ _

theorem callsTop_invokeOnInstance (hsparing : host.Sparing) (receiver : Value) (cls : Ref)
    (name : Value) (count : Nat) (fromSelf : Bool) :
    CallsTop count (invokeOnInstance host receiver cls name count fromSelf) := by
  refine callsTop_read fun m => ?_
  split
  · exact callsTop_invokeProperty hsparing _ _ _
  · split
    · exact (aside_misuse _).callsTop
    · refine (aside_findMethod cls name).thenCall fun found => ?_
      split
      · exact callsTop_invokeMethod hsparing _ _ _
      · exact (aside_misuse _).callsTop

theorem callsTop_invoke (hsparing : host.Sparing) (name : Value) (count : Nat) (fromSelf : Bool) :
    CallsTop count (invoke host name count fromSelf) := by
  intro m hunder
  unfold invoke
  by_cases hcount : count < m.stack.size
  · rw [bind_of_ok (peek_of_lt hcount), bind_of_ok (calleeSlot_of_lt hcount), get_bind]
    generalize m.stack.getD (m.stack.size - (count + 1)) .nil = receiver
    cases m.heap.instanceClass? receiver with
    | some cls => exact callsTop_invokeOnInstance hsparing receiver cls name count fromSelf m hunder
    | none =>
      cases m.classOf? receiver with
      | some c =>
        dsimp only
        cases c.static? m.heap.pool name with
        | some e => exact callsTop_callValue hsparing e.value count m hunder
        | none => exact (aside_misuse _).callsTop m hunder
      | none =>
        dsimp only
        cases m.dictEntry? receiver name with
        | some e => exact (callsTop_callValue hsparing e.value count).placed e.value hunder
        | none =>
          refine (aside_primitiveMethod receiver name).thenCall (fun found => ?_) m hunder
          cases found with
          | some e => exact callsTop_invokeMethod hsparing receiver e count
          | none => exact (aside_misuse _).callsTop
  · rw [bind_of_error (peek_of_le (Nat.le_of_not_lt hcount))]
    trivial

/-- A class is popped before the call. -/
theorem invokes_popClass {f : Ref → Exec α} (hf : ∀ r, CallsTop count (f r))
    (hunder : m.frames ≠ []) :
    Invokes (m.stack.size - (count + 2)) count { m with stack := m.stack.pop }
      ((popClass >>= f) m) := by
  rcases popClass_cases m with ⟨r, hok⟩ | ⟨b, q, herror⟩
  · rw [bind_of_ok hok]
    have hslot : m.stack.pop.size - (count + 1) = m.stack.size - (count + 2) := by
      rw [Array.size_pop]
      omega
    rw [← hslot]
    exact hf r { m with stack := m.stack.pop } hunder
  · rw [bind_of_error herror]
    trivial

theorem invokes_invokeSuper (hsparing : host.Sparing) (hunder : m.frames ≠ []) (name : Value)
    (count : Nat) :
    Invokes (m.stack.size - (count + 2)) count { m with stack := m.stack.pop }
      (invokeSuper host name count m) := by
  refine invokes_popClass (fun superclass => ?_) hunder
  refine (aside_findMethod superclass name).thenCall fun found => ?_
  cases found with
  | some e => exact callsTop_callValue hsparing e.value count
  | none => exact callsTop_read fun _ => (aside_misuse _).callsTop

theorem invokes_superConstructor (hsparing : host.Sparing) (hunder : m.frames ≠ []) (count : Nat) :
    Invokes (m.stack.size - (count + 2)) count { m with stack := m.stack.pop }
      (superConstructor host count m) := by
  refine invokes_popClass (fun superclass => ?_) hunder
  intro p hunder
  rw [get_bind]
  cases (p.heap.class? superclass).bind Class.constructor? with
  | none =>
    dsimp only
    split
    · exact (aside_misuse _).callsTop p hunder
    · exact (aside_pure ()).callsTop p hunder
  | some ctor =>
    have hcall := callsTop_callValue hsparing ctor count p hunder
    cases hcallee : p.heap.callee? ctor with
    | none => simpa only [hcallee] using hcall
    | some callee =>
      cases callee with
      | native n =>
        simp only [hcallee]
        by_cases hcount : count < p.stack.size
        · rw [bind_of_ok (calleeSlot_of_lt hcount)]
          exact invokes_replacing hsparing hunder n (Nat.sub_le _ _) fun _ => _
        · rw [bind_of_error (calleeSlot_of_le (Nat.le_of_not_lt hcount))]
          trivial
      | _ => simpa only [hcallee] using hcall

/-! Properties. -/

theorem callsTop_showField (hsparing : host.Sparing) (receiver : Value) (e : Entry) :
    CallsTop 0 (showField host receiver e) := by
  unfold showField
  cases e.kind with
  | value => exact fun m _ => (replaces_setTop e.value m).works.invokes
  | getter => exact callsTop_placing (callsTop_callValue hsparing e.value 0)

theorem callsTop_showMethod (hsparing : host.Sparing) (receiver : Value) (e : Entry) :
    CallsTop 0 (showMethod host receiver e) := by
  unfold showMethod
  cases e.kind with
  | value => exact fun m _ => (replaces_bindTop receiver e.value m).works.invokes
  | getter => exact callsTop_showField hsparing receiver e

theorem callsTop_getOnInstance (hsparing : host.Sparing) (receiver : Value) (cls : Ref)
    (name : Value) (fromSelf : Bool) :
    CallsTop 0 (getOnInstance host receiver cls name fromSelf) := by
  refine callsTop_read fun m => ?_
  split
  · exact (aside_misuse _).callsTop
  · split
    · exact callsTop_showField hsparing _ _
    · refine (aside_findMethod cls name).thenCall fun found => ?_
      split
      · exact callsTop_showMethod hsparing _ _
      · exact (aside_misuse _).callsTop

theorem callsTop_getOnClass (hsparing : host.Sparing) (receiver : Value) (c : Class)
    (name : Value) (fromSelf : Bool) :
    CallsTop 0 (getOnClass host receiver c name fromSelf) := by
  refine callsTop_read fun m => ?_
  split
  · split
    · exact (aside_misuse _).callsTop
    · exact callsTop_showField hsparing _ _
  · exact (aside_misuse _).callsTop

theorem callsTop_getOnPrimitive (hsparing : host.Sparing) (receiver name : Value) :
    CallsTop 0 (getOnPrimitive host receiver name) := by
  refine callsTop_read fun m => ?_
  split
  · refine (aside_primitiveMethod receiver name).thenCall fun found => ?_
    split
    · exact callsTop_showMethod hsparing _ _
    · exact (aside_misuse _).callsTop
  · exact (aside_misuse _).callsTop

theorem callsTop_getProperty (hsparing : host.Sparing) (name : Value) (fromSelf : Bool) :
    CallsTop 0 (getProperty host name fromSelf) := by
  refine (aside_peek 0).thenCall fun receiver => callsTop_read fun m => ?_
  split
  · exact callsTop_getOnInstance hsparing _ _ _ _
  · split
    · exact callsTop_getOnClass hsparing _ _ _ _
    · split
      · exact callsTop_showField hsparing _ _
      · exact callsTop_getOnPrimitive hsparing _ _

end ScriptMachine.Machine
