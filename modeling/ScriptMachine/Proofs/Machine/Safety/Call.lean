import ScriptMachine.Proofs.Machine.Quiet.Call
import ScriptMachine.Proofs.Machine.Safety.Data

/-!
Calls. Binding arguments takes the surplus ones off the stack, and the frame of a closure begins
below its parameters, both without a look at the height of the stack. So a call is safe where the
callee stands on the stack below as many arguments as the call has.
-/

namespace ScriptMachine.Machine

open World

variable {low : Prop} {I : Heap → Prop} {host : Host} {m : Machine}

/-- An action that is safe where the stack is higher than a number of arguments, or counts as too
low. -/
def GuardsAbove (low : Prop) (I : Heap → Prop) {α : Type} (count : Nat) (x : Exec α) : Prop :=
  ∀ m, I m.heap → (low ∨ count < m.stack.size) → GuardsAt low I m x

theorem Guards.above {α : Type} {x : Exec α} (hx : Guards low I x) (count : Nat) :
    GuardsAbove low I count x := fun m hm _ => hx m hm

/-- After the slot of the callee was found, the stack is high enough. -/
theorem guards_calleeSlot_bind {α : Type} {count : Nat} {f : Nat → Exec α}
    (hf : ∀ base, GuardsAbove low I count (f base)) : Guards low I (calleeSlot count >>= f) := by
  intro m hm
  unfold GuardsAt
  by_cases hcount : count < m.stack.size
  · rw [bind_of_ok (calleeSlot_of_lt hcount)]
    exact hf _ m hm (Or.inr hcount)
  · rw [bind_of_error (calleeSlot_of_le (Nat.le_of_not_lt hcount))]
    exact ⟨hm, trivial⟩

theorem guardsAbove_read {α : Type} {count : Nat} {f : Machine → Exec α}
    (hf : ∀ m, GuardsAbove low I count (f m)) : GuardsAbove low I count (get >>= f) :=
  fun m hm hcount => hf m m hm hcount

/-- Writing to a slot leaves the stack as high as it is. -/
theorem guardsAbove_setSlot {α : Type} {count : Nat} {x : Exec α} (hx : GuardsAbove low I count x)
    (slot : Nat) (v : Value) : GuardsAbove low I count (setSlot slot v >>= fun _ => x) := by
  intro m hm hcount
  refine hx { m with stack := m.stack.setIfInBounds slot v } hm ?_
  simpa using hcount

variable [hlasting : LastingOutsideDicts I]

/-! Closures. -/

theorem lasts_binds {q : Machine} (hm : I m.heap) (hbinds : m.Binds q) : I q.heap := by
  cases hbinds with
  | plain => exact hm
  | gathered => exact hlasting.alloc hm ⟨by simp [Object.parent?], rfl⟩ rfl

theorem guardsAbove_callClosure (r : Ref) (proto : Prototype) (count : Nat) :
    GuardsAbove low I count (callClosure r proto count) := by
  intro m hm hcount
  have hcalling := calling_callClosure r proto count m
  unfold GuardsAt
  generalize callClosure r proto count m = result at hcalling
  cases hcalling with
  | refused what => exact guards_misuse what m hm
  | full => exact ⟨hm, trivial⟩
  | crashes hshort => exact ⟨hm, hcount.resolve_right (by omega)⟩
  | crashesBound hshort hbinds => exact ⟨lasts_binds hm hbinds, hcount.resolve_right (by omega)⟩
  | begins _ _ hbinds =>
    have hbound := lasts_binds hm hbinds
    exact hbound

/-! Natives. -/

variable [hhost : host.Respects I]

theorem lasts_native (hm : I m.heap) (routine : Routine) (receiver : Value) (args : Array Value) :
    I (native host routine receiver args m).2.heap := by
  cases routine with
  | exceptionInit =>
    have hinit : native host .exceptionInit receiver args m = exceptionInit receiver args m := rfl
    rw [hinit]
    rcases exceptionInit_cases receiver args m with ⟨v, -, heq⟩ | ⟨text, heq⟩
    · rw [heq]
      exact lasts_setField hm _ _ _
    · rw [heq]
      have hnamed : I (m.intern text).2.heap := hlasting.intern text hm
      exact lasts_setField hnamed _ _ _
  | host name => exact hhost.native name receiver args m hm

theorem guards_runRoutine (routine : Routine) (receiver : Value) (args : Array Value) :
    Guards low I (runRoutine host routine receiver args) := by
  intro m hm
  have hnative : I (native host routine receiver args m).2.heap := lasts_native hm _ _ _
  unfold GuardsAt
  rw [runRoutine_eq]
  revert hnative
  rcases native host routine receiver args m with ⟨_ | v, m'⟩ <;> intro hnative
  · dsimp only
    split
    · exact ⟨hnative, trivial⟩
    · exact ⟨hnative, trivial⟩
  · exact hnative

theorem guards_runNative (n : NativeFunction) (count : Nat) :
    Guards low I (runNative host n count) := by
  intro m hm
  unfold GuardsAt
  have hcases := @runNative_cases host n count m
  rcases hcases with ⟨what, heq⟩ | heq | ⟨-, heq⟩
  · rw [heq]
    exact guards_misuse what m hm
  · rw [heq]
    exact guards_breach _ m hm
  · rw [heq]
    exact guards_runRoutine _ _ _ m hm

omit hlasting in
theorem guards_replaceFrom (base : Nat) (v : Value) : Guards low I (replaceFrom base v) :=
  Guards.bind (guards_modify fun _ hm => hm) fun _ => guards_push v

theorem guards_callNative (n : NativeFunction) (count : Nat) :
    Guards low I (callNative host n count) :=
  (guards_calleeSlot count).bind fun base => (guards_runNative n count).bind (guards_replaceFrom base)

/-! Classes and values. -/

theorem guardsAbove_construct (c : Class) (base : Nat) (this : Value) (count : Nat) :
    GuardsAbove low I count (construct host c base this count) := by
  refine guardsAbove_read fun m => ?_
  split
  · exact guardsAbove_callClosure _ _ count
  · refine Guards.above ((guards_runNative _ count).bind fun _ => ?_) count
    exact guards_replaceFrom base this
  · exact (guards_breach _).above count
  · split
    · exact (guards_misuse _).above count
    · exact (guards_pure ()).above count

theorem guards_instantiate (r : Ref) (c : Class) (count : Nat) :
    Guards low I (instantiate host r c count) := by
  refine guards_calleeSlot_bind fun base m hm hcount => ?_
  unfold GuardsAt
  rw [get_bind]
  cases hfields : m.heap.initialFields? r with
  | none => exact guardsAt_endless (α := Unit) hm (Heap.circular_of_initialFields? hfields)
  | some fields =>
    let made := m.alloc (.inst { cls := r, fields })
    have hmade : I made.2.heap := hlasting.alloc hm ⟨nofun, rfl⟩ rfl
    have hconstruct : GuardsAbove low I count (construct host c base made.1 count) :=
      guardsAbove_construct c base made.1 count
    exact guardsAbove_setSlot hconstruct base made.1 made.2 hmade hcount

theorem guardsAbove_callTarget (m : Machine) (target : Value) (count : Nat) :
    GuardsAbove low I count (callTarget host m target count) := by
  unfold callTarget
  split
  · exact guardsAbove_callClosure _ _ count
  · exact (guards_callNative _ count).above count
  · exact (guards_instantiate _ _ count).above count
  · exact (guards_misuse _).above count

theorem guardsAbove_callValue (v : Value) (count : Nat) :
    GuardsAbove low I count (callValue host v count) := by
  intro m hm hcount
  unfold GuardsAt callValue
  rw [get_bind]
  cases hunbind : m.heap.unbind m.heap.linkLimit none v with
  | none => exact guardsAt_endless (α := Unit) hm (Or.inr ⟨v, hunbind⟩)
  | some found =>
    obtain ⟨receiver?, target⟩ := found
    have hcall : GuardsAbove low I count (callTarget host m target count) :=
      guardsAbove_callTarget m target count
    cases receiver? with
    | none => exact hcall m hm hcount
    | some receiver =>
      exact guards_calleeSlot_bind (fun base => guardsAbove_setSlot hcall base receiver) m hm

end ScriptMachine.Machine
