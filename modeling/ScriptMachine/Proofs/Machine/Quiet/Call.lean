import ScriptMachine.Proofs.Machine.Cover.Call
import ScriptMachine.Proofs.Machine.Quiet.Data

/-!
Calls. A call of a closure pushes one frame as the last thing it does, and the frame begins at the
slot below the arguments. Every other callee is done with, natives included, when the call ends.
-/

namespace ScriptMachine.Machine

open World

variable {α : Type} {host : Host} {m m' : Machine}

/-! Closures. -/

/-- The result of a call with `count` arguments on the stack. -/
def CallsOn (host : Host) (count : Nat) (m : Machine) : EStateM.Result Signal Machine α → Prop
  | .ok _ m' =>
    Quiet host m m' ∨ ∃ base, base + count + 1 = m.stack.size ∧ Called host base m m'
  | .error s m' => Quiet host m m' ∧ s.blamesCode = false

theorem CallsOn.calls {count : Nat} {e : EStateM.Result Signal Machine α}
    (h : CallsOn host count m e) : Calls host m e := by
  cases e with
  | ok a m' =>
    rcases h with hquiet | ⟨base, -, hcalled⟩
    · exact Or.inl hquiet
    · exact Or.inr ⟨base, hcalled⟩
  | error s m' => exact h

theorem Calm.callsOn {count : Nat} {e : EStateM.Result Signal Machine α} (h : Calm host m e) :
    CallsOn host count m e := by
  cases e with
  | ok a m' => exact Or.inl h
  | error s m' => exact h

theorem CallsOn.after {count : Nat} {e : EStateM.Result Signal Machine α}
    (hquiet : Quiet host m m') (hsize : m'.stack.size = m.stack.size)
    (h : CallsOn host count m' e) : CallsOn host count m e := by
  cases e with
  | ok a m'' =>
    rcases h with hq | ⟨base, hbase, hcalled⟩
    · exact Or.inl (hquiet.trans hq)
    · exact Or.inr ⟨base, hbase.trans hsize, hquiet.called hcalled⟩
  | error s m'' => exact ⟨hquiet.trans h.1, h.2⟩

theorem takeTop_eq {count : Nat} (hcount : count ≤ m.stack.size) :
    takeTop count m = .ok (m.stack.extract (m.stack.size - count) m.stack.size)
      { m with stack := m.stack.shrink (m.stack.size - count) } := by
  unfold takeTop
  rw [get_bind, if_pos hcount]
  rfl

/-- Binding brings the parameters into place, or finds the stack too short. -/
theorem bindArguments_cases {proto : Prototype} {count : Nat}
    (hcount : proto.variadic = true ∨ count ≤ proto.arity) (m : Machine) :
    (m.stack.size < count ∧ bindArguments proto count m = .error .crash m) ∨
      ∃ m', bindArguments proto count m = .ok () m' ∧ m.Binds m' ∧
        m'.stack.size + count = m.stack.size + proto.paramSlots := by
  unfold bindArguments Prototype.paramSlots
  dsimp only
  by_cases hvariadic : proto.variadic = true
  · simp only [if_pos hvariadic, get_bind]
    by_cases hshort : m.stack.size < count - proto.arity
    · rw [if_pos hshort]
      exact Or.inl ⟨by omega, rfl⟩
    · rw [if_neg hshort]
      rw [bind_of_ok (takeTop_eq (Nat.le_of_not_lt hshort))]
      have hshrunk : (m.stack.shrink (m.stack.size - (count - proto.arity))).size =
          m.stack.size - (count - proto.arity) := by simp
      refine Or.inr ⟨_, rfl, .gathered _ _, ?_⟩
      simp only [Array.size_push, Array.size_append, Array.size_replicate, hshrunk]
      omega
  · simp only [if_neg hvariadic]
    refine Or.inr ⟨_, rfl, .plain _, ?_⟩
    have hle : count ≤ proto.arity := hcount.resolve_left hvariadic
    simp only [Array.size_append, Array.size_replicate, Nat.add_zero]
    omega

/-- What comes of calling a closure. -/
inductive Calling (m : Machine) (r : Ref) (proto : Prototype) (count : Nat) :
    EStateM.Result Signal Machine Unit → Prop where
  | refused (what : Misuse) : Calling m r proto count (misuse what m)
  | full : Calling m r proto count (.error (.fault (.frameOverflow m.settings.maxFrames)) m)
  /-- The stack is too short for the arguments. -/
  | crashes (hshort : m.stack.size < count) : Calling m r proto count (.error .crash m)
  /-- The stack is too short for the callee. -/
  | crashesBound {q : Machine} (hshort : m.stack.size ≤ count) (hbinds : m.Binds q) :
      Calling m r proto count (.error .crash q)
  | begins {q : Machine} (hroom : m.frames.length < m.settings.maxFrames)
      (hbound : bindArguments proto count m = .ok () q) (hbinds : m.Binds q)
      (hsize : q.stack.size + count = m.stack.size + proto.paramSlots)
      (hcallee : proto.paramSlots + 1 ≤ q.stack.size) :
      Calling m r proto count (.ok () { q with
        frames := { closure := r, proto, base := q.stack.size - proto.paramSlots - 1 } :: q.frames })

theorem calling_callClosure (r : Ref) (proto : Prototype) (count : Nat) (m : Machine) :
    Calling m r proto count (callClosure r proto count m) := by
  unfold callClosure
  rw [get_bind]
  by_cases hfew : count < proto.required
  · rw [if_pos hfew]
    exact .refused _
  rw [if_neg hfew]
  by_cases hmany : (decide (proto.arity < count) && !proto.variadic) = true
  · rw [if_pos hmany]
    exact .refused _
  rw [if_neg hmany]
  by_cases hdeep : m.settings.maxFrames ≤ m.frames.length
  · rw [if_pos hdeep]
    exact .full
  rw [if_neg hdeep]
  have hcount : proto.variadic = true ∨ count ≤ proto.arity := by
    by_cases hvariadic : proto.variadic = true
    · exact Or.inl hvariadic
    · right
      simpa [hvariadic] using hmany
  rcases bindArguments_cases hcount m with ⟨hshort, hcrash⟩ | ⟨q, hok, hbinds, hsize⟩
  · rw [bind_of_error hcrash]
    exact .crashes hshort
  · rw [bind_of_ok hok, get_bind]
    by_cases hshort : q.stack.size < proto.paramSlots + 1
    · rw [if_pos hshort]
      exact .crashesBound (by omega) hbinds
    · rw [if_neg hshort]
      exact .begins (Nat.lt_of_not_le hdeep) hok hbinds hsize (Nat.le_of_not_lt hshort)

theorem callsOn_callClosure {r : Ref} {c : Closure} (hc : m.heap.get? r = some (.closure c))
    (count : Nat) : CallsOn host count m (callClosure r c.proto count m) := by
  have hcalling := calling_callClosure r c.proto count m
  generalize callClosure r c.proto count m = result at hcalling
  cases hcalling with
  | refused what => exact Calm.callsOn (mild_misuse (α := Unit) what m)
  | full => exact ⟨.refl, rfl⟩
  | crashes => exact ⟨.refl, rfl⟩
  | crashesBound _ hbinds => exact ⟨hbinds.quiet, rfl⟩
  | @begins q hroom _ hbinds hsize hcallee =>
    refine Or.inr ⟨q.stack.size - c.proto.paramSlots - 1, ?_, m, q, r, c, .refl, hroom, hc, hbinds,
      rfl⟩
    omega

/-! Natives. -/

theorem quiet_exceptionInit (this : Value) (args : Array Value) (m : Machine) :
    Quiet host m (exceptionInit this args m).2 ∧ (exceptionInit this args m).1 = some this := by
  rcases exceptionInit_cases this args m with ⟨v, -, heq⟩ | ⟨text, heq⟩
  · rw [heq]
    exact ⟨quiet_setField _ _ _ _, rfl⟩
  · rw [heq]
    have hintern : Quiet host m (m.intern text).2 := .intern .refl text
    exact ⟨hintern.trans (quiet_setField _ _ _ _), rfl⟩

theorem mild_runRoutine (routine : Routine) (receiver : Value) (args : Array Value) :
    Mild host (runRoutine host routine receiver args) := by
  intro m
  unfold MildAt
  rw [runRoutine_eq]
  cases routine with
  | exceptionInit =>
    have hinit : Quiet host m (exceptionInit receiver args m).2 ∧
        (exceptionInit receiver args m).1 = some receiver := quiet_exceptionInit receiver args m
    obtain ⟨hquiet, hgave⟩ := hinit
    have hpair : native host .exceptionInit receiver args m =
        (some receiver, (exceptionInit receiver args m).2) := Prod.ext hgave rfl
    rw [hpair]
    exact hquiet
  | host name =>
    have hnative : native host (.host name) receiver args m = host name receiver args m := rfl
    rw [hnative]
    cases hresult : host name receiver args m with
    | mk given m' =>
      cases given with
      | some v => exact .gave .refl hresult
      | none =>
        have hraised : Quiet host m { m' with raised? := none } := .raised .refl hresult
        dsimp only
        cases hnone : m'.raised? with
        | some e => exact ⟨hraised, rfl⟩
        | none =>
          rw [← hnone] at hraised
          exact ⟨hraised, rfl⟩

theorem mild_runNative (n : NativeFunction) (count : Nat) : Mild host (runNative host n count) := by
  intro m
  unfold MildAt
  have hcases := @runNative_cases host n count m
  rcases hcases with ⟨what, heq⟩ | heq | ⟨-, heq⟩
  · rw [heq]
    exact mild_misuse what m
  · rw [heq]
    exact mild_breach rfl m
  · rw [heq]
    exact mild_runRoutine _ _ _ m

theorem mild_replaceFrom (base : Nat) (v : Value) : Mild host (replaceFrom base v) :=
  (mild_modify fun _ => .stack .refl _).bind fun _ => mild_push v

theorem mild_callNative (n : NativeFunction) (count : Nat) :
    Mild host (callNative host n count) :=
  (mild_calleeSlot count).bind fun base => (mild_runNative n count).bind (mild_replaceFrom base)

/-! Classes and values. -/

theorem callee?_closure {h : Heap} {v : Value} {r : Ref} {proto : Prototype}
    (hcallee : h.callee? v = some (.closure r proto)) :
    ∃ c, h.get? r = some (.closure c) ∧ c.proto = proto := by
  unfold Heap.callee? at hcallee
  split at hcallee
  · split at hcallee
    · rename_i c hc
      cases hcallee
      exact ⟨c, hc, rfl⟩
    all_goals cases hcallee
  · cases hcallee

theorem callsOn_callee {v : Value} {r : Ref} {proto : Prototype}
    (hcallee : m.heap.callee? v = some (.closure r proto)) (count : Nat) :
    CallsOn host count m (callClosure r proto count m) := by
  obtain ⟨c, hc, rfl⟩ := callee?_closure hcallee
  exact callsOn_callClosure hc count

theorem callsOn_construct (c : Class) (base : Nat) (this : Value) (count : Nat) (m : Machine) :
    CallsOn host count m (construct host c base this count m) := by
  unfold construct
  rw [get_bind]
  cases hcallee : c.constructor?.bind m.heap.callee? with
  | none =>
    dsimp only
    split
    · exact Calm.callsOn (mild_misuse (α := Unit) _ m)
    · exact Or.inl .refl
  | some callee =>
    obtain ⟨ctor, -, hfound⟩ := Option.bind_eq_some_iff.1 hcallee
    cases callee with
    | closure r proto => exact callsOn_callee hfound count
    | native n =>
      have hconstruct : Mild host (do
          let _ ← runNative host n count
          replaceFrom base this) :=
        (mild_runNative n count).bind fun _ => mild_replaceFrom _ _
      exact Calm.callsOn (hconstruct m)
    | bound b => exact ⟨.refl, rfl⟩
    | cls r c => exact ⟨.refl, rfl⟩

theorem callsOn_instantiate (r : Ref) (c : Class) (count : Nat) (m : Machine) :
    CallsOn host count m (instantiate host r c count m) := by
  unfold instantiate
  by_cases hcount : count < m.stack.size
  · rw [bind_of_ok (calleeSlot_of_lt hcount), get_bind]
    cases m.heap.initialFields? r with
    | none => exact ⟨.refl, rfl⟩
    | some fields =>
      let made := m.alloc (.inst { cls := r, fields })
      let placed : Machine :=
        { made.2 with stack := m.stack.setIfInBounds (m.stack.size - (count + 1)) made.1 }
      have hplaced : Quiet host m placed := .stack (.alloc .refl _ rfl) _
      have hsize : placed.stack.size = m.stack.size := Array.size_setIfInBounds
      exact CallsOn.after hplaced hsize (callsOn_construct c _ made.1 count placed)
  · rw [bind_of_error (calleeSlot_of_le (Nat.le_of_not_lt hcount))]
    exact ⟨.refl, rfl⟩

/-- A call leaves the heap as it was looked at until it begins. -/
theorem callsOn_callTarget (target : Value) (count : Nat) {m q : Machine} (hheap : q.heap = m.heap) :
    CallsOn host count q (callTarget host m target count q) := by
  unfold callTarget
  cases hcallee : m.heap.callee? target with
  | none => exact Calm.callsOn (mild_misuse (α := Unit) _ q)
  | some callee =>
    cases callee with
    | closure r proto =>
      rw [← hheap] at hcallee
      exact callsOn_callee hcallee count
    | native n => exact Calm.callsOn (mild_callNative n count q)
    | bound b => exact Calm.callsOn (mild_misuse (α := Unit) _ q)
    | cls r c => exact callsOn_instantiate r c count q

theorem callsOn_callValue (v : Value) (count : Nat) (m : Machine) :
    CallsOn host count m (callValue host v count m) := by
  unfold callValue
  rw [get_bind]
  cases m.heap.unbind m.heap.linkLimit none v with
  | none => exact ⟨.refl, rfl⟩
  | some found =>
    obtain ⟨receiver?, target⟩ := found
    cases receiver? with
    | none => exact callsOn_callTarget target count rfl
    | some receiver =>
      by_cases hcount : count < m.stack.size
      · let placed : Machine :=
          { m with stack := m.stack.setIfInBounds (m.stack.size - (count + 1)) receiver }
        dsimp only
        rw [bind_of_ok (calleeSlot_of_lt hcount)]
        have hsize : placed.stack.size = m.stack.size := Array.size_setIfInBounds
        exact CallsOn.after (.stack .refl _) hsize (callsOn_callTarget target count rfl)
      · dsimp only
        rw [bind_of_error (calleeSlot_of_le (Nat.le_of_not_lt hcount))]
        exact ⟨.refl, rfl⟩

theorem mayCall_callValue (v : Value) (count : Nat) : MayCall host (callValue host v count) :=
  fun m => (callsOn_callValue v count m).calls

end ScriptMachine.Machine
