import ScriptMachine.Proofs.Machine.Cover.Call
import ScriptMachine.Proofs.Machine.Renaming.State

/-!
Calls on machines that are the same but for a renaming. A call of values that are alike is refused
for the same reason, pushes frames that are alike, or runs the same native. A native may collect, so
it is not said that references stay paired while it runs; the stack stays as it is, and what the
machine needs after the native is still on it.
-/

namespace ScriptMachine

open Machine

/-- Natives cannot tell machines apart that are the same but for a renaming, and leave the stack as
it is. They may rely on their receiver and arguments to survive a collection. -/
structure Host.Uniform (host : Host) (R : Renaming → Renaming → Prop) : Prop where
  native : ∀ (ρ : Renaming) (name : String) (receiver receiver' : Value) (args args' : Array Value)
    (m n : Machine), ρ.Mirrors m n → ρ.Alike receiver receiver' → ρ.Alike args args' →
    m.Rooted receiver → n.Rooted receiver' → (∀ v ∈ args, m.Rooted v) →
    (∀ v ∈ args', n.Rooted v) →
    ρ.Gives R (host name receiver args m) (host name receiver' args' n)
  stack : ∀ name receiver args (m : Machine), (host name receiver args m).2.stack = m.stack

namespace Renaming

variable {R : Renaming → Renaming → Prop} {ρ : Renaming} {m n : Machine} {v w : Value}
  {host : Host}

/-! Closures. -/

theorem grows_bindArguments {p q : Prototype} (hpq : ρ.Alike p q) (count : Nat) :
    ρ.Grows (bindArguments p count) (bindArguments q count) := by
  have hmissing : ρ.Keeps
      (modify fun m : Machine =>
        { m with stack := m.stack ++ Array.replicate (p.arity - count) .nil } : Exec Unit)
      (modify fun m : Machine =>
        { m with stack := m.stack ++ Array.replicate (p.arity - count) .nil }) :=
    keeps_modify fun _ _ hm =>
      hm.withStack (alike_append hm.state.stack (alike_replicate _ .nil))
  cases hpq
  unfold bindArguments
  dsimp only
  split
  · refine does_get fun m n hm => ?_
    rw [hm.size]
    split
    · exact keeps_crash.lift
    · refine (keeps_takeTop _).then fun rest rest' hrest => hmissing.then fun _ _ _ => ?_
      exact grows_pushNew fun m n hm => hm.alloc (.array hrest) nofun nofun
  · exact hmissing.lift

theorem grows_callClosure {r s : Ref} {p q : Prototype}
    (hcallee : ρ.Alike (Callee.closure r p) (.closure s q)) (count : Nat) :
    ρ.Grows (callClosure r p count) (callClosure s q count) := by
  cases hcallee with
  | closure hrs hproto hleft hright =>
    have hbind := grows_bindArguments hproto count
    have hsame : p.name = q.name ∧ p.required = q.required ∧ p.arity = q.arity ∧
        p.variadic = q.variadic ∧ p.paramSlots = q.paramSlots := by
      cases hproto
      exact ⟨rfl, rfl, rfl, rfl, rfl⟩
    obtain ⟨hname, hrequired, harity, hvariadic, hslots⟩ := hsame
    refine does_get fun m n hm => ?_
    rw [hname, hrequired, harity, hvariadic, hm.limits.1, List.Forall₂.length_eq hm.state.frames]
    split
    · exact grows_misuse _
    · split
      · exact grows_misuse _
      · split
        · exact (keeps_fault _).lift
        · refine hbind.then fun σ _ _ hle _ => does_get fun m n hm => ?_
          rw [hslots, hm.size]
          split
          · exact keeps_crash.lift
          · have hnarrows := Renaming.Le.narrows hle
            apply Keeps.lift
            refine keeps_set ⟨hm.heap, { hm.state with frames := .cons ?_ hm.state.frames }⟩
            exact ⟨hle.pairs hrs, hproto.mono hle, rfl, rfl, hleft.narrow hnarrows.left trivial,
              hright.narrow hnarrows.right trivial⟩

/-! Natives. -/

theorem exceptionInit_eq (this : Value) (args : Array Value) (m : Machine) :
    exceptionInit this args m =
      match args[0]? with
      | none => (some this,
          (m.intern "").2.setField this (.ref m.builtins.message) (m.intern "").1)
      | some v =>
        if v.isText then (some this, m.setField this (.ref m.builtins.message) v)
        else (some this, (m.intern (m.render v)).2.setField this (.ref m.builtins.message)
          (m.intern (m.render v)).1) := by
  unfold exceptionInit
  cases args[0]? with
  | none => rfl
  | some v =>
    by_cases htext : v.isText = true
    · simp only [htext, if_true]
      rfl
    · simp only [htext]
      rfl

theorem Mirrors.exceptionInit (hm : ρ.Mirrors m n) {this this' : Value} {args args' : Array Value}
    (hthis : ρ.Alike this this') (hargs : ρ.Alike args args') :
    ρ.Makes (exceptionInit this args m) (exceptionInit this' args' n) := by
  have hmessage : ρ.Alike (Value.ref m.builtins.message) (.ref n.builtins.message) :=
    .ref hm.state.message
  have hintern (text : String) : ρ.Makes
      (some this, (m.intern text).2.setField this (.ref m.builtins.message) (m.intern text).1)
      (some this', (n.intern text).2.setField this' (.ref n.builtins.message)
        (n.intern text).1) := by
    obtain ⟨σ, hle, hσ, htext⟩ := hm.intern text
    exact ⟨σ, hle, hσ.setField (hthis.mono hle) (hmessage.mono hle) htext, .some (hthis.mono hle)⟩
  have hfirst := alike_getElem? hargs 0
  rw [exceptionInit_eq, exceptionInit_eq]
  generalize args[0]? = v? at hfirst
  generalize args'[0]? = w? at hfirst
  cases hfirst with
  | none => exact hintern ""
  | @some v w hvw =>
    dsimp only
    rw [Value.Alike.isText hvw, hm.render hvw]
    split
    · exact ⟨ρ, le_refl ρ, hm.setField hthis hmessage hvw, .some hthis⟩
    · exact hintern _

theorem stack_native (hhost : host.Uniform R) (routine : Routine) (receiver : Value)
    (args : Array Value) (m : Machine) :
    (native host routine receiver args m).2.stack = m.stack := by
  cases routine with
  | exceptionInit =>
    rcases World.exceptionInit_cases receiver args m with ⟨v, -, heq⟩ | ⟨text, heq⟩
    · show (exceptionInit receiver args m).2.stack = m.stack
      rw [heq, stack_setField]
    · show (exceptionInit receiver args m).2.stack = m.stack
      rw [heq, stack_setField]
      rfl
  | host name => exact hhost.stack name receiver args m

theorem stack_runRoutine (hhost : host.Uniform R) {routine : Routine} {receiver : Value}
    {args : Array Value} {m' : Machine}
    (hrun : runRoutine host routine receiver args m = .ok v m') : m'.stack = m.stack := by
  have hstack := stack_native hhost routine receiver args m
  rw [World.runRoutine_eq] at hrun
  split at hrun
  · rename_i hnative
    cases hrun
    rwa [hnative] at hstack
  · split at hrun <;> cases hrun

theorem stack_runNative (hhost : host.Uniform R) {f : NativeFunction} {count : Nat} {m' : Machine}
    (hrun : runNative host f count m = .ok v m') : m'.stack = m.stack := by
  rcases World.runNative_cases f count m with ⟨what, heq⟩ | heq | ⟨-, heq⟩
  · rw [heq] at hrun
    cases hrun
  · rw [heq] at hrun
    cases hrun
  · rw [heq] at hrun
    exact stack_runRoutine hhost hrun

variable [Course R]

theorem Mirrors.native (hhost : host.Uniform R) (hm : ρ.Mirrors m n) (routine : Routine)
    {receiver receiver' : Value} {args args' : Array Value} (hreceiver : ρ.Alike receiver receiver')
    (hargs : ρ.Alike args args') (hrooted : m.Rooted receiver) (hrooted' : n.Rooted receiver')
    (hargsRooted : ∀ v ∈ args, m.Rooted v) (hargsRooted' : ∀ v ∈ args', n.Rooted v) :
    ρ.Gives R (native host routine receiver args m) (native host routine receiver' args' n) := by
  cases routine with
  | exceptionInit =>
    obtain ⟨σ, hle, hσ⟩ := hm.exceptionInit hreceiver hargs
    exact ⟨σ, Course.le hle, hσ⟩
  | host name =>
    exact hhost.native ρ name receiver receiver' args args' m n hm hreceiver hargs hrooted hrooted'
      hargsRooted hargsRooted'

theorem ends_runRoutine (hhost : host.Uniform R) (hm : ρ.Mirrors m n) (routine : Routine)
    {receiver receiver' : Value} {args args' : Array Value} (hreceiver : ρ.Alike receiver receiver')
    (hargs : ρ.Alike args args') (hrooted : m.Rooted receiver) (hrooted' : n.Rooted receiver')
    (hargsRooted : ∀ v ∈ args, m.Rooted v) (hargsRooted' : ∀ v ∈ args', n.Rooted v) :
    ρ.Ends R (runRoutine host routine receiver args m)
      (runRoutine host routine receiver' args' n) := by
  obtain ⟨σ, hR, hσ, hresult⟩ :=
    hm.native hhost routine hreceiver hargs hrooted hrooted' hargsRooted hargsRooted'
  rw [World.runRoutine_eq, World.runRoutine_eq]
  generalize Machine.native host routine receiver args m = p at hσ hresult
  generalize Machine.native host routine receiver' args' n = q at hσ hresult
  obtain ⟨v?, m'⟩ := p
  obtain ⟨w?, n'⟩ := q
  dsimp only at hσ hresult
  cases hresult with
  | some hvw => exact .ok hR hσ hvw
  | none =>
    have hraised := hσ.state.raised
    dsimp only
    generalize m'.raised? = e? at hraised
    generalize n'.raised? = e'? at hraised
    cases hraised with
    | none => exact .error hR hσ (.fault _)
    | some he => exact .error hR ⟨hσ.heap, { hσ.state with raised := .none }⟩ (.raised he)

/-- A native runs on the receiver and the arguments on the stack. -/
theorem does_runOnStack (hhost : host.Uniform R) (routine : Routine) (count : Nat) :
    let run : Exec Value := do
      let base ← calleeSlot count
      let m ← get
      runRoutine host routine (m.stack.getD base .nil) (m.stack.extract (base + 1) m.stack.size)
    ρ.Does R run run := by
  refine (keeps_calleeSlot count).then fun base base' hbase => ?_
  obtain rfl : base = base' := hbase
  intro m n hm
  have hargs := alike_extract hm.state.stack (base + 1) m.stack.size
  rw [get_bind, get_bind]
  rw [hm.size] at hargs ⊢
  exact ends_runRoutine hhost hm routine (alike_getD hm.state.stack base .nil) hargs
    (World.rooted_getD base) (World.rooted_getD base)
    (fun _ hv => World.rooted_of_mem (ArraySlots.mem_of_mem_extract hv))
    fun _ hv => World.rooted_of_mem (ArraySlots.mem_of_mem_extract hv)

theorem does_runNative (hhost : host.Uniform R) (f : NativeFunction) (count : Nat) :
    ρ.Does R (runNative host f count) (runNative host f count) := by
  unfold runNative
  dsimp only
  cases f.arity with
  | none => exact does_runOnStack hhost f.routine count
  | some arity =>
    by_cases hne : count ≠ arity
    · simp only [if_pos hne]
      exact (grows_misuse _).then fun _ _ _ _ _ => does_runOnStack hhost f.routine count
    · simp only [if_neg hne]
      exact does_runOnStack hhost f.routine count

theorem keeps_replaceFrom (base : Nat) (hvw : ρ.Alike v w) :
    ρ.Keeps (replaceFrom base v) (replaceFrom base w) :=
  (keeps_modify fun _ _ hm => hm.truncate base).then fun _ _ _ => keeps_push hvw

theorem does_callNative (hhost : host.Uniform R) (f : NativeFunction) (count : Nat) :
    ρ.Does R (callNative host f count) (callNative host f count) := by
  refine (keeps_calleeSlot count).then fun base base' hbase => ?_
  obtain rfl : base = base' := hbase
  exact (does_runNative hhost f count).then fun σ v w _ hvw => (keeps_replaceFrom base hvw).lift

/-! Classes. -/

/-- A native constructor ran on a receiver in a slot of the stack, and the receiver takes the place
of the call. -/
theorem ends_nativeConstructor (hhost : host.Uniform R) (hm : ρ.Mirrors m n) (f : NativeFunction)
    (count base : Nat) : ρ.Ends R
      ((do
        let _ ← runNative host f count
        replaceFrom base (m.stack.getD base .nil) : Exec Unit) m)
      ((do
        let _ ← runNative host f count
        replaceFrom base (n.stack.getD base .nil) : Exec Unit) n) := by
  refine (does_runNative hhost f count m n hm).bind (fun _ => id) ?_
  intro σ v w m' n' hrun hrun' hR hσ _
  have hthis := alike_getD hσ.state.stack base .nil
  rw [stack_runNative hhost hrun, stack_runNative hhost hrun'] at hthis
  exact Ends.after hR ((keeps_replaceFrom base hthis).lift m' n' hσ)

/-- A constructor runs on an instance that stands on the stack. -/
theorem ends_construct (hhost : host.Uniform R) (hm : ρ.Mirrors m n) {c d : Class}
    (hcd : ρ.Alike c d) {count base : Nat} {this this' : Value}
    (hthis : m.stack.getD base .nil = this) (hthis' : n.stack.getD base .nil = this') :
    ρ.Ends R (construct host c base this count m) (construct host d base this' count n) := by
  have hcallee := alike_bind hcd.constructor? fun v w => hm.heap.callee?
  unfold construct
  rw [get_bind, get_bind, hcd.name]
  generalize c.constructor?.bind m.heap.callee? = c? at hcallee
  generalize d.constructor?.bind n.heap.callee? = d? at hcallee
  cases hcallee with
  | none =>
    dsimp only
    split
    · exact (grows_misuse _).lift m n hm
    · exact .ok (Course.le (le_refl ρ)) hm rfl
  | some hcallee =>
    cases hcallee with
    | closure hrs hproto hleft hright =>
      exact (grows_callClosure (.closure hrs hproto hleft hright) count).lift m n hm
    | native f =>
      subst hthis hthis'
      exact ends_nativeConstructor hhost hm f count base
    | bound _ _ => exact (keeps_breach _).lift m n hm
    | cls _ _ => exact (keeps_breach _).lift m n hm

theorem does_instantiate (hhost : host.Uniform R) {r s : Ref} (hrs : ρ.pairs r s) {c d : Class}
    (hcd : ρ.Alike c d) (count : Nat) :
    ρ.Does R (instantiate host r c count) (instantiate host s d count) := by
  intro m n hm
  unfold instantiate
  by_cases hcount : count < m.stack.size
  · have hcount' : count < n.stack.size := by rwa [← hm.size]
    have hfields := hm.heap.initialFields? hrs
    rw [bind_of_ok (World.calleeSlot_of_lt hcount), bind_of_ok (World.calleeSlot_of_lt hcount'),
      get_bind, get_bind, hm.size]
    generalize m.heap.initialFields? r = t? at hfields
    generalize n.heap.initialFields? s = u? at hfields
    cases hfields with
    | none => exact (keeps_endless (α := Unit)).lift m n hm
    | @some t u htu =>
      have hinst : ρ.Alike (Object.inst { cls := r, fields := t })
          (.inst { cls := s, fields := u }) := .inst hrs htu
      obtain ⟨σ, hle, hσ, hthis⟩ := hm.alloc hinst nofun nofun
      have hplaced (stack : Array Value) (hbase : n.stack.size - (count + 1) < stack.size)
          (this : Value) : (stack.setIfInBounds (n.stack.size - (count + 1)) this).getD
            (n.stack.size - (count + 1)) .nil = this := by
        rw [Array.getD_eq_getD_getElem?, Array.getElem?_setIfInBounds_self_of_lt hbase]
        rfl
      have hsize := hm.size
      exact Ends.after (Course.le hle) (ends_construct hhost (hσ.setSlot _ hthis) (hcd.mono hle)
        (hplaced m.stack (by omega) _) (hplaced n.stack (by omega) _))
  · have hcount' : ¬ count < n.stack.size := by rwa [← hm.size]
    rw [bind_of_error (World.calleeSlot_of_le (Nat.le_of_not_lt hcount)),
      bind_of_error (World.calleeSlot_of_le (Nat.le_of_not_lt hcount'))]
    exact (keeps_breach (α := Unit) _).lift m n hm

/-! Values. -/

theorem does_callTarget (hhost : host.Uniform R) (hm : ρ.Mirrors m n) (hvw : ρ.Alike v w)
    (count : Nat) : ρ.Does R (callTarget host m v count) (callTarget host n w count) := by
  have hcallee := hm.heap.callee? hvw
  unfold callTarget
  rw [hm.typeName hvw]
  generalize m.heap.callee? v = c? at hcallee
  generalize n.heap.callee? w = d? at hcallee
  cases hcallee with
  | none => exact (grows_misuse _).lift
  | some hcallee =>
    cases hcallee with
    | closure hrs hproto hleft hright =>
      exact (grows_callClosure (.closure hrs hproto hleft hright) count).lift
    | native f => exact does_callNative hhost f count
    | bound _ _ => exact (grows_misuse _).lift
    | cls hrs hcls => exact does_instantiate hhost hrs hcls count

theorem does_callValue (hhost : host.Uniform R) (hvw : ρ.Alike v w) (count : Nat) :
    ρ.Does R (callValue host v count) (callValue host w count) := by
  refine does_get fun m n hm => ?_
  have hunbind := hm.heap.unbind hvw
  generalize m.heap.unbind m.heap.linkLimit none v = p? at hunbind
  generalize n.heap.unbind n.heap.linkLimit none w = q? at hunbind
  cases hunbind with
  | none => exact keeps_endless.lift
  | @some p q hpq =>
    obtain ⟨receiver?, target⟩ := p
    obtain ⟨receiver'?, target'⟩ := q
    obtain ⟨hreceiver, htarget⟩ := hpq
    dsimp only at hreceiver htarget
    have hcall := does_callTarget hhost hm htarget count
    cases hreceiver with
    | none => exact hcall
    | some hreceiver =>
      refine (keeps_calleeSlot count).then fun base base' hbase => ?_
      obtain rfl : base = base' := hbase
      exact (keeps_setSlot base hreceiver).then fun _ _ _ => hcall

end Renaming

end ScriptMachine
