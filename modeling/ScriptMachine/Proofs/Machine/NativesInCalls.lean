import ScriptMachine.Proofs.Machine.Footing.Instruction

/-!
Natives in calls. While a script runs a call is under way, whichever way the script takes to a
native: a call, an invocation, a constructor or a getter. So hosts whose natives do the same while a
call is under way make scripts do the same, and calls that start none of them at once.
-/

namespace ScriptMachine

/-- Two uses of the machine that cannot be told apart while a call is under way. Afterwards it still
is. -/
def Machine.SameInCall {α : Type} (x y : StateM Machine α) : Prop :=
  ∀ m : Machine, m.frames ≠ [] → x m = y m ∧ (y m).2.frames ≠ []

def Host.SameInCall (host host' : Host) : Prop :=
  ∀ name receiver args, Machine.SameInCall (host name receiver args) (host' name receiver args)

namespace Machine

variable {α β : Type} {host host' : Host}

/-- Two actions that do the same while a call is under way. -/
def AgreeInCall (x y : Exec α) : Prop := ∀ m : Machine, m.frames ≠ [] → x m = y m

/-- An action that goes on only while a call is under way. -/
def StaysInCall (x : Exec α) : Prop :=
  ∀ (m : Machine) (a : α) (m' : Machine), m.frames ≠ [] → x m = .ok a m' → m'.frames ≠ []

theorem OnTop.staysInCall {count : Nat} {x : Exec α} (hx : OnTop count x) : StaysInCall x := by
  intro m a m' hframes hok
  have hworks := hx m
  unfold OnTopAt at hworks
  rw [hok] at hworks
  have hlength : m'.frames.length = m.frames.length := hworks.2.1
  rw [← List.length_pos_iff] at hframes ⊢
  omega

theorem Aside.staysInCall {x : Exec α} (hx : Aside x) : StaysInCall x :=
  OnTop.staysInCall (hx.onTop : OnTop 0 x)

theorem staysInCall_setSlot (slot : Nat) (v : Value) : StaysInCall (setSlot slot v) := by
  intro m _ m' hframes hok
  cases hok
  exact hframes

theorem staysInCall_calleeSlot (count : Nat) : StaysInCall (calleeSlot count) :=
  Aside.staysInCall <| aside_read fun m => by
    split
    · exact aside_pure _
    · exact aside_breach _

/-! Sequences. -/

namespace AgreeInCall

theorem refl (x : Exec α) : AgreeInCall x x := fun _ _ => rfl

/-- What follows the same action. -/
theorem after {x : Exec α} {f g : α → Exec β} (hx : StaysInCall x)
    (hf : ∀ a, AgreeInCall (f a) (g a)) : AgreeInCall (x >>= f) (x >>= g) := by
  intro m hframes
  cases hres : x m with
  | ok a m' =>
    rw [bind_of_ok hres, bind_of_ok hres]
    exact hf a m' (hx m a m' hframes hres)
  | error s m' => rw [bind_of_error hres, bind_of_error hres]

/-- The same action follows. -/
theorem andThen {x y : Exec α} (hxy : AgreeInCall x y) (f : α → Exec β) :
    AgreeInCall (x >>= f) (y >>= f) := by
  intro m hframes
  have hsame := hxy m hframes
  cases hres : y m with
  | ok a m' => rw [bind_of_ok (hsame.trans hres), bind_of_ok hres]
  | error s m' => rw [bind_of_error (hsame.trans hres), bind_of_error hres]

theorem bind {x y : Exec α} {f g : α → Exec β} (hxy : AgreeInCall x y) (hy : StaysInCall y)
    (hf : ∀ a, AgreeInCall (f a) (g a)) : AgreeInCall (x >>= f) (y >>= g) :=
  fun m hframes => (hxy.andThen f m hframes).trans (after hy hf m hframes)

theorem read {f g : Machine → Exec α} (hf : ∀ m, AgreeInCall (f m) (g m)) :
    AgreeInCall (get >>= f) (get >>= g) := fun m hframes => hf m m hframes

/-- A value takes the place of the callee first. -/
theorem placing {x y : Exec Unit} (hxy : AgreeInCall x y) (count : Nat) (v : Value) :
    AgreeInCall (do setSlot (← calleeSlot count) v; x) (do setSlot (← calleeSlot count) v; y) :=
  after (staysInCall_calleeSlot count) fun base => after (staysInCall_setSlot base v) fun _ => hxy

/-- An operation that reads its operand and calls. -/
theorem reading {x : Exec α} {f g : α → Exec Unit} (hx : OnTop 0 x)
    (hf : ∀ a, AgreeInCall (f a) (g a)) :
    AgreeInCall (proceed (x >>= f)) (proceed (x >>= g)) :=
  (after hx.staysInCall hf).andThen _

theorem throwing {x y : Exec α} (hxy : AgreeInCall x y) (resume : α) :
    AgreeInCall (throwing resume x) (throwing resume y) := by
  intro m hframes
  unfold Machine.throwing
  rw [hxy m hframes]

end AgreeInCall

/-! Natives. -/

theorem native_sameInCall (hsame : host.SameInCall host') (routine : Routine) (receiver : Value)
    (args : Array Value) :
    SameInCall (native host routine receiver args) (native host' routine receiver args) := by
  cases routine with
  | host name => exact hsame name receiver args
  | exceptionInit =>
    intro m hframes
    refine ⟨rfl, ?_⟩
    show (exceptionInit receiver args m).2.frames ≠ []
    rcases World.exceptionInit_cases receiver args m with ⟨v, -, heq⟩ | ⟨text, heq⟩
    · rw [heq]
      simpa using hframes
    · rw [heq]
      simpa using show (m.intern text).2.frames ≠ [] from hframes

section Calls

variable (hsame : host.SameInCall host')
include hsame

theorem agree_runRoutine (routine : Routine) (receiver : Value) (args : Array Value) :
    AgreeInCall (runRoutine host routine receiver args) (runRoutine host' routine receiver args) := by
  intro m hframes
  unfold runRoutine
  rw [modifyGet_bind, modifyGet_bind, (native_sameInCall hsame routine receiver args m hframes).1]

theorem staysInCall_runRoutine (routine : Routine) (receiver : Value) (args : Array Value) :
    StaysInCall (runRoutine host' routine receiver args) := by
  intro m a m' hframes hok
  have hstays := (native_sameInCall hsame routine receiver args m hframes).2
  unfold runRoutine at hok
  rw [modifyGet_bind] at hok
  generalize native host' routine receiver args m = p at hok hstays
  obtain ⟨given, q⟩ := p
  cases given with
  | some v =>
    cases hok
    exact hstays
  | none =>
    dsimp only at hok
    rw [get_bind] at hok
    cases hraised : q.raised? with
    | some e =>
      rw [hraised] at hok
      cases hok
    | none =>
      rw [hraised] at hok
      cases hok

theorem agree_runNative (n : NativeFunction) (count : Nat) :
    AgreeInCall (runNative host n count) (runNative host' n count) := by
  have hrun : AgreeInCall
      (do
        let base ← calleeSlot count
        let m ← get
        runRoutine host n.routine (m.stack.getD base .nil)
          (m.stack.extract (base + 1) m.stack.size))
      (do
        let base ← calleeSlot count
        let m ← get
        runRoutine host' n.routine (m.stack.getD base .nil)
          (m.stack.extract (base + 1) m.stack.size)) :=
    .after (staysInCall_calleeSlot count) fun base => .read fun m => agree_runRoutine hsame _ _ _
  unfold runNative
  cases n.arity with
  | none => exact hrun
  | some arity =>
    dsimp only
    split
    · exact .after (aside_misuse _).staysInCall fun _ => hrun
    · exact hrun

theorem agree_callNative (n : NativeFunction) (count : Nat) :
    AgreeInCall (callNative host n count) (callNative host' n count) :=
  .after (staysInCall_calleeSlot count) fun _ => (agree_runNative hsame n count).andThen _

theorem agree_construct (c : Class) (base : Nat) (this : Value) (count : Nat) :
    AgreeInCall (construct host c base this count) (construct host' c base this count) := by
  refine .read fun m => ?_
  split
  · exact .refl _
  · exact (agree_runNative hsame _ count).andThen _
  · exact .refl _
  · exact .refl _

theorem agree_instantiate (r : Ref) (c : Class) (count : Nat) :
    AgreeInCall (instantiate host r c count) (instantiate host' r c count) := by
  refine .after (staysInCall_calleeSlot count) fun base => .read fun m => ?_
  split
  · exact .refl _
  · refine .after (aside_alloc fun _ => rfl).staysInCall fun this => ?_
    exact .after (staysInCall_setSlot base this) fun _ => agree_construct hsame c base this count

theorem agree_callTarget (m : Machine) (target : Value) (count : Nat) :
    AgreeInCall (callTarget host m target count) (callTarget host' m target count) := by
  unfold callTarget
  split
  · exact .refl _
  · exact agree_callNative hsame _ count
  · exact agree_instantiate hsame _ _ count
  · exact .refl _

theorem agree_callValue (v : Value) (count : Nat) :
    AgreeInCall (callValue host v count) (callValue host' v count) := by
  refine .read fun m => ?_
  split
  · exact .refl _
  · next receiver? target _ =>
    have htarget := agree_callTarget hsame m target count
    cases receiver? with
    | none => exact htarget
    | some receiver =>
      exact .after (staysInCall_calleeSlot count) fun base =>
        .after (staysInCall_setSlot base receiver) fun _ => htarget

/-! Members. -/

theorem agree_runGetter (receiver getter : Value) :
    AgreeInCall (runGetter host receiver getter) (runGetter host' receiver getter) := by
  refine .read fun m => ?_
  split
  · exact agree_runRoutine hsame _ _ _
  · exact .refl _

theorem staysInCall_runGetter (receiver getter : Value) :
    StaysInCall (runGetter host' receiver getter) := by
  intro m a m' hframes hok
  unfold runGetter at hok
  rw [get_bind] at hok
  cases hcallee : m.heap.callee? getter with
  | none =>
    rw [hcallee] at hok
    cases hok
  | some callee =>
    rw [hcallee] at hok
    cases callee with
    | native n => exact staysInCall_runRoutine hsame _ _ _ m a m' hframes hok
    | _ => cases hok

theorem agree_invokeProperty (receiver : Value) (e : Entry) (count : Nat) :
    AgreeInCall (invokeProperty host receiver e count) (invokeProperty host' receiver e count) := by
  have hplaced (value : Value) := (agree_callValue hsame value count).placing count value
  unfold invokeProperty
  cases e.kind with
  | value => exact hplaced e.value
  | getter =>
    exact (agree_runGetter hsame receiver e.value).bind
      (staysInCall_runGetter hsame receiver e.value) hplaced

theorem agree_invokeMethod (receiver : Value) (e : Entry) (count : Nat) :
    AgreeInCall (invokeMethod host receiver e count) (invokeMethod host' receiver e count) := by
  unfold invokeMethod
  cases e.kind with
  | value => exact agree_callValue hsame e.value count
  | getter => exact agree_invokeProperty hsame receiver e count

theorem agree_invokeOnInstance (receiver : Value) (cls : Ref) (name : Value) (count : Nat)
    (fromSelf : Bool) :
    AgreeInCall (invokeOnInstance host receiver cls name count fromSelf)
      (invokeOnInstance host' receiver cls name count fromSelf) := by
  refine .read fun m => ?_
  split
  · exact agree_invokeProperty hsame receiver _ count
  · split
    · exact .refl _
    · refine .after (aside_findMethod cls name).staysInCall fun e? => ?_
      split
      · exact agree_invokeMethod hsame receiver _ count
      · exact .refl _

theorem agree_invoke (name : Value) (count : Nat) (fromSelf : Bool) :
    AgreeInCall (invoke host name count fromSelf) (invoke host' name count fromSelf) := by
  refine .after (aside_peek count).staysInCall fun receiver => ?_
  refine .after (staysInCall_calleeSlot count) fun base => .read fun m => ?_
  split
  · exact agree_invokeOnInstance hsame receiver _ name count fromSelf
  · split
    · split
      · exact agree_callValue hsame _ count
      · exact .refl _
    · split
      · exact .after (staysInCall_setSlot base _) fun _ => agree_callValue hsame _ count
      · refine .after (aside_primitiveMethod receiver name).staysInCall fun e? => ?_
        split
        · exact agree_invokeMethod hsame receiver _ count
        · exact .refl _

theorem agree_invokeSuper (name : Value) (count : Nat) :
    AgreeInCall (invokeSuper host name count) (invokeSuper host' name count) := by
  refine .after onTop_popClass.staysInCall fun superclass => ?_
  refine .after (aside_findMethod superclass name).staysInCall fun e? => ?_
  split
  · exact agree_callValue hsame _ count
  · exact .refl _

theorem agree_superConstructor (count : Nat) :
    AgreeInCall (superConstructor host count) (superConstructor host' count) := by
  refine .after onTop_popClass.staysInCall fun superclass => .read fun m => ?_
  split
  · split
    · exact .after (staysInCall_calleeSlot count) fun base =>
        (agree_runNative hsame _ count).andThen _
    · exact agree_callValue hsame _ count
  · exact .refl _

theorem agree_showField (receiver : Value) (e : Entry) :
    AgreeInCall (showField host receiver e) (showField host' receiver e) := by
  unfold showField
  cases e.kind with
  | value => exact .refl _
  | getter => exact (agree_callValue hsame e.value 0).placing 0 receiver

theorem agree_showMethod (receiver : Value) (e : Entry) :
    AgreeInCall (showMethod host receiver e) (showMethod host' receiver e) := by
  unfold showMethod
  cases e.kind with
  | value => exact .refl _
  | getter => exact agree_showField hsame receiver e

theorem agree_getOnInstance (receiver : Value) (cls : Ref) (name : Value) (fromSelf : Bool) :
    AgreeInCall (getOnInstance host receiver cls name fromSelf)
      (getOnInstance host' receiver cls name fromSelf) := by
  refine .read fun m => ?_
  split
  · exact .refl _
  · split
    · exact agree_showField hsame receiver _
    · refine .after (aside_findMethod cls name).staysInCall fun e? => ?_
      split
      · exact agree_showMethod hsame receiver _
      · exact .refl _

theorem agree_getOnClass (receiver : Value) (c : Class) (name : Value) (fromSelf : Bool) :
    AgreeInCall (getOnClass host receiver c name fromSelf)
      (getOnClass host' receiver c name fromSelf) := by
  refine .read fun m => ?_
  split
  · split
    · exact .refl _
    · exact agree_showField hsame receiver _
  · exact .refl _

theorem agree_getOnPrimitive (receiver name : Value) :
    AgreeInCall (getOnPrimitive host receiver name) (getOnPrimitive host' receiver name) := by
  refine .read fun m => ?_
  split
  · refine .after (aside_primitiveMethod receiver name).staysInCall fun e? => ?_
    split
    · exact agree_showMethod hsame receiver _
    · exact .refl _
  · exact .refl _

theorem agree_getProperty (name : Value) (fromSelf : Bool) :
    AgreeInCall (getProperty host name fromSelf) (getProperty host' name fromSelf) := by
  refine .after (aside_peek 0).staysInCall fun receiver => .read fun m => ?_
  split
  · exact agree_getOnInstance hsame receiver _ name fromSelf
  · split
    · exact agree_getOnClass hsame receiver _ name fromSelf
    · split
      · exact agree_showField hsame receiver _
      · exact agree_getOnPrimitive hsame receiver name

/-! Instructions. -/

theorem agree_execute (start : Nat) (op : Opcode) :
    AgreeInCall (execute host start op) (execute host' start op) := by
  cases op with
  | call =>
    exact .reading onTop_fetchByte fun count =>
      .after (aside_peek _).staysInCall fun v => agree_callValue hsame v _
  | invoke =>
    exact .reading onTop_fetchConstant fun name =>
      .after onTop_fetchByte.staysInCall fun count => agree_invoke hsame name _ false
  | invokeSelf =>
    exact .reading onTop_fetchConstant fun name =>
      .after onTop_fetchByte.staysInCall fun count => agree_invoke hsame name _ true
  | invokeSuper =>
    exact .reading onTop_fetchConstant fun name =>
      .after onTop_fetchByte.staysInCall fun count => agree_invokeSuper hsame name _
  | superConstructor =>
    exact .reading onTop_fetchByte fun count => agree_superConstructor hsame _
  | propertyGet =>
    exact .reading onTop_fetchConstant fun name => agree_getProperty hsame name false
  | propertyGetSelf =>
    exact .reading onTop_fetchConstant fun name => agree_getProperty hsame name true
  | _ => exact .refl _

theorem agree_instruction : AgreeInCall (instruction host) (instruction host') := by
  refine .after aside_frame.staysInCall fun f => ?_
  split
  · exact .refl _
  · refine .after onTop_fetchByte.staysInCall fun byte => ?_
    split
    · exact (agree_execute hsame f.ip _).throwing none
    · exact .refl _

/-- Without a call under way there is no instruction, and no native runs. -/
theorem step_congr (m : Machine) : step host m = step host' m := by
  unfold step
  rw [modify_bind, modify_bind]
  by_cases hframes : m.collectIfDue.frames = []
  · rw [instruction_of_nil host hframes, instruction_of_nil host' hframes]
  · exact agree_instruction hsame m.collectIfDue hframes

theorem runSteps_congr (fuel : Nat) (m : Machine) :
    runSteps host fuel m = runSteps host' fuel m := by
  induction fuel generalizing m with
  | zero => rfl
  | succ fuel ih =>
    unfold runSteps
    rw [step_congr hsame m]
    cases step host' m with
    | ok e? m' =>
      cases e? with
      | none => exact ih m'
      | some e => rfl
    | error s m' => rfl

theorem run_congr (fuel : Nat) (proto : Prototype) (m : Machine) :
    run host fuel proto m = run host' fuel proto m := by
  unfold run
  split
  · rfl
  · cases Validation.check m.heap proto.blob with
    | error f => rfl
    | ok _ => exact runSteps_congr hsame fuel _

end Calls

end Machine

/-! Calls of the host. -/

namespace Heap

/-- The call of a value runs a native of the host at once: the value binds one in the end, or a
class that has one for a constructor. -/
inductive StartsNative (h : Heap) (v : Value) : Prop where
  | native {receiver? : Option Value} {target : Value} {n : NativeFunction} {name : String}
      (hunbind : h.unbind h.linkLimit none v = some (receiver?, target))
      (hcallee : h.callee? target = some (.native n)) (hroutine : n.routine = .host name) :
      StartsNative h v
  | constructor {receiver? : Option Value} {target : Value} {r : Ref} {c : Class}
      {n : NativeFunction} {name : String}
      (hunbind : h.unbind h.linkLimit none v = some (receiver?, target))
      (hcallee : h.callee? target = some (.cls r c))
      (hctor : c.constructor?.bind h.callee? = some (.native n))
      (hroutine : n.routine = .host name) : StartsNative h v

/-- A new instance is no callee. -/
theorem callee?_alloc_inst {h : Heap} {i : Instance} {v : Value} {n : NativeFunction}
    (hcallee : (h.alloc (.inst i)).2.callee? v = some (.native n)) :
    h.callee? v = some (.native n) := by
  unfold callee? at hcallee ⊢
  cases v with
  | ref r =>
    dsimp only at hcallee ⊢
    rcases h.get?_alloc_or (.inst i) r with hnew | hold
    · rw [hnew] at hcallee
      cases hcallee
    · rwa [hold] at hcallee
  | _ => cases hcallee

end Heap

namespace Machine

open World

variable {host host' : Host} {m : Machine}

/-- The constructor of the exceptions is no native of a host. -/
theorem runNative_congr {n : NativeFunction} (hinit : ∀ name, n.routine ≠ .host name)
    (count : Nat) : runNative host n count = runNative host' n count := by
  unfold runNative
  cases hroutine : n.routine with
  | host name => exact absurd hroutine (hinit name)
  | exceptionInit => rfl

theorem construct_congr {c : Class}
    (hctor : ∀ n name, c.constructor?.bind m.heap.callee? = some (.native n) →
      n.routine ≠ .host name) (base : Nat) (this : Value) (count : Nat) :
    construct host c base this count m = construct host' c base this count m := by
  unfold construct
  rw [get_bind, get_bind]
  cases hcallee : c.constructor?.bind m.heap.callee? with
  | none => rfl
  | some callee =>
    cases callee with
    | native n =>
      dsimp only
      rw [runNative_congr (hctor n · hcallee)]
    | _ => rfl

theorem instantiate_congr {r : Ref} {c : Class}
    (hctor : ∀ n name, c.constructor?.bind m.heap.callee? = some (.native n) →
      n.routine ≠ .host name) (count : Nat) :
    instantiate host r c count m = instantiate host' r c count m := by
  unfold instantiate
  by_cases hcount : count < m.stack.size
  · have hslot := calleeSlot_of_lt hcount
    rw [bind_of_ok hslot, bind_of_ok hslot, get_bind, get_bind]
    cases m.heap.initialFields? r with
    | none => rfl
    | some fields =>
      refine construct_congr (fun n name hnative => hctor n name ?_) _ _ count
      obtain ⟨v, hv, hcallee⟩ := Option.bind_eq_some_iff.1 hnative
      exact Option.bind_eq_some_iff.2 ⟨v, hv, Heap.callee?_alloc_inst hcallee⟩
  · have hfull := calleeSlot_of_le (Nat.le_of_not_lt hcount)
    rw [bind_of_error hfull, bind_of_error hfull]

/-- A call that starts no native of the host is the same for all hosts. -/
theorem callValue_congr {v : Value} (hstarts : ¬ m.heap.StartsNative v) (count : Nat) :
    callValue host v count m = callValue host' v count m := by
  have htarget {receiver? : Option Value} {target : Value}
      (hunbind : m.heap.unbind m.heap.linkLimit none v = some (receiver?, target)) {q : Machine}
      (hq : q.heap = m.heap) :
      callTarget host m target count q = callTarget host' m target count q := by
    unfold callTarget
    cases hcallee : m.heap.callee? target with
    | none => rfl
    | some callee =>
      cases callee with
      | native n =>
        dsimp only
        unfold callNative
        rw [runNative_congr fun name hroutine => hstarts (.native hunbind hcallee hroutine)]
      | cls r c =>
        refine instantiate_congr (fun n name hctor hroutine => hstarts ?_) count
        rw [hq] at hctor
        exact .constructor hunbind hcallee hctor hroutine
      | _ => rfl
  unfold callValue
  rw [get_bind, get_bind]
  cases hunbind : m.heap.unbind m.heap.linkLimit none v with
  | none => rfl
  | some found =>
    obtain ⟨receiver?, target⟩ := found
    cases receiver? with
    | none => exact htarget hunbind rfl
    | some receiver =>
      by_cases hcount : count < m.stack.size
      · have hslot := calleeSlot_of_lt hcount
        dsimp only
        rw [bind_of_ok hslot, bind_of_ok hslot]
        exact htarget hunbind rfl
      · have hfull := calleeSlot_of_le (Nat.le_of_not_lt hcount)
        dsimp only
        rw [bind_of_error hfull, bind_of_error hfull]

theorem call_congr (hsame : host.SameInCall host') {callee : Value}
    (hstarts : ¬ m.heap.StartsNative callee) (fuel : Nat) (args : Array Value) :
    call host fuel callee args m = call host' fuel callee args m := by
  let placed : Machine := { m with stack := m.stack.push callee ++ args }
  have hready : ¬ placed.heap.StartsNative callee := hstarts
  have hplaced : callValue host callee args.size placed = callValue host' callee args.size placed :=
    callValue_congr hready args.size
  unfold call throwing
  split
  · rfl
  · dsimp only
    rw [hplaced]
    simp only [runSteps_congr hsame]
    rfl

end Machine

end ScriptMachine
