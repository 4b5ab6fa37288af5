import ScriptMachine.Machine.Step
import ScriptMachine.Proofs.Machine.Judgement

/-!
Quiet changes. Most of what an instruction does leaves the calls, the regions and the completions
alone: it works on the stack, the globals and the heap, and it may run natives of the host. Such a
change is a row of small ones, and what holds of a machine through each of them holds through the
whole instruction. Functions, closures and switch tables are neither made nor changed on the way.

An action is mild if it ends in a quiet change and, when it ends with a signal, does not blame the
instruction stream. An action that calls may have pushed one frame of a closure besides.
-/

namespace ScriptMachine

/-- Functions, closures and switch tables stay as they were made. -/
def Object.isFixed : Object → Bool
  | function _ => true
  | closure _ => true
  | switch _ => true
  | _ => false

/-- Whether a signal finds fault with the instruction stream or with one of its constants. -/
def Signal.blamesCode : Signal → Bool
  | .fault (.malformed _ _) => true
  | .fault (.internal .switchOperand) => true
  | .fault (.internal .closureOperand) => true
  | _ => false

namespace Machine

/-- What a machine becomes without its calls, regions and completions being touched, but by
natives. -/
inductive Quiet (host : Host) (m : Machine) : Machine → Prop where
  | refl : Quiet host m m
  | stack {m' : Machine} (hquiet : Quiet host m m') (stack : Array Value) :
      Quiet host m { m' with stack }
  | globals {m' : Machine} (hquiet : Quiet host m m') (globals : Table) :
      Quiet host m { m' with globals }
  | output {m' : Machine} (hquiet : Quiet host m m') (output : Sink) :
      Quiet host m { m' with output }
  | alloc {m' : Machine} (hquiet : Quiet host m m') (o : Object) (hfixed : o.isFixed = false) :
      Quiet host m (m'.alloc o).2
  | intern {m' : Machine} (hquiet : Quiet host m m') (text : String) :
      Quiet host m (m'.intern text).2
  | update {m' : Machine} (hquiet : Quiet host m m') (r : Ref) (f : Object → Object)
      (hfixed : ∀ o, m'.heap.get? r = some o →
        f o = o ∨ o.isFixed = false ∧ (f o).isFixed = false) :
      Quiet host m (m'.update r f)
  /-- Variables are captured by a running call only. -/
  | capture {m' : Machine} (hquiet : Quiet host m m') (slot : Nat) (hframes : m'.frames ≠ []) :
      Quiet host m (m'.captureSlot slot).2
  | close {m' : Machine} (hquiet : Quiet host m m') (start : Nat) :
      Quiet host m (m'.closeUpvalues start)
  /-- A native of the host has given a value. -/
  | gave {m' m'' : Machine} (hquiet : Quiet host m m') {name : String} {receiver v : Value}
      {args : Array Value} (hnative : host name receiver args m' = (some v, m'')) :
      Quiet host m m''
  /-- A native of the host has given nothing, and what it raised is taken. -/
  | raised {m' m'' : Machine} (hquiet : Quiet host m m') {name : String} {receiver : Value}
      {args : Array Value} (hnative : host name receiver args m' = (none, m'')) :
      Quiet host m { m'' with raised? := none }

/-- The arguments of a call are bound: the stack changes, and surplus arguments become an array. -/
inductive Binds (m : Machine) : Machine → Prop where
  | plain (stack : Array Value) : Binds m { m with stack }
  | gathered (items stack : Array Value) : Binds m { (m.alloc (.array items)).2 with stack }

/-- After a quiet change, a frame of a closure was pushed that begins at a stack slot; there was
room for one more. -/
def Called (host : Host) (base : Nat) (m m' : Machine) : Prop :=
  ∃ (q q' : Machine) (r : Ref) (c : Closure),
    Quiet host m q ∧ q.frames.length < q.settings.maxFrames ∧
      q.heap.get? r = some (.closure c) ∧ q.Binds q' ∧
      m' = { q' with frames := { closure := r, proto := c.proto, base } :: q'.frames }

section Actions

variable {α β : Type} {host : Host} {m m' : Machine}

theorem Quiet.trans {m'' : Machine} (h : Quiet host m m') (h' : Quiet host m' m'') :
    Quiet host m m'' := by
  induction h' with
  | refl => exact h
  | stack _ stack ih => exact ih.stack stack
  | globals _ globals ih => exact ih.globals globals
  | output _ output ih => exact ih.output output
  | alloc _ o hfixed ih => exact ih.alloc o hfixed
  | intern _ text ih => exact ih.intern text
  | update _ r f hfixed ih => exact ih.update r f hfixed
  | capture _ slot hframes ih => exact ih.capture slot hframes
  | close _ start ih => exact ih.close start
  | gave _ hnative ih => exact ih.gave hnative
  | raised _ hnative ih => exact ih.raised hnative

theorem Binds.quiet (h : m.Binds m') : Quiet host m m' := by
  cases h with
  | plain stack => exact .stack .refl stack
  | gathered items stack => exact .stack (.alloc .refl _ rfl) stack

theorem Called.exists_quiet {base : Nat} (h : Called host base m m') :
    ∃ q r proto, Quiet host m q ∧
      m' = { q with frames := { closure := r, proto, base } :: q.frames } := by
  obtain ⟨q, q', r, c, hquiet, -, -, hbinds, rfl⟩ := h
  exact ⟨q', r, c.proto, hquiet.trans hbinds.quiet, rfl⟩

theorem Quiet.called {base : Nat} {m'' : Machine} (h : Quiet host m m')
    (h' : Called host base m' m'') : Called host base m m'' := by
  obtain ⟨q, q', r, c, hquiet, hrest⟩ := h'
  exact ⟨q, q', r, c, h.trans hquiet, hrest⟩

/-- The result of an action after a quiet change. -/
def Calm (host : Host) (m : Machine) : EStateM.Result Signal Machine α → Prop
  | .ok _ m' => Quiet host m m'
  | .error s m' => Quiet host m m' ∧ s.blamesCode = false

/-- The result of an action that may have pushed a frame. -/
def Calls (host : Host) (m : Machine) : EStateM.Result Signal Machine α → Prop
  | .ok _ m' => Quiet host m m' ∨ ∃ base, Called host base m m'
  | .error s m' => Quiet host m m' ∧ s.blamesCode = false

/-- An action that is mild when it starts in this machine. -/
def MildAt (host : Host) (m : Machine) (x : Exec α) : Prop := Calm host m (x m)

def MayCallAt (host : Host) (m : Machine) (x : Exec α) : Prop := Calls host m (x m)

def Mild (host : Host) (x : Exec α) : Prop := ∀ m, MildAt host m x

def MayCall (host : Host) (x : Exec α) : Prop := ∀ m, MayCallAt host m x

theorem Calm.calls {e : EStateM.Result Signal Machine α} (h : Calm host m e) : Calls host m e := by
  cases e with
  | ok a m' => exact Or.inl h
  | error s m' => exact h

theorem Mild.mayCall {x : Exec α} (h : Mild host x) : MayCall host x := fun m => (h m).calls

theorem Calm.after {e : EStateM.Result Signal Machine α} (hquiet : Quiet host m m')
    (h : Calm host m' e) : Calm host m e := by
  cases e with
  | ok a m'' => exact hquiet.trans h
  | error s m'' => exact ⟨hquiet.trans h.1, h.2⟩

theorem Calls.after {e : EStateM.Result Signal Machine α} (hquiet : Quiet host m m')
    (h : Calls host m' e) : Calls host m e := by
  cases e with
  | ok a m'' =>
    rcases h with hq | ⟨base, hcalled⟩
    · exact Or.inl (hquiet.trans hq)
    · exact Or.inr ⟨base, hquiet.called hcalled⟩
  | error s m'' => exact ⟨hquiet.trans h.1, h.2⟩

/-! Sequences. -/

theorem Calm.bind {x : Exec α} {f : α → Exec β} (hx : Calm host m (x m))
    (hf : ∀ a m', x m = .ok a m' → Calm host m' (f a m')) : Calm host m ((x >>= f) m) := by
  cases hres : x m with
  | ok a m' =>
    rw [hres] at hx
    rw [bind_of_ok hres]
    exact (hf a m' hres).after hx
  | error s m' =>
    rw [hres] at hx
    rw [bind_of_error hres]
    exact hx

theorem Calm.bindCalls {x : Exec α} {f : α → Exec β} (hx : Calm host m (x m))
    (hf : ∀ a m', x m = .ok a m' → Calls host m' (f a m')) : Calls host m ((x >>= f) m) := by
  cases hres : x m with
  | ok a m' =>
    rw [hres] at hx
    rw [bind_of_ok hres]
    exact (hf a m' hres).after hx
  | error s m' =>
    rw [hres] at hx
    rw [bind_of_error hres]
    exact hx

theorem Mild.bind {x : Exec α} {f : α → Exec β} (hx : Mild host x) (hf : ∀ a, Mild host (f a)) :
    Mild host (x >>= f) := fun m => (hx m).bind fun a m' _ => hf a m'

theorem Mild.thenCall {x : Exec α} {f : α → Exec β} (hx : Mild host x)
    (hf : ∀ a, MayCall host (f a)) : MayCall host (x >>= f) :=
  fun m => (hx m).bindCalls fun a m' _ => hf a m'

/-- The machine that was read is the one the action goes on from. -/
theorem mild_get {f : Machine → Exec α} (hf : ∀ m, MildAt host m (f m)) : Mild host (get >>= f) :=
  hf

theorem mild_read {f : Machine → Exec α} (hf : ∀ m, Mild host (f m)) : Mild host (get >>= f) :=
  fun m => hf m m

theorem mayCall_read {f : Machine → Exec α} (hf : ∀ m, MayCall host (f m)) :
    MayCall host (get >>= f) := fun m => hf m m

/-! Single actions. -/

theorem mild_pure (a : α) : Mild host (pure a) := fun _ => .refl

theorem mild_throw {s : Signal} (hs : s.blamesCode = false) : Mild host (throw s : Exec α) :=
  fun _ => ⟨.refl, hs⟩

theorem mildAt_set {q : Machine} (hquiet : Quiet host m q) : MildAt host m (set q : Exec Unit) :=
  hquiet

theorem MildAt.bind {x : Exec α} {f : α → Exec β} (hx : MildAt host m x)
    (hf : ∀ a, Mild host (f a)) : MildAt host m (x >>= f) := Calm.bind hx fun a m' _ => hf a m'

theorem mild_modify {g : Machine → Machine} (hg : ∀ m, Quiet host m (g m)) :
    Mild host (modify g : Exec Unit) := hg

theorem mild_modifyGet {g : Machine → α × Machine} (hg : ∀ m, Quiet host m (g m).2) :
    Mild host (modifyGet g : Exec α) := hg

theorem mild_breach {b : Breach} (hb : (Signal.fault (.internal b)).blamesCode = false) :
    Mild host (breach b : Exec α) := mild_throw hb

/-! Heap. -/

theorem quiet_setField (m : Machine) (target key value : Value) :
    Quiet host m (m.setField target key value) := by
  unfold setField
  split
  · refine .update .refl _ _ ?_
    intro o _
    cases o with
    | inst i => exact Or.inr ⟨rfl, rfl⟩
    | _ => exact Or.inl rfl
  · exact .refl

theorem quiet_makeException (m : Machine) (kind : ExceptionKind) (message : String) :
    Quiet host m (m.makeException kind message).2 := by
  let made := m.alloc (.inst { cls := m.builtins.exception kind })
  let named := made.2.intern message
  have hnamed : Quiet host m named.2 := .intern (.alloc .refl _ rfl) message
  exact hnamed.trans (quiet_setField named.2 made.1 (.ref named.2.builtins.message) named.1)

theorem mild_misuse (what : Misuse) : Mild host (misuse what : Exec α) :=
  (mild_modifyGet fun m => quiet_makeException m _ _).bind fun _ => mild_throw rfl

theorem mild_settle (s : Search α) : Mild host (settle s) := by
  cases s with
  | found a => exact mild_pure _
  | absent => exact mild_pure _
  | endless => exact mild_throw rfl

/-! Stack. -/

theorem mild_push (v : Value) : Mild host (push v) := mild_modify fun _ => .stack .refl _

theorem mild_setSlot (slot : Nat) (v : Value) : Mild host (setSlot slot v) :=
  mild_modify fun _ => .stack .refl _

/-- What was just made is pushed. -/
theorem mild_pushNew {g : Machine → Value × Machine} (hg : ∀ m, Quiet host m (g m).2) :
    Mild host (do push (← modifyGet g)) := (mild_modifyGet hg).bind fun v => mild_push v

theorem mild_pop : Mild host pop := by
  refine mild_get fun m => ?_
  split
  · exact (mildAt_set (.stack .refl _)).bind fun _ => mild_pure _
  · exact mild_breach rfl m

theorem mild_peek (distance : Nat) : Mild host (peek distance) := by
  refine mild_read fun m => ?_
  split
  · exact mild_pure _
  · exact mild_breach rfl

theorem mild_drop (count : Nat) : Mild host (drop count) := by
  refine mild_get fun m => ?_
  split
  · exact mildAt_set (.stack .refl _)
  · exact mild_breach rfl m

theorem mild_setTop (v : Value) : Mild host (setTop v) := by
  refine mild_get fun m => ?_
  split
  · exact mild_breach rfl m
  · exact mildAt_set (.stack .refl _)

theorem mild_takeTop (count : Nat) : Mild host (takeTop count) := by
  refine mild_get fun m => ?_
  split
  · exact (mildAt_set (.stack .refl _)).bind fun _ => mild_pure _
  · exact mild_breach rfl m

theorem mild_calleeSlot (count : Nat) : Mild host (calleeSlot count) := by
  refine mild_read fun m => ?_
  split
  · exact mild_pure _
  · exact mild_breach rfl

/-! Frames. -/

theorem mild_frame : Mild host frame := by
  refine mild_read fun m => ?_
  split
  · exact mild_pure _
  · exact mild_breach rfl

theorem mild_localSlot (slot : Nat) : Mild host (localSlot slot) := by
  refine mild_frame.bind fun f => mild_read fun m => ?_
  split
  · exact mild_pure _
  · exact mild_breach rfl

end Actions

end Machine

end ScriptMachine
