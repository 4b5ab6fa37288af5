import ScriptMachine.Machine.Session
import ScriptMachine.Proofs.Machine.Births

/-!
Sessions of a host with a machine. Between runs the host makes requests, starts scripts and calls
values; a run is a sequence of instructions; a native that an instruction runs makes requests of its
own. A collection may happen between any two of these. Every reference that the host passes leads to
an occupied slot at that moment.

An account of a session follows the births of the references through every action. Within an action
of the machine nothing is released but by the natives it runs, so an action is a row of stretches
that release nothing, with the run of a native between one and the next.
-/

namespace ScriptMachine

/-- Every reference of a value leads to an occupied slot. -/
def Heap.OccupiedValue (h : Heap) (v : Value) : Prop := ∀ r ∈ v.refs, h.Occupied r

namespace Machine

/-- What a host, or a native, asks of a machine without running anything. -/
inductive Request where
  | alloc (o : Object)
  | intern (text : String)
  | defineGlobal (name : String) (value : Value)
  | defineNative (n : NativeFunction)
  | definePrimitive (p : Primitive) (n : NativeFunction) (kind : EntryKind)
  | makeSwitch (cases : List (Value × Nat)) (default? : Option Nat) (exit : Nat)
  | makeException (kind : ExceptionKind) (message : String)
  | raise (exception : Value)
  | pin (value : Value)
  | unpin (value : Value)
  | redirect (output errors : Sink)
  | installBootstrap (args : List String)

namespace Request

/-- The references passed with a request. -/
def passed : Request → List Ref
  | alloc o => o.refs
  | defineGlobal _ v => v.refs
  | makeSwitch cases _ _ => cases.flatMap fun c => c.1.refs
  | raise e => e.refs
  | pin v => v.refs
  | _ => []

/-- A closure is stored with the function it was made of. -/
def Allowed (h : Heap) : Request → Prop
  | alloc (.closure c) => h.get? c.function = some (.function c.proto)
  | _ => True

def perform (m : Machine) : Request → Machine
  | alloc o => (m.alloc o).2
  | intern text => (m.intern text).2
  | defineGlobal name v => m.defineGlobal name v
  | defineNative n => (m.defineNative n).2
  | definePrimitive p n kind => (m.definePrimitive p n kind).2
  | makeSwitch cases default? exit => (m.makeSwitch cases default? exit).2
  | makeException kind message => (m.makeException kind message).2
  | raise e => { m with raised? := some e }
  | pin v => m.pin v
  | unpin v => (m.unpin v).2
  | redirect output errors => { m with output, errors }
  | installBootstrap args => m.installBootstrap args

/-- Only occupied slots are passed. -/
def Proper (m : Machine) (q : Request) : Prop :=
  q.Allowed m.heap ∧ ∀ r ∈ q.passed, m.heap.Occupied r

end Request

/-- Every reference of a value is a root. -/
def Rooted (m : Machine) (v : Value) : Prop := ∀ r ∈ v.refs, r ∈ m.roots

/-- What requests and collections make of a machine. -/
inductive Served (m : Machine) : Machine → Prop where
  | done : Served m m
  | request {m' : Machine} (hserved : Served m m') (q : Request) (hproper : q.Proper m') :
      Served m (q.perform m')
  | collect {m' : Machine} (hserved : Served m m') : Served m m'.collect.2

end Machine

/-- The natives of the host do nothing but make proper requests and collect, and what they give is
in an occupied slot. They may rely on their receiver and arguments to survive a collection. -/
def Host.Orderly (host : Host) : Prop :=
  ∀ name receiver args (m : Machine), m.Sound → m.Rooted receiver → (∀ v ∈ args, m.Rooted v) →
    m.Served (host name receiver args m).2 ∧
      ∀ v, (host name receiver args m).1 = some v →
        (host name receiver args m).2.heap.OccupiedValue v

namespace Machine

/-! What the machine itself does. -/

/-- The machine after an action, however the action ends. -/
def final {α : Type} : EStateM.Result Signal Machine α → Machine
  | .ok _ m => m
  | .error _ m => m

/-- A machine about to run a script. -/
def entered (m : Machine) (proto : Prototype) : Machine :=
  let (function, heap) := m.heap.alloc (.function proto)
  let (closure, heap) := heap.alloc (.closure { function, proto, upvalues := [] })
  let f : Frame := { closure, proto, base := m.stack.size }
  { m with heap, stack := m.stack.push (.ref closure), frames := f :: m.frames }

/-- An action of the machine. -/
inductive Activity where
  /-- Begins a script. -/
  | enter (proto : Prototype)
  /-- Calls a value, up to its first instruction. -/
  | call (callee : Value) (args : Array Value)
  | instruction
  /-- Ends a call that pushed no frame. -/
  | takeResult
  | reset

namespace Activity

def passed : Activity → List Ref
  | enter proto => proto.blob.constants.toList.flatMap Value.refs
  | call callee args => callee.refs ++ args.toList.flatMap Value.refs
  | _ => []

/-- Scripts and calls begin while nothing runs, and scripts are checked. -/
def Allowed (m : Machine) : Activity → Prop
  | enter proto => m.frames = [] ∧ Validation.check m.heap proto.blob = .ok ()
  | call .. => m.frames = []
  | _ => True

def perform (host : Host) (m : Machine) : Activity → Machine
  | enter proto => m.entered proto
  | call callee args =>
    final (throwing () (callValue host callee args.size)
      { m with stack := m.stack.push callee ++ args })
  | instruction => final (Machine.instruction host m)
  | takeResult => final (Machine.takeResult m)
  | reset => m.reset

def Proper (m : Machine) (a : Activity) : Prop :=
  a.Allowed m ∧ ∀ r ∈ a.passed, m.heap.Occupied r

/-- A script may begin if a text that is held is its only constant. -/
theorem proper_enter_of_text {m : Machine} (hidle : m.frames = []) {blob : Blob}
    (hcheck : Validation.check m.heap blob = .ok ()) {i : Nat}
    (hconstants : blob.constants = #[.ref (.text i)]) {name : String}
    (hname : m.heap.text? (.ref (.text i)) = some name) :
    (enter (.script blob)).Proper m := by
  refine ⟨⟨hidle, hcheck⟩, fun r hr => ?_⟩
  have hpassed : (enter (.script blob)).passed = [.text i] :=
    congrArg (fun vs : Array Value => vs.toList.flatMap Value.refs) hconstants
  rw [hpassed] at hr
  rw [List.mem_singleton.1 hr]
  exact Heap.occupied_of_text? hname

end Activity

/-- The machines that come up in the sessions of a host. -/
inductive Reached (host : Host) (settings : Settings) : Machine → Prop where
  | new : Reached host settings (Machine.new settings)
  | request {m : Machine} (hreached : Reached host settings m) (q : Request)
      (hproper : q.Proper m) : Reached host settings (q.perform m)
  | collect {m : Machine} (hreached : Reached host settings m) :
      Reached host settings m.collect.2
  | act {m : Machine} (hreached : Reached host settings m) (a : Activity) (hproper : a.Proper m) :
      Reached host settings (a.perform host m)

/-! Steps, runs and calls are made of such actions. -/

namespace Reached

variable {host : Host} {settings : Settings} {m : Machine}

theorem step (h : Reached host settings m) : Reached host settings (final (step host m)) := by
  have hdue : Reached host settings m.collectIfDue := by
    unfold collectIfDue
    split
    · exact h.collect
    · exact h
  exact hdue.act .instruction ⟨trivial, nofun⟩

theorem reset (h : Reached host settings m) : Reached host settings m.reset :=
  h.act .reset ⟨trivial, nofun⟩

theorem runSteps (h : Reached host settings m) (fuel : Nat) :
    Reached host settings (runSteps host fuel m).2 := by
  induction fuel generalizing m with
  | zero => exact h
  | succ fuel ih =>
    have hstep := h.step
    unfold Machine.runSteps
    cases hresult : Machine.step host m with
    | ok ending? m' =>
      rw [hresult] at hstep
      cases ending? with
      | none => exact ih hstep
      | some e => exact hstep
    | error s m' =>
      rw [hresult] at hstep
      exact hstep.reset

theorem run (h : Reached host settings m) (fuel : Nat) {proto : Prototype}
    (hconstants : ∀ v ∈ proto.blob.constants, m.heap.OccupiedValue v) :
    Reached host settings (run host fuel proto m).2 := by
  unfold Machine.run
  split
  · exact h
  · rename_i hframes
    have hidle : m.frames = [] := by simpa using hframes
    cases hcheck : Validation.check m.heap proto.blob with
    | error f => exact h
    | ok _ =>
      have hpassed : ∀ r ∈ (Activity.enter proto).passed, m.heap.Occupied r := by
        intro r hr
        obtain ⟨v, hv, hmem⟩ := List.mem_flatMap.1 hr
        exact hconstants v (Array.mem_toList_iff.1 hv) r hmem
      exact (h.act (.enter proto) ⟨⟨hidle, hcheck⟩, hpassed⟩).runSteps fuel

theorem call (h : Reached host settings m) (fuel : Nat) {callee : Value} {args : Array Value}
    (hcallee : m.heap.OccupiedValue callee) (hargs : ∀ v ∈ args, m.heap.OccupiedValue v) :
    Reached host settings (call host fuel callee args m).2 := by
  unfold Machine.call
  split
  · exact h
  · rename_i hframes
    have hidle : m.frames = [] := by simpa using hframes
    have hpassed : ∀ r ∈ (Activity.call callee args).passed, m.heap.Occupied r := by
      intro r hr
      rcases List.mem_append.1 hr with hmem | hmem
      · exact hcallee r hmem
      · obtain ⟨v, hv, hmem⟩ := List.mem_flatMap.1 hmem
        exact hargs v (Array.mem_toList_iff.1 hv) r hmem
    have hcalled := h.act (.call callee args) ⟨hidle, hpassed⟩
    unfold Activity.perform at hcalled
    dsimp only at hcalled ⊢
    cases hresult : throwing () (callValue host callee args.size)
        { m with stack := m.stack.push callee ++ args } with
    | error s m' =>
      rw [hresult] at hcalled
      exact hcalled.reset
    | ok _ m' =>
      rw [hresult] at hcalled
      dsimp only
      split
      · have htaken := hcalled.act .takeResult ⟨trivial, nofun⟩
        unfold Activity.perform at htaken
        dsimp only [final] at htaken
        cases htake : Machine.takeResult m' with
        | ok v m'' =>
          rw [htake] at htaken
          exact htaken
        | error s m'' =>
          rw [htake] at htaken
          exact htaken.reset
      · exact hcalled.runSteps fuel

end Reached

/-! Accounts. -/

/-- A run of a native with the births it goes through; the machine is live after each request and
collection. -/
inductive Serving (m : Machine) (g : Births) : Machine → Births → Prop where
  | done : Serving m g m g
  | request {m' : Machine} {g' : Births} (hserving : Serving m g m' g') (q : Request)
      (hproper : q.Proper m') {created : List Ref}
      (hgrows : m'.heap.Grows created (q.perform m').heap)
      (hlive : Live (q.perform m') (g'.after m' (created ++ q.passed) (q.perform m'))) :
      Serving m g (q.perform m') (g'.after m' (created ++ q.passed) (q.perform m'))
  | collect {m' : Machine} {g' : Births} (hserving : Serving m g m' g')
      (hlive : Live m'.collect.2 (g'.after m' [] m'.collect.2)) :
      Serving m g m'.collect.2 (g'.after m' [] m'.collect.2)

/-- The beginning of a stretch of work that releases nothing, with the references passed to it. -/
structure Stretch where
  start : Machine
  births : Births
  passed : List Ref

/-- The births at a point of a stretch. -/
def Stretch.at (σ : Stretch) (created : List Ref) (m : Machine) : Births :=
  σ.births.after σ.start (created ++ σ.passed) m

/-- The stretches of one action. A native runs at the end of a stretch, on references that are
roots, and the next stretch begins with the value it gives. -/
inductive Stretch.Through (host : Host) (σ : Stretch) : Stretch → Prop where
  | refl : Through host σ σ
  | native {τ : Stretch} (hthrough : Through host σ τ) {created : List Ref} {m m' : Machine}
      {g : Births} {name : String} {receiver : Value} {args : Array Value} {result : Option Value}
      (hgrows : τ.start.heap.Grows created m.heap) (hlive : Live m (τ.at created m))
      (hreceiver : m.Rooted receiver) (hargs : ∀ v ∈ args, m.Rooted v)
      (hnative : host name receiver args m = (result, m'))
      (hserving : Serving m (τ.at created m) m' g) :
      Through host σ ⟨m', g, (result.map Value.refs).getD []⟩

/-- An account of a session: the births that lead to a machine, which is live after each action. -/
inductive Accounted (host : Host) (settings : Settings) : Machine → Births → Prop where
  | new (hlive : Live (Machine.new settings) (.initial (Machine.new settings))) :
      Accounted host settings (Machine.new settings) (.initial (Machine.new settings))
  | request {m : Machine} {g : Births} (haccounted : Accounted host settings m g) (q : Request)
      (hproper : q.Proper m) {created : List Ref}
      (hgrows : m.heap.Grows created (q.perform m).heap)
      (hlive : Live (q.perform m) (g.after m (created ++ q.passed) (q.perform m))) :
      Accounted host settings (q.perform m) (g.after m (created ++ q.passed) (q.perform m))
  | collect {m : Machine} {g : Births} (haccounted : Accounted host settings m g)
      (hlive : Live m.collect.2 (g.after m [] m.collect.2)) :
      Accounted host settings m.collect.2 (g.after m [] m.collect.2)
  | act {m : Machine} {g : Births} (haccounted : Accounted host settings m g) (a : Activity)
      (hproper : a.Proper m) {τ : Stretch} (hthrough : Stretch.Through host ⟨m, g, a.passed⟩ τ)
      {created : List Ref} (hgrows : τ.start.heap.Grows created (a.perform host m).heap)
      (hlive : Live (a.perform host m) (τ.at created (a.perform host m))) :
      Accounted host settings (a.perform host m) (τ.at created (a.perform host m))

end Machine

end ScriptMachine
