import ScriptMachine.Machine.Step
import ScriptMachine.Validation

/-!
What the host does with a machine: makes it, defines globals and natives, runs scripts and calls
values. Between two runs nothing is on the stack and no call is under way.

A run is a sequence of steps. It takes a bound on their number, and a run that needs more is
unfinished.
-/

namespace ScriptMachine

/-- The outcome of a run or a call. -/
inductive Verdict where
  | ended (e : Ending)
  | failed (f : Fault)
  /-- No outcome within the bound. -/
  | unfinished
  /-- The machine broke down. -/
  | crashed

def Verdict.ofSignal : Signal → Verdict
  | .fault f => .failed f
  | .raised _ => .crashed
  | .endless => .unfinished
  | .crash => .crashed

namespace Machine

/-! Making a machine. -/

/-- Allocates one object for each element of a list. -/
def allocEach {α : Type} (m : Machine) (make : α → Object) : List α → List (α × Ref) × Machine
  | [] => ([], m)
  | a :: rest =>
    let (r, heap) := m.heap.alloc (make a)
    let (refs, m) := { m with heap }.allocEach make rest
    ((a, r) :: refs, m)

/-- The reference stored for an element. -/
def refOf {α : Type} [BEq α] (refs : List (α × Ref)) (a : α) : Ref := (refs.lookup a).getD default

/-- Allocates the class of each exception and binds it to its name. All but the first have the
first as superclass. -/
def installExceptions (m : Machine) (init : Value) (root : Option Ref) :
    List ExceptionKind → List (ExceptionKind × Ref) × Machine
  | [] => ([], m)
  | kind :: rest =>
    let cls : Class := { name := kind.name, superclass := root, constructor? := some init }
    let (r, heap) := m.heap.alloc (.cls cls)
    let m := { m with heap }.defineGlobal kind.name (.ref r)
    let (refs, m) := m.installExceptions init (root <|> some r) rest
    ((kind, r) :: refs, m)

/-- A machine with only what the machine itself needs. -/
def new (settings : Settings := {}) : Machine :=
  let heap := Heap.new settings.gcInitialThreshold settings.gcGrowthFactor settings.stressGc
  let (message, heap) := heap.intern "message"
  let (stacktrace, heap) := heap.intern "stacktrace"
  let builtins : Builtins := { (default : Builtins) with message, stacktrace }
  let m : Machine := { settings, heap, builtins }
  let (primitives, m) := m.allocEach (fun p => .cls { name := p.name }) Primitive.all
  let init : NativeFunction := { name := "init", arity := none, routine := .exceptionInit }
  let (init, m) := m.alloc (.native init)
  let (exceptions, m) := m.installExceptions init none ExceptionKind.all
  { m with
    builtins := { builtins with primitive := refOf primitives, exception := refOf exceptions } }

/-! Definitions of the host. -/

def makeFunction (m : Machine) (proto : Prototype) : Value × Machine := m.alloc (.function proto)

/-- Binds a native to a global of the same name. -/
def defineNative (m : Machine) (n : NativeFunction) : Value × Machine :=
  let (v, m) := m.alloc (.native n)
  (v, m.defineGlobal n.name v)

/-- Gives the class of a primitive a native method or getter. -/
def definePrimitive (m : Machine) (p : Primitive) (n : NativeFunction) (kind : EntryKind) :
    Value × Machine :=
  let (key, m) := m.intern n.name
  let (v, m) := m.alloc (.native n)
  let pool := m.heap.pool
  (v, m.update (m.builtins.primitive p) fun
    | .cls c => .cls { c with methods := (c.methods.insert pool key v kind).2 }
    | o => o)

/-- A switch table of case values and distances. -/
def makeSwitch (m : Machine) (cases : List (Value × Nat)) (default? : Option Nat) (exit : Nat) :
    Value × Machine :=
  let table := cases.foldl (fun (t : Table) c =>
    t.set m.heap.pool c.1 (.number (Float.ofNat c.2))) {}
  m.alloc (.switch { cases := table, default?, exit })

/-- Binds the program arguments to `ARGV` and the standard streams to their names. -/
def installBootstrap (m : Machine) (args : List String) : Machine :=
  let (items, m) := m.internAll args
  let (argv, m) := m.alloc (.array items.toArray)
  let m := m.defineGlobal "ARGV" argv
  ["STDIN", "STDOUT", "STDERR"].foldl
    (fun m stream =>
      let (handle, m) := m.intern stream.toLower
      m.defineGlobal stream handle)
    m

/-! Running. -/

/-- Takes steps until the run ends, at most `fuel` of them. -/
def runSteps (host : Host) : (fuel : Nat) → Machine → Verdict × Machine
  | 0, m => (.unfinished, m)
  | fuel + 1, m =>
    match step host m with
    | .ok none m => runSteps host fuel m
    | .ok (some e) m => (.ended e, m)
    | .error s m => (Verdict.ofSignal s, m.reset)

/-- Runs a function as a script, after checking it. -/
def run (host : Host) (fuel : Nat) (proto : Prototype) (m : Machine) : Verdict × Machine :=
  if !m.frames.isEmpty then (.failed (.internal .runWhileRunning), m)
  else
    match Validation.check m.heap proto.blob with
    | .error f => (.failed f, m)
    | .ok () =>
      let (function, heap) := m.heap.alloc (.function proto)
      let (closure, heap) := heap.alloc (.closure { function, proto, upvalues := [] })
      let f : Frame := { closure, proto, base := m.stack.size }
      runSteps host fuel
        { m with heap, stack := m.stack.push (.ref closure), frames := f :: m.frames }

/-- Takes the result of a call that pushed no frame. -/
def takeResult : Exec Value := do
  let v ← pop
  modify fun m => { m with stack := #[] }
  return v

/-- Calls a value. -/
def call (host : Host) (fuel : Nat) (callee : Value) (args : Array Value) (m : Machine) :
    Verdict × Machine :=
  if !m.frames.isEmpty then (.failed (.internal .callWhileRunning), m)
  else
    let m := { m with stack := m.stack.push callee ++ args }
    match throwing () (callValue host callee args.size) m with
    | .error s m => (Verdict.ofSignal s, m.reset)
    | .ok () m =>
      if m.frames.isEmpty then
        match takeResult m with
        | .ok v m => (.ended (.returned v), m)
        | .error s m => (Verdict.ofSignal s, m.reset)
      else runSteps host fuel m

end Machine

/-- What a native may ask of the machine that runs it. -/
structure Reentry where
  call : Value → Array Value → StateM Machine Verdict
  run : Prototype → StateM Machine Verdict

/-- Refuses while a script runs, and otherwise has no outcome. -/
def Reentry.closed : Reentry where
  call _ _ m := (if m.frames.isEmpty then .unfinished else .failed (.internal .callWhileRunning), m)
  run _ m := (if m.frames.isEmpty then .unfinished else .failed (.internal .runWhileRunning), m)

/-- A host whose natives may call the machine again. -/
abbrev ReentrantHost := Reentry → Host

namespace ReentrantHost

/-- The natives of a host with at most `depth` calls of the machine inside one another. -/
def natives (host : ReentrantHost) (fuel : Nat) : (depth : Nat) → Host
  | 0 => host .closed
  | depth + 1 =>
    let inner := natives host fuel depth
    host { call := Machine.call inner fuel, run := Machine.run inner fuel }

/-- Runs a function as a script. -/
def run (host : ReentrantHost) (fuel : Nat) (proto : Prototype) : StateM Machine Verdict :=
  Machine.run (host.natives fuel 1) fuel proto

/-- Calls a value. A native that calls the machine again passes on fewer arguments than it has, so
their number bounds the calls inside one another. -/
def call (host : ReentrantHost) (fuel : Nat) (callee : Value) (args : Array Value) :
    StateM Machine Verdict :=
  Machine.call (host.natives fuel (args.size + 1)) fuel callee args

end ReentrantHost

end ScriptMachine
