import ScriptMachine.Ancestry
import ScriptMachine.Exception
import ScriptMachine.Fault
import ScriptMachine.Render
import ScriptMachine.Settings

/-!
The state of a machine and its smallest actions. A machine has a stack of values, the frames of
the calls under way, the try regions entered and the completions of finally blocks that are
running, each with the newest first; and between runs it keeps its globals and its heap.

An action either gives a result, or ends with a signal: a fault that ends the run, an exception
that was raised and now looks for a handler, or no result at all.
-/

namespace ScriptMachine

/-- The kinds of values with a class that the host can extend. -/
inductive Primitive where
  | number
  | text
  | array
  | dict
  | range
  | function
deriving DecidableEq, Repr

namespace Primitive

def all : List Primitive := [number, text, array, dict, range, function]

/-- The name of the class. -/
def name : Primitive → String
  | number => "Number"
  | text => "String"
  | array => "Array"
  | dict => "Dict"
  | range => "Range"
  | function => "Function"

def ofName? (name : String) : Option Primitive := all.find? fun p => p.name == name

end Primitive

/-- A call under way. -/
structure Frame where
  closure : Ref
  proto : Prototype
  /-- The offset of the next byte to read. -/
  ip : Nat := 0
  /-- The stack slot of the callee or receiver. -/
  base : Nat

/-- The source line of the instruction that ran last. -/
def Frame.currentLine (f : Frame) : Nat := f.proto.lineBefore f.ip

/-- A try region that was entered and not yet left. -/
structure Region where
  handler? : Option Nat
  finally? : Option Nat
  /-- The class that the handler takes; without one it takes everything. -/
  filter? : Option Ref
  stackDepth : Nat
  frameDepth : Nat
deriving DecidableEq, Repr

/-- What happens at the end of a finally block. -/
inductive Completion where
  /-- Go on at an offset. -/
  | resume (offset : Nat)
  /-- Push the exception and enter the handler. -/
  | handle (handler : Nat) (exception : Value)
  /-- Look for the next handler of the exception. -/
  | rethrow (exception : Value)
  /-- Return the value from the function. -/
  | giveBack (value : Value)
deriving DecidableEq

/-- The value a completion keeps. -/
def Completion.value? : Completion → Option Value
  | resume _ => none
  | handle _ e => some e
  | rethrow e => some e
  | giveBack v => some v

/-- A completion whose finally block is running. -/
structure Pending where
  /-- How many regions were left when the block began. -/
  tryDepth : Nat
  frameDepth : Nat
  completion : Completion
deriving DecidableEq

/-- How a writer takes a text. -/
inductive Reception where
  | whole
  /-- The write fails, after a part of the text or none. -/
  | broken (part reason : String)
deriving Inhabited

/-- How a writer takes the next text, given those it was handed before, the newest first. -/
abbrev Writer := List String → String → Reception

/-- Where text is written to. -/
structure Sink where
  written : String := ""
  /-- A sink that is closed fails on every write, with this reason. -/
  failure? : Option String := none
  /-- The texts handed to the writer so far, the newest first. -/
  handed : List String := []
  /-- A sink that is not closed fails on the writes on which its writer does. -/
  writer : Writer := fun _ _ => .whole
deriving Inhabited

/-- Writes a text. A write that fails gives its reason; what it wrote of the text stays. -/
def Sink.write (s : Sink) (text : String) : Option String × Sink :=
  match s.failure? with
  | some reason => (some reason, s)
  | none =>
    let handed := text :: s.handed
    match s.writer s.handed text with
    | .whole => (none, { s with written := s.written ++ text, handed })
    | .broken part reason => (some reason, { s with written := s.written ++ part, handed })

/-- What the machine itself refers to. -/
structure Builtins where
  message : Ref
  stacktrace : Ref
  primitive : Primitive → Ref
  exception : ExceptionKind → Ref

instance : Inhabited Builtins := ⟨⟨default, default, fun _ => default, fun _ => default⟩⟩

/-- One machine. -/
structure Machine where
  settings : Settings := {}
  heap : Heap
  stack : Array Value := #[]
  /-- The calls under way, the innermost first. -/
  frames : List Frame := []
  globals : Table := {}
  /-- The cells of captured variables still on the stack, the highest slot first. -/
  openUpvalues : List Ref := []
  /-- The try regions entered, the innermost first. -/
  regions : List Region := []
  /-- The completions of running finally blocks, the newest first. -/
  completions : List Pending := []
  /-- The exception a native has raised and its caller has not yet taken. -/
  raised? : Option Value := none
  builtins : Builtins
  pinned : Array Value := #[]
  output : Sink := {}
  errors : Sink := {}
deriving Inhabited

/-- How an action ends without a result. -/
inductive Signal where
  /-- The run ends. -/
  | fault (f : Fault)
  /-- An exception looks for its handler. -/
  | raised (exception : Value)
  /-- The action never ends. -/
  | endless
  /-- The action leaves the stack, and the machine with it. -/
  | crash

/-- An action on a machine. -/
abbrev Exec := EStateM Signal Machine

/-- What a native does: it gives a value, or nothing after raising an exception. -/
abbrev Native := Value → Array Value → StateM Machine (Option Value)

/-- The natives of the host, by name. -/
abbrev Host := String → Native

namespace Machine

/-! Heap. -/

def alloc (m : Machine) (o : Object) : Value × Machine :=
  let (r, heap) := m.heap.alloc o
  (.ref r, { m with heap })

def intern (m : Machine) (text : String) : Value × Machine :=
  let (r, heap) := m.heap.intern text
  (.ref r, { m with heap })

def update (m : Machine) (r : Ref) (f : Object → Object) : Machine :=
  { m with heap := m.heap.update r f }

def render (m : Machine) (v : Value) : String := m.heap.render v

def typeName (m : Machine) (v : Value) : String := m.heap.typeName v

/-- The text of a name. -/
def nameText (m : Machine) (name : Value) : String := (m.heap.text? name).getD "?"

/-- Stores a field of an instance; on any other value it does nothing. -/
def setField (m : Machine) (target : Value) (key value : Value) : Machine :=
  match target with
  | .ref r =>
    let pool := m.heap.pool
    m.update r fun
      | .inst i => .inst { i with fields := i.fields.set pool key value }
      | o => o
  | _ => m

/-- A field of an instance. -/
def field? (m : Machine) (target key : Value) : Option Value :=
  match m.heap.object? target with
  | some (.inst i) => i.fields.get? m.heap.pool key
  | _ => none

/-- A new exception of a built-in class. -/
def makeException (m : Machine) (kind : ExceptionKind) (message : String) : Value × Machine :=
  let (e, m) := m.alloc (.inst { cls := m.builtins.exception kind })
  let (text, m) := m.intern message
  (e, m.setField e (.ref m.builtins.message) text)

/-- Binds a global. -/
def defineGlobal (m : Machine) (name : String) (value : Value) : Machine :=
  let (key, m) := m.intern name
  { m with globals := m.globals.set m.heap.pool key value }

/-- The value of a global. -/
def global? (m : Machine) (name : String) : Option Value :=
  (m.globals.entryOfText? m.heap.pool name).map Entry.value

/-! Signals. -/

def fault {α : Type} (f : Fault) : Exec α := throw (.fault f)

def breach {α : Type} (b : Breach) : Exec α := fault (.internal b)

def malformed {α : Type} (offset : Nat) (d : Defect) : Exec α := fault (.malformed offset d)

/-- Raises the exception of a misuse. -/
def misuse {α : Type} (what : Misuse) : Exec α := do
  let e ← modifyGet fun m => m.makeException what.kind what.message
  throw (.raised e)

/-- The result of a search, or an endless action. -/
def settle {α : Type} : Search α → Exec (Option α)
  | .found a => pure (some a)
  | .absent => pure none
  | .endless => throw .endless

/-! Stack. -/

def push (v : Value) : Exec Unit := modify fun m => { m with stack := m.stack.push v }

def pop : Exec Value := do
  let m ← get
  match m.stack.back? with
  | some v =>
    set { m with stack := m.stack.pop }
    return v
  | none => breach .stackUnderflow

/-- The value a given distance below the top. -/
def peek (distance : Nat) : Exec Value := do
  let m ← get
  if distance < m.stack.size then return m.stack.getD (m.stack.size - (distance + 1)) .nil
  else breach .stackUnderflow

/-- Drops values from the top. -/
def drop (count : Nat) : Exec Unit := do
  let m ← get
  if count ≤ m.stack.size then set { m with stack := m.stack.shrink (m.stack.size - count) }
  else breach .stackUnderflow

/-- Drops all values from a slot on. -/
def truncate (m : Machine) (size : Nat) : Machine := { m with stack := m.stack.shrink size }

def setSlot (slot : Nat) (v : Value) : Exec Unit :=
  modify fun m => { m with stack := m.stack.setIfInBounds slot v }

/-- Replaces the top value. -/
def setTop (v : Value) : Exec Unit := do
  let m ← get
  if m.stack.isEmpty then breach .stackUnderflow
  else set { m with stack := m.stack.setIfInBounds (m.stack.size - 1) v }

/-- Takes the top values off, the lowest first. -/
def takeTop (count : Nat) : Exec (Array Value) := do
  let m ← get
  if count ≤ m.stack.size then
    let start := m.stack.size - count
    let items := m.stack.extract start m.stack.size
    set { m with stack := m.stack.shrink start }
    return items
  else breach .stackUnderflow

/-- The slot below `count` arguments. -/
def calleeSlot (count : Nat) : Exec Nat := do
  let m ← get
  if count < m.stack.size then return m.stack.size - (count + 1) else breach .stackUnderflow

/-! Frames. -/

/-- The innermost frame. -/
def frame : Exec Frame := do
  match (← get).frames with
  | f :: _ => return f
  | [] => breach .noFrame

/-- Changes the innermost frame. -/
def modifyFrame (g : Frame → Frame) : Exec Unit := do
  let m ← get
  match m.frames with
  | f :: rest => set { m with frames := g f :: rest }
  | [] => breach .noFrame

def jumpTo (offset : Nat) : Exec Unit := modifyFrame fun f => { f with ip := offset }

def jumpBy (distance : Nat) : Exec Unit := modifyFrame fun f => { f with ip := f.ip + distance }

def localSlot (slot : Nat) : Exec Nat := do
  let f ← frame
  let index := f.base + slot
  if index < (← get).stack.size then return index else breach (.localSlot slot)

/-! Operands. -/

def fetchByte : Exec UInt8 := do
  let f ← frame
  match f.proto.blob.byteAt? f.ip with
  | some b =>
    jumpTo (f.ip + 1)
    return b
  | none => malformed f.ip .pastEnd

def fetchShort : Exec UInt16 := do
  let high ← fetchByte
  let low ← fetchByte
  return shortOfBytes high low

/-- A constant of the running stream by its index. -/
def constant (index : UInt16) : Exec Value := do
  let f ← frame
  match f.proto.blob.constant? index with
  | some v => return v
  | none => malformed f.ip (.missingConstant index.toNat)

def fetchConstant : Exec Value := do constant (← fetchShort)

end Machine

end ScriptMachine
