import ScriptMachine.Machine.Unwinding

/-!
Calls. The callee stands on the stack below its arguments, and that slot becomes slot zero of the
new frame; for methods and constructors it holds the receiver. Parameters follow, and a variadic
function finds its surplus arguments as an array after them.
-/

namespace ScriptMachine

/-- What can be called. -/
inductive Callee where
  | closure (r : Ref) (proto : Prototype)
  | native (n : NativeFunction)
  | bound (b : BoundMethod)
  | cls (r : Ref) (c : Class)

/-- The callable object behind a value. -/
def Heap.callee? (h : Heap) (v : Value) : Option Callee :=
  match v with
  | .ref r =>
    match h.get? r with
    | some (.closure c) => some (.closure r c.proto)
    | some (.native n) => some (.native n)
    | some (.bound b) => some (.bound b)
    | some (.cls c) => some (.cls r c)
    | _ => none
  | _ => none

/-- Follows bound methods from a value to what they bind in the end, and to the receiver next to
it, if there is one. A circle of bound methods is endless. -/
def Heap.unbind (h : Heap) : (fuel : Nat) → (receiver? : Option Value) → Value →
    Option (Option Value × Value)
  | fuel, receiver?, v =>
    match h.callee? v with
    | some (.bound b) =>
      match fuel with
      | 0 => none
      | fuel + 1 => unbind h fuel (some b.receiver) b.method
    | _ => some (receiver?, v)

namespace Machine

/-- Puts the arguments of a call where the parameters are: missing ones are nil, and the surplus
of a variadic function becomes an array. -/
def bindArguments (proto : Prototype) (count : Nat) : Exec Unit := do
  let missing := Array.replicate (proto.arity - count) Value.nil
  if proto.variadic then
    let m ← get
    let surplus := count - proto.arity
    if m.stack.size < surplus then throw .crash
    else
      let rest ← takeTop surplus
      modify fun m => { m with stack := m.stack ++ missing }
      push (← modifyGet fun m => m.alloc (.array rest))
  else modify fun m => { m with stack := m.stack ++ missing }

/-- Pushes the frame of a closure for `count` arguments on the stack. -/
def callClosure (r : Ref) (proto : Prototype) (count : Nat) : Exec Unit := do
  let m ← get
  if count < proto.required then misuse (.argumentCount proto.name proto.required count)
  else if proto.arity < count && !proto.variadic then
    misuse (.argumentCount proto.name proto.arity count)
  else if m.settings.maxFrames ≤ m.frames.length then fault (.frameOverflow m.settings.maxFrames)
  else
    bindArguments proto count
    let m ← get
    if m.stack.size < proto.paramSlots + 1 then throw .crash
    else
      let f : Frame := { closure := r, proto, base := m.stack.size - proto.paramSlots - 1 }
      set { m with frames := f :: m.frames }

/-- Notes the exception a native raises. -/
def raiseValue (e : Value) : StateM Machine (Option Value) := do
  modify fun m => { m with raised? := some e }
  return none

/-- Notes an exception of a built-in class. -/
def raise (kind : ExceptionKind) (message : String) : StateM Machine (Option Value) := do
  let e ← modifyGet fun m => m.makeException kind message
  raiseValue e

/-- The constructor of the built-in exceptions: the first argument is the message. -/
def exceptionInit : Native := fun this args => do
  let message ←
    match args[0]? with
    | none => modifyGet fun m => m.intern ""
    | some v =>
      if v.isText then pure v
      else modifyGet fun m => m.intern (m.render v)
  modify fun m => m.setField this (.ref m.builtins.message) message
  return some this

/-- The native behind a routine. -/
def native (host : Host) : Routine → Native
  | .exceptionInit => exceptionInit
  | .host name => host name

/-- Runs a native and raises the exception it has noted. -/
def runRoutine (host : Host) (routine : Routine) (receiver : Value) (args : Array Value) :
    Exec Value := do
  match ← modifyGet fun m => native host routine receiver args m with
  | some v => return v
  | none =>
    let m ← get
    match m.raised? with
    | some e =>
      set { m with raised? := none }
      throw (.raised e)
    | none => breach .nothingRaised

/-- Runs a native on `count` arguments on the stack and gives its result. -/
def runNative (host : Host) (n : NativeFunction) (count : Nat) : Exec Value := do
  match n.arity with
  | some arity => if count ≠ arity then misuse (.argumentCount n.name arity count)
  | none => pure ()
  let base ← calleeSlot count
  let m ← get
  runRoutine host n.routine (m.stack.getD base .nil) (m.stack.extract (base + 1) m.stack.size)

/-- Replaces everything from a slot on by one value. -/
def replaceFrom (base : Nat) (v : Value) : Exec Unit := do
  modify fun m => m.truncate base
  push v

def callNative (host : Host) (n : NativeFunction) (count : Nat) : Exec Unit := do
  let base ← calleeSlot count
  replaceFrom base (← runNative host n count)

/-- Runs the constructor of a class on its new instance, which stands in the slot of the callee. -/
def construct (host : Host) (c : Class) (base : Nat) (this : Value) (count : Nat) :
    Exec Unit := do
  match c.constructor?.bind (← get).heap.callee? with
  | some (.closure r proto) => callClosure r proto count
  | some (.native n) =>
    let _ ← runNative host n count
    replaceFrom base this
  | some _ => breach .constructorOperand
  | none => if 0 < count then misuse (.noConstructor c.name count)

/-- Calls a class: makes an instance and runs the constructor on it. -/
def instantiate (host : Host) (r : Ref) (c : Class) (count : Nat) : Exec Unit := do
  let base ← calleeSlot count
  match (← get).heap.initialFields? r with
  | none => throw .endless
  | some fields =>
    let this ← modifyGet fun m => m.alloc (.inst { cls := r, fields })
    setSlot base this
    construct host c base this count

/-- Calls what a value binds in the end, as the heap of `m` has it. -/
def callTarget (host : Host) (m : Machine) (target : Value) (count : Nat) : Exec Unit :=
  match m.heap.callee? target with
  | some (.closure r proto) => callClosure r proto count
  | some (.native n) => callNative host n count
  | some (.cls r c) => instantiate host r c count
  | _ => misuse (.notCallable (m.typeName target))

/-- Calls a value with `count` arguments on the stack. -/
def callValue (host : Host) (v : Value) (count : Nat) : Exec Unit := do
  let m ← get
  match m.heap.unbind m.heap.linkLimit none v with
  | none => throw .endless
  | some (receiver?, target) =>
    match receiver? with
    | some receiver => setSlot (← calleeSlot count) receiver
    | none => pure ()
    callTarget host m target count

end Machine

end ScriptMachine
