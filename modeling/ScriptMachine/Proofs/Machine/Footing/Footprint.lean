import ScriptMachine.Proofs.Machine.Footing.Member
import ScriptMachine.Proofs.Machine.Footing.Unwinding
import ScriptMachine.Proofs.Machine.Turn.Operations

/-!
What an instruction does to the stack and to captured variables. Most instructions take operands off
and put at most one value on top. Below that an assignment writes one slot, and what replaces a value
where it stands, a call above all, writes the slot of that value.
-/

namespace ScriptMachine

namespace Opcode

/-- How many values an operation puts on top of the stack. What replaces a value where it stands,
as a call does, puts nothing on top. -/
def pushes : Opcode → Nat
  | pushConst | pushNil | pushEmpty | pushTrue | pushFalse | pushOne | dup | globalGet | localGet
  | upvalueGet | add | sub | mul | div | floorDiv | mod | pow | negate | not | bitNot | bitAnd | bitOr
  | bitXor | shiftLeft | shiftRight | equal | greater | less | makeClosure | makeClass | propertySet
  | makeArray | makeDict | makeRange | indexGet | sliceGet | indexSet | typeOf | instanceOf => 1
  | _ => 0

/-- How many values a call takes off the stack above its arguments. -/
def supers : Opcode → Nat
  | invokeSuper | superConstructor => 1
  | _ => 0

/-- How many values stand from the callee to the top when an operation that calls comes next. A
property may be a getter that is called. -/
def reach? (blob : Blob) (ip : Nat) : Opcode → Option Nat
  | call => (blob.byteAt? (ip + 1)).map fun n => n.toNat + 1
  | invoke | invokeSelf => (blob.byteAt? (ip + 3)).map fun n => n.toNat + 1
  | invokeSuper => (blob.byteAt? (ip + 3)).map fun n => n.toNat + 2
  | superConstructor => (blob.byteAt? (ip + 1)).map fun n => n.toNat + 2
  | propertyGet | propertyGetSelf => some 1
  | _ => none

/-- The operations that may take captured variables off the stack. -/
def departs : Opcode → Bool
  | closeUpvalue | ret | endFinally => true
  | _ => false

/-- The operations that neither assign nor capture a variable nor replace a value below the top nor
take captured variables off the stack, calls aside. -/
def isSimple : Opcode → Bool
  | localSet | argDefault | upvalueSet | stringify | getSuper | closeUpvalue | makeClosure | ret
  | endFinally => false
  | _ => true

end Opcode

namespace Machine

variable {α : Type} {host : Host} {m m' p q : Machine} {f : Frame} {rest : List Frame} {op : Opcode}

/-! What the next instruction refers to. -/

/-- The slot of the variable that the operand of the next instruction stands for. -/
def localSlot? (m : Machine) : Option Nat :=
  m.frames.head?.bind fun f =>
    (f.proto.blob.shortAt? (f.ip + 1)).map fun n => f.base + n.toNat

/-- The cell that the operand of the next instruction stands for. -/
def cell? (m : Machine) : Option Ref :=
  m.frames.head?.bind fun f =>
    (f.proto.blob.shortAt? (f.ip + 1)).bind fun n =>
      match m.heap.get? f.closure with
      | some (.closure c) => c.upvalues[n.toNat]?
      | _ => none

/-- The slot that the next instruction assigns to a variable, and the value. A parameter gets its
default only if it is nil. -/
def assignment? (m : Machine) : Option (Nat × Value) :=
  match m.opcode? with
  | some .localSet => m.localSlot?.bind fun slot => m.stack.back?.map fun v => (slot, v)
  | some .argDefault =>
    m.localSlot?.bind fun slot =>
      if (m.stack.pop.getD slot .nil).isNil then m.stack.back?.map fun v => (slot, v) else none
  | some .upvalueSet =>
    (m.cell?.bind m.heap.openSlot?).bind fun slot => m.stack.back?.map fun v => (slot, v)
  | _ => none

/-- How many values stand from the callee of the next instruction to the top, if it is a call. -/
def reach? (m : Machine) : Option Nat :=
  m.frames.head?.bind fun f => m.opcode?.bind fun op => op.reach? f.proto.blob f.ip

/-- The slot of the callee of the next instruction. -/
def callee? (m : Machine) : Option Nat := m.reach?.map fun k => m.stack.size - k

/-- The slot that the next instruction replaces though it is no call. -/
def replaced? (m : Machine) : Option Nat :=
  match m.opcode? with
  | some .stringify => some (m.stack.size - 1)
  | some .getSuper => some (m.stack.size - 2)
  | _ => none

/-- The slot that the next instruction writes where it stands. -/
def touched? (m : Machine) : Option Nat :=
  m.assignment?.map Prod.fst <|> m.callee? <|> m.replaced?

/-- The machine in which the next instruction raises an exception. -/
def raises? (host : Host) (m : Machine) : Option Machine :=
  m.frames.head?.bind fun f => m.opcode?.bind fun op =>
    match execute host f.ip op (m.atOffset (f.ip + 1)) with
    | .error (.raised _) q => some q
    | _ => none

theorem raises?_of_ok (hframes : m.frames = f :: rest) (hop : m.opcode? = some op)
    {ending : Option Ending} {q : Machine}
    (hexecute : execute host f.ip op (m.atOffset (f.ip + 1)) = .ok ending q) :
    m.raises? host = none := by
  unfold raises?
  simp only [hframes, hop, List.head?_cons, Option.bind_some, hexecute]

theorem raises?_of_raised (hframes : m.frames = f :: rest) (hop : m.opcode? = some op)
    {e : Value} {q : Machine}
    (hexecute : execute host f.ip op (m.atOffset (f.ip + 1)) = .error (.raised e) q) :
    m.raises? host = some q := by
  unfold raises?
  simp only [hframes, hop, List.head?_cons, Option.bind_some, hexecute]

/-- The machine without the operand of a return. -/
def departing (m : Machine) : Machine :=
  match m.opcode? with
  | some .ret => { m with stack := m.stack.pop }
  | _ => m

theorem departing_of_ret (hop : m.opcode? = some .ret) :
    m.departing = { m with stack := m.stack.pop } := by
  unfold departing
  rw [hop]

theorem departing_eq (hop : m.opcode? ≠ some .ret) : m.departing = m := by
  unfold departing
  split
  · rename_i hret
    exact absurd hret hop
  · rfl

@[simp] theorem frames_departing (m : Machine) : m.departing.frames = m.frames := by
  unfold departing
  split <;> rfl

/-! Closures. -/

/-- The captures of a closure, read from an offset on, and the cells that were found for them. -/
inductive Gathers (f : Frame) : Nat → Machine → List Ref → Machine → Prop where
  | done (offset : Nat) (m : Machine) : Gathers f offset m [] m
  /-- A variable of the running call. -/
  | own {offset : Nat} {m q : Machine} {index : UInt16} {cells : List Ref} {flag : UInt8}
      (hflag : f.proto.blob.byteAt? offset = some flag) (hset : flag ≠ 0)
      (hindex : f.proto.blob.shortAt? (offset + 1) = some index)
      (hrest : Gathers f (offset + 3) (m.captureSlot (f.base + index.toNat)).2 cells q) :
      Gathers f offset m ((m.captureSlot (f.base + index.toNat)).1 :: cells) q
  /-- A variable that the running closure has captured itself. -/
  | shared {offset : Nat} {m q : Machine} {index : UInt16} {cells : List Ref} {c : Closure}
      {r : Ref} (hflag : f.proto.blob.byteAt? offset = some 0)
      (hindex : f.proto.blob.shortAt? (offset + 1) = some index)
      (hclosure : m.heap.get? f.closure = some (.closure c))
      (hcell : c.upvalues[index.toNat]? = some r) (hrest : Gathers f (offset + 3) m cells q) :
      Gathers f offset m (r :: cells) q

/-! Instructions. -/

/-- What an instruction that raises nothing does to the stack and to captured variables. -/
inductive Footprint (m : Machine) : Machine → Prop where
  /-- It works on top of the stack, and perhaps on one slot below. -/
  | works {op : Opcode} {m' : Machine} (hop : m.opcode? = some op) (hstays : op.departs = false)
      (hlength : m'.frames.length = m.frames.length) (hspares : m.Spares m')
      (hrests : Rests op.pushes m.touched? m.stack m'.stack)
      (hassigned : ∀ s ∈ m.assignment?, m'.stack[s.1]? = some s.2)
      (hreplaced : ∀ slot ∈ m.replaced?, m'.stack.size ≤ slot + 1)
      (hopen : op = .upvalueSet → m.assignment? ≠ none) (hmakes : op ≠ .makeClosure) :
      Footprint m m'
  /-- It writes a closed cell. -/
  | writes {m' : Machine} {r : Ref} {v w : Value} (hop : m.opcode? = some .upvalueSet)
      (hlength : m'.frames.length = m.frames.length) (hcell : m.cell? = some r)
      (hclosed : m.heap.get? r = some (.upvalue (.closed w))) (hv : m.stack.back? = some v)
      (hheap : m'.heap = m.heap.update r fun _ => .upvalue (.closed v))
      (hopen : m'.openUpvalues = m.openUpvalues) (hstack : m'.stack = m.stack) : Footprint m m'
  /-- It makes a closure. -/
  | makes {f : Frame} {rest : List Frame} {function : Ref} {proto : Prototype} {cells : List Ref}
      {m' q : Machine} (hframes : m.frames = f :: rest) (hop : m.opcode? = some .makeClosure)
      (hlength : m'.frames.length = m.frames.length) (hcaptures : Gathers f (f.ip + 3) m cells q)
      (hcount : cells.length = proto.captured)
      (hheap : m'.heap = (q.heap.alloc (.closure { function, proto, upvalues := cells })).2)
      (hopen : m'.openUpvalues = q.openUpvalues)
      (hstack : m'.stack = m.stack.push
        (.ref (q.heap.alloc (.closure { function, proto, upvalues := cells })).1)) : Footprint m m'
  /-- It closes the variable on top and drops it. -/
  | closes {m' : Machine} (hop : m.opcode? = some .closeUpvalue)
      (hlength : m'.frames.length = m.frames.length)
      (hheap : m'.heap = (m.closeUpvalues (m.stack.size - 1)).heap)
      (hopen : m'.openUpvalues = (m.closeUpvalues (m.stack.size - 1)).openUpvalues)
      (hstack : m'.stack = m.stack.pop) : Footprint m m'
  /-- It begins a call, and what was called and the arguments stay where they are. -/
  | calls {op : Opcode} {g : Frame} {outer : List Frame} {m' : Machine} (hop : m.opcode? = some op)
      (hstays : op.departs = false) (hframes : m'.frames = g :: outer)
      (hlength : m'.frames.length = m.frames.length + 1) (hcallee : m.callee? = some g.base)
      (hspares : m.Spares m') (hroom : g.base + 1 + op.supers ≤ m.stack.size)
      (hsize : min (m.stack.size - op.supers) (g.base + 1 + g.proto.arity) ≤ m'.stack.size)
      (hargs : ∀ i < min (m.stack.size - op.supers) (g.base + 1 + g.proto.arity), i ≠ g.base →
        m'.stack[i]? = m.stack[i]?) : Footprint m m'
  /-- It goes on elsewhere, perhaps after values have gone off the stack. -/
  | departs {m' q : Machine} (hop : ∀ op ∈ m.opcode?, op.departs = true)
      (hrecedes : Recedes m.departing q) (hlands : Lands q m') : Footprint m m'
  /-- It ends a call, and the caller gets the value. -/
  | leaves {f : Frame} {rest : List Frame} {v : Value} {m' : Machine} (hframes : m.frames = f :: rest)
      (hop : ∀ op ∈ m.opcode?, op.departs = true) (hrest : m'.frames = rest)
      (hyields : Yields f v m.departing m') : Footprint m m'

/-- What one instruction does to the stack and to captured variables. An exception is raised first
and then thrown. -/
inductive Handled (host : Host) (m m' : Machine) : Prop where
  | carried (hcalm : m.raises? host = none) (hfootprint : Footprint m m')
  | thrown {e : Value} {q r : Machine} (hraises : m.raises? host = some q) (hspares : m.Spares q)
      (hrests : Rests 0 m.callee? m.stack q.stack) (hrecedes : Recedes (q.attachTrace e) r)
      (hlands : Lands r m')

/-- What the last instruction of a run does: the values of the last call go off the stack, or all
is dropped. -/
def Finishes (m m' : Machine) : Prop := Recedes m.departing m' ∨ ∃ ip, m' = (m.atOffset ip).reset

/-- What an operation ends in before the exception it raises is thrown. -/
def Prints (m : Machine) : EStateM.Result Signal Machine (Option Ending) → Prop
  | .ok none m' => Footprint m m'
  | .ok (some _) m' => Finishes m m'
  | .error (.raised _) q => m.Spares q ∧ Rests 0 m.callee? m.stack q.stack
  | _ => True

end Machine

end ScriptMachine
