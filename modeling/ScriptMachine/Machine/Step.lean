import ScriptMachine.Machine.Collection
import ScriptMachine.Machine.Element
import ScriptMachine.Machine.Operator

/-!
One instruction. Before each instruction a collection runs if one is due. A frame that reaches the
end of its stream returns nil.
-/

namespace ScriptMachine

/-- How a run ends. -/
inductive Ending where
  /-- The outermost function has returned. -/
  | returned (value : Value)
  /-- An instruction has stopped the machine. -/
  | halted (status : UInt8)
deriving DecidableEq

namespace Machine

/-! Variables. -/

def defineNamed (name : Value) : Exec Unit := do
  let v ← pop
  modify fun m => { m with globals := m.globals.set m.heap.pool name v }

def undefinedGlobal {α : Type} (name : Value) : Exec α := do
  let m ← get
  misuse (.undefinedGlobal (m.nameText name))

def getNamed (name : Value) : Exec Unit := do
  let m ← get
  match m.globals.get? m.heap.pool name with
  | some v => push v
  | none => undefinedGlobal name

def setNamed (name : Value) : Exec Unit := do
  let v ← peek 0
  let m ← get
  if m.settings.strictGlobals && (m.globals.get? m.heap.pool name).isNone then undefinedGlobal name
  else set { m with globals := m.globals.set m.heap.pool name v }

def getLocal (slot : Nat) : Exec Unit := do
  let index ← localSlot slot
  push ((← get).stack.getD index .nil)

def setLocal (slot : Nat) : Exec Unit := do
  let v ← peek 0
  setSlot (← localSlot slot) v

/-- Gives a nil parameter the popped value. -/
def defaultLocal (slot : Nat) : Exec Unit := do
  let v ← pop
  let index ← localSlot slot
  if ((← get).stack.getD index .nil).isNil then setSlot index v

/-! Control. -/

def jumpIfFalse (distance : Nat) : Exec Unit := do
  let v ← pop
  if (← get).heap.isFalsy v then jumpBy distance

/-- Jumps backward; `start` is the offset of the instruction. -/
def jumpBack (start distance : Nat) : Exec Unit := do
  let f ← frame
  if distance ≤ f.ip then jumpTo (f.ip - distance) else malformed start .loopBeforeStart

/-! Output and tests. -/

/-- Writes the text of the popped value and a line feed. -/
def echo : Exec Unit := do
  let v ← pop
  let m ← get
  let attempt := m.output.write (m.render v ++ "\n")
  set { m with output := attempt.2 }
  match attempt.1 with
  | some reason => misuse (.outputFailed reason)
  | none => pure ()

def assertTop : Exec Unit := do
  let message ← pop
  let condition ← pop
  let m ← get
  if m.heap.isFalsy condition then
    misuse (.assertionFailed (if message.isNil then "assertion failed" else m.render message))

def typeOfTop : Exec Unit := do
  let v ← pop
  push (← modifyGet fun m => m.intern (m.typeName v))

/-- Replaces the top value by its text; nil and texts stay. -/
def stringify : Exec Unit := do
  let v ← peek 0
  if !v.isNil && !v.isText then setTop (← modifyGet fun m => m.intern (m.render v))

/-! Instructions. -/

/-- An instruction after which the run goes on. -/
def proceed (action : Exec Unit) : Exec (Option Ending) := do
  action
  return none

/-- An instruction that may be the return of the last frame. -/
def maybeReturn (action : Exec (Option Value)) : Exec (Option Ending) := do
  return (← action).map .returned

/-- Reads the operand of an operation and carries it out; `start` is the offset of the
instruction. -/
def execute (host : Host) (start : Nat) : Opcode → Exec (Option Ending)
  | .pushConst => proceed do push (← fetchConstant)
  | .pushNil | .pushEmpty => proceed (push .nil)
  | .pushTrue => proceed (push (.bool true))
  | .pushFalse => proceed (push (.bool false))
  | .pushOne => proceed (push (.number 1))
  | .pop => proceed do let _ ← pop
  | .popN => proceed do drop (← fetchShort).toNat
  | .dup => proceed do push (← peek 0)
  | .globalDefine => proceed do defineNamed (← fetchConstant)
  | .globalGet => proceed do getNamed (← fetchConstant)
  | .globalSet => proceed do setNamed (← fetchConstant)
  | .localGet => proceed do getLocal (← fetchShort).toNat
  | .localSet => proceed do setLocal (← fetchShort).toNat
  | .argDefault => proceed do defaultLocal (← fetchShort).toNat
  | .upvalueGet => proceed do push (← readUpvalue (← fetchShort).toNat)
  | .upvalueSet => proceed do
    let index ← fetchShort
    writeUpvalue index.toNat (← peek 0)
  | .closeUpvalue => proceed closeTop
  | .add => proceed add
  | .sub => proceed (arithmetic "-" (· - ·))
  | .mul => proceed multiply
  | .div => proceed (arithmetic "/" (· / ·))
  | .floorDiv => proceed (arithmetic "//" fun a b => Binary64.floor (a / b))
  | .mod => proceed (arithmetic "%" Binary64.flooredMod)
  | .pow => proceed (arithmetic "**" Float.pow)
  | .negate => proceed (unaryNumber "-" fun x => .number (-x))
  | .not => proceed do
    let v ← pop
    push (.bool ((← get).heap.isFalsy v))
  | .bitNot => proceed (unaryNumber "~" fun x => ofWord (~~~wordOf x))
  | .bitAnd => proceed (bitwise "&" (· &&& ·))
  | .bitOr => proceed (bitwise "|" (· ||| ·))
  | .bitXor => proceed (bitwise "^" (· ^^^ ·))
  | .shiftLeft => proceed (bitwise "<<" (· <<< ·))
  | .shiftRight => proceed (bitwise ">>" (· >>> ·))
  | .equal => proceed do
    let b ← pop
    let a ← pop
    push (.bool (a.equals b))
  | .greater => proceed (comparison ">" fun a b => decide (b < a))
  | .less => proceed (comparison "<" fun a b => decide (a < b))
  | .jump => proceed do jumpBy (← fetchShort).toNat
  | .jumpIfFalse => proceed do jumpIfFalse (← fetchShort).toNat
  | .loop => proceed do jumpBack start (← fetchShort).toNat
  | .call => proceed do
    let count ← fetchByte
    callValue host (← peek count.toNat) count.toNat
  | .invoke => proceed do
    let name ← fetchConstant
    let count ← fetchByte
    invoke host name count.toNat false
  | .invokeSelf => proceed do
    let name ← fetchConstant
    let count ← fetchByte
    invoke host name count.toNat true
  | .invokeSuper => proceed do
    let name ← fetchConstant
    let count ← fetchByte
    invokeSuper host name count.toNat
  | .superConstructor => proceed do superConstructor host (← fetchByte).toNat
  | .makeClosure => proceed makeClosure
  | .ret => maybeReturn do finishReturn (← pop)
  | .makeClass => proceed do makeClass (← fetchConstant)
  | .makeMethod => proceed do makeMethod (← fetchConstant)
  | .defineProperty => proceed do
    let name ← fetchConstant
    let flag ← fetchByte
    defineProperty name (flag != 0)
  | .inherit => proceed inherit
  | .getSuper => proceed do getSuper (← fetchConstant)
  | .propertyGet => proceed do getProperty host (← fetchConstant) false
  | .propertyGetSelf => proceed do getProperty host (← fetchConstant) true
  | .propertySet => proceed do setProperty (← fetchConstant)
  | .makeArray => proceed do makeArray (← fetchShort).toNat
  | .makeDict => proceed do makeDict (← fetchShort).toNat
  | .makeRange => proceed makeRange
  | .indexGet => proceed do
    let flag ← fetchByte
    getIndex (flag != 0)
  | .sliceGet => proceed do
    let flag ← fetchByte
    getSlice (flag != 0)
  | .indexSet => proceed setIndex
  | .enterTry => proceed enterTry
  | .popTry => proceed popTry
  | .endFinally => maybeReturn endFinally
  | .throwTop => proceed throwTop
  | .switch => proceed do switchOn (← fetchConstant)
  | .typeOf => proceed typeOfTop
  | .stringify => proceed stringify
  | .instanceOf => proceed testInstance
  | .echo => proceed echo
  | .assert => proceed assertTop
  | .halt => do
    let status ← fetchByte
    modify reset
    return some (.halted status)

/-- Carries out the next instruction of the innermost frame. -/
def instruction (host : Host) : Exec (Option Ending) := do
  let f ← frame
  if f.proto.blob.size ≤ f.ip then maybeReturn (finishReturn .nil)
  else
    let byte ← fetchByte
    match Opcode.ofByte? byte with
    | some op => throwing none (execute host f.ip op)
    | none => malformed f.ip (.unknownOpcode byte)

/-- Collects if a collection is due. -/
def collectIfDue (m : Machine) : Machine := if m.heap.isDue then m.collect.2 else m

/-- One step of a run. -/
def step (host : Host) : Exec (Option Ending) := do
  modify collectIfDue
  instruction host

end Machine

end ScriptMachine
