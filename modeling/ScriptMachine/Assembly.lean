import ScriptMachine.Blob

/-!
Assembling blobs. An assembly appends instructions one after the other at a current source line.
Forward jumps and try regions are written with a placeholder and patched once their target is
known.
-/

namespace ScriptMachine

/-- One captured variable of a closure instruction. -/
structure Capture where
  /-- A slot of the enclosing frame, or else a captured variable of the enclosing closure. -/
  isLocal : Bool
  index : UInt16
deriving DecidableEq, Repr

/-- A forward jump whose target is not known yet. -/
structure JumpLabel where
  operand : Nat
deriving DecidableEq, Repr, Inhabited

/-- A try region whose addresses are not known yet. -/
structure TryLabel where
  operand : Nat
deriving DecidableEq, Repr, Inhabited

/-- A blob under construction. -/
structure Assembly where
  blob : Blob := {}
  line : Nat := 1

namespace Assembly

def empty : Assembly := {}

/-- The offset of the next instruction. -/
def offset (a : Assembly) : Nat := a.blob.size

/-- Sets the source line of the bytes that follow. -/
def atLine (a : Assembly) (line : Nat) : Assembly := { a with line }

def constant (a : Assembly) (v : Value) : UInt16 × Assembly :=
  let (i, blob) := a.blob.addConstant v
  (i, { a with blob })

def op (a : Assembly) (op : Opcode) : Assembly := { a with blob := a.blob.pushOp op a.line }

def byte (a : Assembly) (b : UInt8) : Assembly := { a with blob := a.blob.pushByte b a.line }

def short (a : Assembly) (n : UInt16) : Assembly := { a with blob := a.blob.pushShort n a.line }

def flag (a : Assembly) (b : Bool) : Assembly := a.byte (if b then 1 else 0)

def opByte (a : Assembly) (o : Opcode) (b : UInt8) : Assembly := (a.op o).byte b

def opShort (a : Assembly) (o : Opcode) (n : UInt16) : Assembly := (a.op o).short n

/-- Adds a constant and an instruction that refers to it. -/
def opConst (a : Assembly) (o : Opcode) (v : Value) : Assembly :=
  let (i, a) := a.constant v
  a.opShort o i

def push (a : Assembly) (v : Value) : Assembly := a.opConst .pushConst v

/-- A forward jump with a placeholder distance. -/
def jump (a : Assembly) (o : Opcode) : JumpLabel × Assembly :=
  (⟨a.offset + 1⟩, a.opShort o 0xffff)

/-- Points a forward jump at the current offset. -/
def patchJump (a : Assembly) (label : JumpLabel) : Assembly :=
  { a with blob := a.blob.patchShort label.operand (UInt16.ofNat (a.offset - (label.operand + 2))) }

/-- A backward jump to `start`. -/
def loopTo (a : Assembly) (start : Nat) : Assembly :=
  a.opShort .loop (UInt16.ofNat (a.offset + 3 - start))

/-- Opens a try region without handler and finally block. -/
def tryRegion (a : Assembly) (type : UInt16) : TryLabel × Assembly :=
  (⟨a.offset + 1⟩, ((a.opShort .enterTry type).short 0).short 0)

/-- Puts the handler of a try region at the current offset. -/
def patchHandler (a : Assembly) (label : TryLabel) : Assembly :=
  { a with blob := a.blob.patchShort (label.operand + 2) (UInt16.ofNat a.offset) }

/-- Puts the finally block of a try region at the current offset. -/
def patchFinally (a : Assembly) (label : TryLabel) : Assembly :=
  { a with blob := a.blob.patchShort (label.operand + 4) (UInt16.ofNat a.offset) }

def invoke (a : Assembly) (o : Opcode) (name : UInt16) (count : UInt8) : Assembly :=
  (a.opShort o name).byte count

def capture (a : Assembly) (c : Capture) : Assembly := (a.flag c.isLocal).short c.index

def closure (a : Assembly) (function : UInt16) (captures : List Capture) : Assembly :=
  captures.foldl capture (a.opShort .makeClosure function)

def defineProperty (a : Assembly) (name : UInt16) (isStatic : Bool) : Assembly :=
  (a.opShort .defineProperty name).flag isStatic

end Assembly

end ScriptMachine
