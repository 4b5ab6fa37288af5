import ScriptMachine.Assembly
import ScriptMachine.Fault

/-!
Decoding. An instruction is read back from the bytes at an offset by the layout of its operation.
How many variables a closure captures stands in its function, so decoding asks for that number.
-/

namespace ScriptMachine

/-- The operand of a decoded instruction. -/
inductive Operand where
  | none
  | byte (n : UInt8)
  | short (n : UInt16)
  | const (index : UInt16)
  | jump (distance : UInt16) (target : Int)
  | tryRegion (type handler finallyAt : UInt16)
  | invoke (name : UInt16) (count : UInt8)
  | closure (function : UInt16) (captures : List Capture)
  | constByte (index : UInt16) (flag : UInt8)
deriving DecidableEq, Repr

/-- A decoded instruction. -/
structure Instruction where
  offset : Nat
  op : Opcode
  operand : Operand
  width : Nat
deriving DecidableEq, Repr

namespace Instruction

/-- The offset of the next instruction. -/
def next (i : Instruction) : Nat := i.offset + i.width

/-- Reads a value that must be there. -/
def need {α : Type} (op : Opcode) : Option α → Except Defect α
  | some a => .ok a
  | none => .error (.truncated op)

def readCapture (blob : Blob) (op : Opcode) (offset : Nat) : Except Defect Capture := do
  let flag ← need op (blob.byteAt? offset)
  let index ← need op (blob.shortAt? (offset + 1))
  return { isLocal := flag != 0, index }

/-- Reads captures, three bytes each. -/
def readCaptures (blob : Blob) (op : Opcode) : (count offset : Nat) → Except Defect (List Capture)
  | 0, _ => .ok []
  | count + 1, offset => do
    let c ← readCapture blob op offset
    let rest ← readCaptures blob op count (offset + 3)
    return c :: rest

/-- Reads the operand of the instruction at an offset, and how many variables it captures. -/
def readOperand (captured : Value → Option Nat) (blob : Blob) (op : Opcode) (offset : Nat) :
    Except Defect (Operand × Nat) := do
  let byte (at_ : Nat) := need op (blob.byteAt? at_)
  let short (at_ : Nat) := need op (blob.shortAt? at_)
  match op.layout with
  | .none => return (.none, 0)
  | .byte => return (.byte (← byte (offset + 1)), 0)
  | .short => return (.short (← short (offset + 1)), 0)
  | .const => return (.const (← short (offset + 1)), 0)
  | .jumpForward =>
    let distance ← short (offset + 1)
    return (.jump distance (Int.ofNat (offset + 3) + Int.ofNat distance.toNat), 0)
  | .jumpBackward =>
    let distance ← short (offset + 1)
    return (.jump distance (Int.ofNat (offset + 3) - Int.ofNat distance.toNat), 0)
  | .tryRegion =>
    return (.tryRegion (← short (offset + 1)) (← short (offset + 3)) (← short (offset + 5)), 0)
  | .invoke => return (.invoke (← short (offset + 1)) (← byte (offset + 3)), 0)
  | .constByte => return (.constByte (← short (offset + 1)) (← byte (offset + 3)), 0)
  | .closure =>
    let function ← short (offset + 1)
    match (blob.constant? function).bind captured with
    | none => throw (.notAFunction function.toNat)
    | some count => return (.closure function (← readCaptures blob op count (offset + 3)), count)

/-- Decodes the instruction at an offset. -/
def decode (captured : Value → Option Nat) (blob : Blob) (offset : Nat) :
    Except Defect Instruction := do
  match blob.byteAt? offset with
  | none => throw (.unknownOpcode 0)
  | some byte =>
    match Opcode.ofByte? byte with
    | none => throw (.unknownOpcode byte)
    | some op =>
      let (operand, count) ← readOperand captured blob op offset
      let width := op.layout.width count
      if offset + width ≤ blob.size then return { offset, op, operand, width }
      else throw (.truncated op)

/-- The instructions of a stream up to the first defect, and that defect with its offset. -/
structure Decoding where
  instructions : Array Instruction
  defect? : Option (Nat × Defect)

/-- Decodes at most `fuel` instructions from an offset on, after those already done. -/
def decodeFrom (captured : Value → Option Nat) (blob : Blob) :
    (fuel offset : Nat) → (done : Array Instruction) → Decoding
  | 0, _, done => ⟨done, none⟩
  | fuel + 1, offset, done =>
    if blob.size ≤ offset then ⟨done, none⟩
    else
      match decode captured blob offset with
      | .error defect => ⟨done, some (offset, defect)⟩
      | .ok i => decodeFrom captured blob fuel i.next (done.push i)

/-- Decodes a whole stream from its start. Every instruction has a byte, so there are no more
instructions than bytes. -/
def decodeAll (captured : Value → Option Nat) (blob : Blob) : Decoding :=
  decodeFrom captured blob blob.size 0 #[]

end Instruction

end ScriptMachine
