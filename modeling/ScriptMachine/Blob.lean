import ScriptMachine.Opcode
import ScriptMachine.Value

/-!
Instruction streams. A blob is a sequence of bytes, each with the source line it came from, and
the constants that its instructions refer to by index. Numbers of 16 bits are stored with the
high byte first.
-/

namespace ScriptMachine

/-- One byte of an instruction stream with its source line. -/
structure CodeByte where
  byte : UInt8
  line : Nat
deriving DecidableEq, Repr, Inhabited

/-- A compiled instruction stream. -/
structure Blob where
  code : Array CodeByte := #[]
  constants : Array Value := #[]
deriving Inhabited

/-- The 16-bit number with a given high and low byte. -/
def shortOfBytes (high low : UInt8) : UInt16 := UInt16.ofNat (256 * high.toNat + low.toNat)

def highByte (n : UInt16) : UInt8 := UInt8.ofNat (n.toNat / 256)

def lowByte (n : UInt16) : UInt8 := UInt8.ofNat (n.toNat % 256)

theorem shortOfBytes_highByte_lowByte (n : UInt16) :
    shortOfBytes (highByte n) (lowByte n) = n := by
  have h := n.toNat_lt
  apply UInt16.toNat_inj.1
  simp only [shortOfBytes, highByte, lowByte, UInt8.toNat_ofNat', UInt16.toNat_ofNat']
  omega

namespace Blob

def size (b : Blob) : Nat := b.code.size

def isEmpty (b : Blob) : Bool := b.code.isEmpty

def pushByte (b : Blob) (byte : UInt8) (line : Nat) : Blob :=
  { b with code := b.code.push { byte, line } }

def pushOp (b : Blob) (op : Opcode) (line : Nat) : Blob := b.pushByte op.toByte line

def pushShort (b : Blob) (n : UInt16) (line : Nat) : Blob :=
  (b.pushByte (highByte n) line).pushByte (lowByte n) line

/-- Overwrites one byte and keeps its line; offsets past the end change nothing. -/
def patchByte (b : Blob) (offset : Nat) (byte : UInt8) : Blob :=
  { b with code := b.code.modify offset fun c => { c with byte } }

/-- Overwrites the 16-bit number at an offset. -/
def patchShort (b : Blob) (offset : Nat) (n : UInt16) : Blob :=
  (b.patchByte offset (highByte n)).patchByte (offset + 1) (lowByte n)

/-- Adds a constant. The index returned has 16 bits. -/
def addConstant (b : Blob) (v : Value) : UInt16 × Blob :=
  (UInt16.ofNat b.constants.size, { b with constants := b.constants.push v })

def byteAt? (b : Blob) (offset : Nat) : Option UInt8 := b.code[offset]?.map CodeByte.byte

/-- The 16-bit number at an offset. -/
def shortAt? (b : Blob) (offset : Nat) : Option UInt16 := do
  let high ← b.byteAt? offset
  let low ← b.byteAt? (offset + 1)
  return shortOfBytes high low

def lineAt? (b : Blob) (offset : Nat) : Option Nat := b.code[offset]?.map CodeByte.line

def constant? (b : Blob) (index : UInt16) : Option Value := b.constants[index.toNat]?

/-! What is written can be read at its offset. -/

theorem size_pushByte (b : Blob) (byte : UInt8) (line : Nat) :
    (b.pushByte byte line).size = b.size + 1 := by
  simp [pushByte, size]

theorem size_pushShort (b : Blob) (n : UInt16) (line : Nat) :
    (b.pushShort n line).size = b.size + 2 := by
  simp [pushShort, size_pushByte]

theorem size_patchShort (b : Blob) (offset : Nat) (n : UInt16) :
    (b.patchShort offset n).size = b.size := by
  simp [patchShort, patchByte, size]

theorem byteAt?_eq_some (b : Blob) (i : Nat) (h : i < b.size) :
    ∃ byte, b.byteAt? i = some byte := by
  have hcode : b.code[i]? = some b.code[i] := Array.getElem?_eq_getElem h
  exact ⟨b.code[i].byte, by simp only [byteAt?, hcode, Option.map_some]⟩

theorem byteAt?_pushByte (b : Blob) (byte : UInt8) (line i : Nat) :
    (b.pushByte byte line).byteAt? i = if i = b.size then some byte else b.byteAt? i := by
  simp only [byteAt?, pushByte, size, Array.getElem?_push]
  by_cases h : i = b.code.size <;> simp [h]

theorem shortAt?_pushShort (b : Blob) (n : UInt16) (line : Nat) :
    (b.pushShort n line).shortAt? b.size = some n := by
  simp [shortAt?, pushShort, byteAt?_pushByte, size_pushByte, shortOfBytes_highByte_lowByte]

theorem byteAt?_patchByte (b : Blob) (offset i : Nat) (byte : UInt8) :
    (b.patchByte offset byte).byteAt? i =
      if offset = i then (b.byteAt? i).map fun _ => byte else b.byteAt? i := by
  simp only [byteAt?, patchByte, Array.getElem?_modify]
  split
  · cases b.code[i]? <;> rfl
  · rfl

theorem shortAt?_patchShort (b : Blob) (offset : Nat) (n : UInt16) (h : offset + 1 < b.size) :
    (b.patchShort offset n).shortAt? offset = some n := by
  obtain ⟨high, hhigh⟩ := b.byteAt?_eq_some offset (by omega)
  obtain ⟨low, hlow⟩ := b.byteAt?_eq_some (offset + 1) h
  simp [shortAt?, patchShort, byteAt?_patchByte, hhigh, hlow, shortOfBytes_highByte_lowByte]

end Blob

end ScriptMachine
