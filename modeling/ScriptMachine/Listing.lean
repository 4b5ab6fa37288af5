import ScriptMachine.Instruction
import ScriptMachine.Render
import ScriptMachine.Text.Padding

/-!
Listings of instruction streams. Each instruction is a line with its offset, its source line (a
bar if that is the line of the byte before), the operation and the operand. A byte that is no
operation gets a line of its own, and the listing goes on after it; an instruction that cannot be
decoded for another reason ends the listing.
-/

namespace ScriptMachine.Listing

/-- The text of a constant, between quotes if it is a text. -/
def constantText (h : Heap) (blob : Blob) (index : UInt16) : String :=
  match blob.constant? index with
  | some v => h.renderQuoted v
  | none => "<out of range>"

/-- A number in a column of eight characters after a space. -/
def column (text : String) : String := " " ++ Padding.left ' ' 8 text

/-- The lines of captured variables below a closure instruction. -/
def captureLines : (offset : Nat) → List Capture → String
  | _, [] => ""
  | offset, c :: rest =>
    "\n" ++ Padding.left '0' 4 (toString offset) ++ "      |                     " ++
      (if c.isLocal then "local" else "upvalue") ++ s!" {c.index}" ++ captureLines (offset + 3) rest

/-- The text of an operand. -/
def operandText (h : Heap) (blob : Blob) (i : Instruction) : String :=
  let const (index : UInt16) := column (toString index) ++ " " ++ constantText h blob index
  match i.operand with
  | .none => ""
  | .byte n => column (toString n)
  | .short n => column (toString n)
  | .const index => const index
  | .jump _ target => column (toString i.offset) ++ s!" -> {target}"
  | .tryRegion type handler finallyAt => column (toString type) ++ s!" -> {handler}, {finallyAt}"
  | .invoke name count => s!" ({count} args)" ++ const name
  | .constByte index flag => const index ++ (if flag = 0 then "" else " (static)")
  | .closure function captures => const function ++ captureLines (i.offset + 3) captures

/-- The offset and the source line at the start of a line. -/
def margin (blob : Blob) (offset : Nat) : String :=
  let line := (blob.lineAt? offset).getD 0
  let same := 0 < offset && blob.lineAt? (offset - 1) == some line
  Padding.left '0' 8 (toString offset) ++ column (if same then "|" else toString line) ++ " "

/-- The line of the instruction at an offset, and the offset after it. -/
def line (h : Heap) (blob : Blob) (offset : Nat) : String × Nat :=
  match Instruction.decode h.captured? blob offset with
  | .ok i =>
    let text := margin blob offset ++ Padding.right 16 i.op.name ++ operandText h blob i
    (Padding.trimEnd text, i.next)
  | .error (.unknownOpcode byte) =>
    (margin blob offset ++ (Defect.unknownOpcode byte).message, offset + 1)
  | .error defect => (margin blob offset ++ defect.message, blob.size)

/-- The lines from an offset on, after those already written. -/
def linesFrom (h : Heap) (blob : Blob) : (fuel offset : Nat) → (done : String) → String
  | 0, _, done => done
  | fuel + 1, offset, done =>
    if blob.size ≤ offset then done
    else
      let (text, next) := line h blob offset
      linesFrom h blob fuel next (done ++ text ++ "\n")

/-- The whole listing under its name. Every line covers a byte. -/
def render (h : Heap) (blob : Blob) (name : String) : String :=
  linesFrom h blob blob.size 0 s!"== {name} ==\n"

end ScriptMachine.Listing
