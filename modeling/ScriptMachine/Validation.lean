import Std.Data.HashSet
import ScriptMachine.Heap
import ScriptMachine.Instruction

/-!
Checking instruction streams before they run. A stream is well formed if it decodes from start to
end, every constant an instruction refers to exists and has the right kind, and every address an
instruction can go to is the start of an instruction or the end of the stream. A stream is valid
if it and all streams of functions that can be reached through constants are well formed.
-/

namespace ScriptMachine.Validation

/-- What a constant operand must be. -/
inductive Expected where
  | any
  | name
  | nameOrNil
  | switch
deriving DecidableEq, Repr

/-- The constant an instruction refers to and what it must be. -/
def expected? (i : Instruction) : Option (UInt16 × Expected) :=
  match i.operand with
  | .const index =>
    match i.op with
    | .pushConst => some (index, .any)
    | .switch => some (index, .switch)
    | _ => some (index, .name)
  | .invoke name _ => some (name, .name)
  | .constByte index _ => some (index, .name)
  | .tryRegion type _ _ => some (type, .nameOrNil)
  | .closure function _ => some (function, .any)
  | _ => none

def switchTable? (h : Heap) (v : Value) : Option SwitchTable :=
  match h.object? v with
  | some (.switch s) => some s
  | _ => none

/-- Whether a constant is what an instruction needs. -/
def Expected.admits (h : Heap) (v : Value) : Expected → Bool
  | any => true
  | name => (h.text? v).isSome
  | nameOrNil => v.isNil || (h.text? v).isSome
  | switch => (switchTable? h v).isSome

/-- The defect of an instruction's constant operand. -/
def constantDefect? (h : Heap) (blob : Blob) (i : Instruction) : Option Defect :=
  match expected? i with
  | none => none
  | some (index, expected) =>
    match blob.constant? index with
    | none => some (.constantOutOfPool i.op index.toNat blob.constants.size)
    | some v => if expected.admits h v then none else some (.constantKind i.op index.toNat)

/-- The defect of an instruction's addresses, where `lands` knows the good ones. -/
def addressDefect? (h : Heap) (blob : Blob) (lands : Nat → Bool) (i : Instruction) :
    Option Defect :=
  match i.operand with
  | .jump _ target =>
    if 0 ≤ target ∧ lands target.toNat then none else some (.jumpTarget target)
  | .tryRegion _ handler finallyAt =>
    ([handler.toNat, finallyAt.toNat].find? fun a => a != 0 && !lands a).map .tryAddress
  | .const index =>
    if i.op = .switch then
      match (blob.constant? index).bind (switchTable? h) with
      | some s =>
        (s.distances.find? fun d => !lands (i.next + d)).map fun d => .switchTarget (i.next + d)
      | none => none
    else none
  | _ => none

/-- The first defect of a stream by itself, with the offset of its instruction. -/
def localDefect? (h : Heap) (blob : Blob) : Option (Nat × Defect) :=
  let decoding := Instruction.decodeAll h.captured? blob
  match decoding.defect? with
  | some found => some found
  | none =>
    let starts := decoding.instructions.foldl (fun s i => s.insert i.offset) (∅ : Std.HashSet Nat)
    let lands (target : Nat) : Bool := target == blob.size || starts.contains target
    decoding.instructions.toList.findSome? fun i =>
      (constantDefect? h blob i <|> addressDefect? h blob lands i).map fun d => (i.offset, d)

/-- The first defect of the functions among `todo` and of what they refer to, depth first.
`unseen` are the object slots not visited yet. -/
def functionDefect? (h : Heap) : (unseen : List Nat) → (todo : List Value) → Option (Nat × Defect)
  | _, [] => none
  | unseen, .ref (.object i) :: rest =>
    match h.objects.get? i with
    | some (.function proto) =>
      if _ : i ∈ unseen then
        match localDefect? h proto.blob with
        | some found => some found
        | none => functionDefect? h (unseen.erase i) (proto.blob.constants.toList ++ rest)
      else functionDefect? h unseen rest
    | _ => functionDefect? h unseen rest
  | unseen, _ :: rest => functionDefect? h unseen rest
termination_by unseen todo => (unseen.length, todo.length)
decreasing_by
  · apply Prod.Lex.left
    have hi : i ∈ unseen := ‹_›
    have := List.length_pos_of_mem hi
    rw [List.length_erase_of_mem hi]
    omega
  · exact Prod.Lex.right _ (by simp)
  · exact Prod.Lex.right _ (by simp)
  · exact Prod.Lex.right _ (by simp)

/-- Checks a stream and every function it can reach. -/
def check (h : Heap) (blob : Blob) : Except Fault Unit :=
  let found :=
    match localDefect? h blob with
    | some found => some found
    | none => functionDefect? h (List.range h.objects.slots.size) blob.constants.toList
  match found with
  | some (offset, defect) => .error (.malformed offset defect)
  | none => .ok ()

end ScriptMachine.Validation
