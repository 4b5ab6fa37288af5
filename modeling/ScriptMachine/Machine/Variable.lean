import ScriptMachine.Machine.State

/-!
Captured variables. While its slot is on the stack a captured variable has one open cell, so all
closures that capture the slot share it. Closing a cell copies the value of the slot into it.
-/

namespace ScriptMachine

/-- The slot of an open cell. -/
def Heap.openSlot? (h : Heap) (r : Ref) : Option Nat :=
  match h.get? r with
  | some (.upvalue (.opened slot)) => some slot
  | _ => none

/-- Closes the cells from a slot on; the highest slots come first. What is not an open cell is
dropped. -/
def closeCells (stack : Array Value) (start : Nat) : List Ref → Heap → List Ref × Heap
  | [], h => ([], h)
  | r :: rest, h =>
    match h.openSlot? r with
    | some slot =>
      if slot < start then (r :: rest, h)
      else
        let value := stack.getD slot .nil
        closeCells stack start rest (h.update r fun _ => .upvalue (.closed value))
    | none => closeCells stack start rest h

namespace Machine

/-- Closes every captured variable in a slot from `start` on. -/
def closeUpvalues (m : Machine) (start : Nat) : Machine :=
  let (openUpvalues, heap) := closeCells m.stack start m.openUpvalues m.heap
  { m with openUpvalues, heap }

/-- Whether the open cell behind a reference has a slot above a given one. -/
def isAbove (h : Heap) (slot : Nat) (r : Ref) : Bool := (h.openSlot? r).any fun s => slot < s

/-- The open cell of a slot, made if there is none. -/
def captureSlot (m : Machine) (slot : Nat) : Ref × Machine :=
  let above := m.openUpvalues.takeWhile (isAbove m.heap slot)
  let rest := m.openUpvalues.dropWhile (isAbove m.heap slot)
  match rest.head?.filter fun r => m.heap.openSlot? r == some slot with
  | some r => (r, m)
  | none =>
    let (r, heap) := m.heap.alloc (.upvalue (.opened slot))
    (r, { m with heap, openUpvalues := above ++ r :: rest })

/-- The cell at an index of the running closure. -/
def frameUpvalue (index : Nat) : Exec Ref := do
  let f ← frame
  match (← get).heap.get? f.closure with
  | some (.closure c) =>
    match c.upvalues[index]? with
    | some r => return r
    | none => breach (.upvalueIndex index)
  | _ => breach .frameWithoutClosure

/-- Reads a captured variable of the running closure. -/
def readUpvalue (index : Nat) : Exec Value := do
  let r ← frameUpvalue index
  let m ← get
  match m.heap.get? r with
  | some (.upvalue (.opened slot)) =>
    match m.stack[slot]? with
    | some v => return v
    | none => breach .upvaluePastTop
  | some (.upvalue (.closed v)) => return v
  | _ => breach .notAnUpvalue

/-- Writes a captured variable of the running closure. -/
def writeUpvalue (index : Nat) (v : Value) : Exec Unit := do
  let r ← frameUpvalue index
  let m ← get
  match m.heap.get? r with
  | some (.upvalue (.opened slot)) =>
    if slot < m.stack.size then setSlot slot v else breach .upvaluePastTop
  | some (.upvalue (.closed _)) => set (m.update r fun _ => .upvalue (.closed v))
  | _ => breach .notAnUpvalue

/-- Reads the captures of a closure instruction and finds their cells. -/
def captureAll (base : Nat) : (count : Nat) → Exec (List Ref)
  | 0 => return []
  | count + 1 => do
    let flag ← fetchByte
    let index ← fetchShort
    let cell ←
      if flag != 0 then modifyGet fun m => m.captureSlot (base + index.toNat)
      else frameUpvalue index.toNat
    return cell :: (← captureAll base count)

/-- Makes a closure of a function and reads its captures. -/
def closeOver (function : Ref) : Exec Unit := do
  match (← get).heap.get? function with
  | some (.function proto) =>
    let base := (← frame).base
    let upvalues ← captureAll base proto.captured
    let c ← modifyGet fun m => m.alloc (.closure { function, proto, upvalues })
    push c
  | _ => breach .closureOperand

/-- Makes a closure of a function constant. -/
def makeClosure : Exec Unit := do
  match ← fetchConstant with
  | .ref function => closeOver function
  | _ => breach .closureOperand

/-- Closes the variable in the top slot and drops it. -/
def closeTop : Exec Unit := do
  let m ← get
  if m.stack.isEmpty then breach .stackUnderflow
  else
    set (m.closeUpvalues (m.stack.size - 1))
    let _ ← pop

end Machine

end ScriptMachine
