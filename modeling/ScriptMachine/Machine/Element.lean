import ScriptMachine.Machine.Member
import ScriptMachine.Slice

/-!
Arrays, dicts, ranges and texts by position or key, and jumps through switch tables.
-/

namespace ScriptMachine.Machine

/-! Making containers. -/

def makeArray (count : Nat) : Exec Unit := do
  let items ← takeTop count
  push (← modifyGet fun m => m.alloc (.array items))

/-- Stores pairs of keys and values one after the other. -/
def insertPairs (r : Ref) : List Value → Exec Unit
  | key :: value :: rest => do
    insertIntoDict r key value
    insertPairs r rest
  | _ => return

def makeDict (count : Nat) : Exec Unit := do
  let items ← takeTop (count * 2)
  let r ← modifyGet fun m => let (r, heap) := m.heap.alloc (.dict {}); (r, { m with heap })
  insertPairs r items.toList
  push (.ref r)

def makeRange : Exec Unit := do
  let upper ← pop
  let lower ← pop
  match lower, upper with
  | .number lower, .number upper => push (← modifyGet fun m => m.alloc (.range { lower, upper }))
  | _, _ => misuse .rangeBounds

/-! Reading. -/

/-- A slice bound: nil is no bound, and what is neither nil nor a number is none at all. -/
def sliceBound? : Value → Option (Option Int)
  | .nil => some none
  | .number x => some (some (Binary64.toWord x))
  | _ => none

/-- Reads a slice of a text or an array. -/
def slice (receiver lower upper : Value) : Exec Value := do
  let m ← get
  match sliceBound? lower, sliceBound? upper with
  | some low, some high =>
    match m.heap.text? receiver with
    | some text =>
      modifyGet fun m => m.intern (String.ofList (Slice.ofList low high text.toList))
    | none =>
      match m.heap.object? receiver with
      | some (.array items) => modifyGet fun m => m.alloc (.array (Slice.ofArray low high items))
      | _ => misuse (.notSliceable (m.typeName receiver))
  | _, _ => misuse (.sliceBounds (m.typeName lower) (m.typeName upper))

/-- Reads by position: a number that is a position of the sequence. -/
def atPosition {α : Type} (sequence : Sequence) (index : Value) (length : Nat)
    (get? : Nat → Option α) : Exec α := do
  match index with
  | .number x =>
    match (Slice.resolve? x length).bind get? with
    | some a => return a
    | none => misuse (.position sequence (Binary64.toWord x) length)
  | _ => misuse (.positionType sequence)

/-- Reads one element of a container. -/
def element (receiver index : Value) : Exec Value := do
  let m ← get
  match m.heap.text? receiver with
  | some text =>
    let chars := text.toList
    let c ← atPosition .text index chars.length (chars[·]?)
    modifyGet fun m => m.intern c.toString
  | none =>
    match m.heap.object? receiver with
    | some (.array items) => atPosition .array index items.size (items[·]?)
    | some (.range r) => return .number (← atPosition .range index r.length r.get?)
    | some (.dict d) =>
      match d.table.get? m.heap.pool index with
      | some v => return v
      | none => misuse (.missingKey (m.heap.renderQuoted index))
    | _ => misuse (.notIndexable (m.typeName receiver))

/-- Whether a value can be sliced. -/
def isSliceable (m : Machine) (v : Value) : Bool :=
  v.isText ||
    match m.heap.object? v with
    | some (.array _) => true
    | _ => false

/-- Reads an element, or the slice that a range stands for. -/
def elementOrSlice (receiver index : Value) : Exec Value := do
  let m ← get
  match m.heap.object? index with
  | some (.range r) =>
    if m.isSliceable receiver then slice receiver (.number r.lower) (.number r.upper)
    else element receiver index
  | _ => element receiver index

/-- Pushes an element; the operands stay if an assignment follows. -/
def getIndex (willAssign : Bool) : Exec Unit := do
  let index ← peek 0
  let receiver ← peek 1
  let v ← elementOrSlice receiver index
  if !willAssign then drop 2
  push v

/-- Pushes a slice; the operands stay if an assignment follows. -/
def getSlice (willAssign : Bool) : Exec Unit := do
  let upper ← peek 0
  let lower ← peek 1
  let receiver ← peek 2
  let v ← slice receiver lower upper
  if !willAssign then drop 3
  push v

/-! Writing. -/

/-- An array after a write; one past the end appends. -/
def writeItem (items : Array Value) (index : Nat) (v : Value) : Array Value :=
  if index = items.size then items.push v else items.setIfInBounds index v

/-- Stores the value on top into the container below the index, and keeps the value alone. -/
def setIndex : Exec Unit := do
  let value ← peek 0
  let index ← peek 1
  let receiver ← peek 2
  let m ← get
  match receiver with
  | .ref (.object i) =>
    match m.heap.objects.get? i with
    | some (.array items) =>
      match index with
      | .number x =>
        match Slice.writeIndex? x items.size with
        | some slot =>
          set (m.update (.object i) fun
            | .array items => .array (writeItem items slot value)
            | o => o)
        | none => misuse (.position .array (Binary64.toWord x) items.size)
      | _ => misuse (.positionType .array)
    | some (.dict _) => insertIntoDict (.object i) index value
    | _ => misuse (.notIndexable (m.typeName receiver))
  | .ref (.text _) => misuse .immutableText
  | _ => misuse (.notIndexable (m.typeName receiver))
  drop 3
  push value

/-! Switches. -/

/-- Jumps to the case of a value. -/
def jumpToCase (table v : Value) : Exec Unit := do
  let m ← get
  match m.heap.object? table with
  | some (.switch s) => jumpBy (s.distance m.heap.pool v)
  | _ => breach .switchOperand

/-- Jumps to the case of the popped value. -/
def switchOn (table : Value) : Exec Unit := do jumpToCase table (← pop)

end ScriptMachine.Machine
