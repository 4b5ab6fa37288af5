/-!
Slots for collected values. A slot is addressed by its index and keeps that index for as long
as it is occupied; a freed slot is used again before the arena grows. Each occupied slot has the
colour of the current collection cycle and the size it was allocated with.
-/

namespace ScriptMachine

/-- How far a collection cycle has come with a slot. -/
inductive Colour where
  /-- Not reached in this cycle. -/
  | white
  /-- Reached, but its references are not yet followed. -/
  | gray
  /-- Reached, and its references are followed. -/
  | black
deriving DecidableEq, Repr, Inhabited

/-- The contents of an occupied slot. -/
structure Cell (α : Type) where
  value : α
  size : Nat
  colour : Colour := .white
deriving Repr

def Cell.isMarked {α : Type} (c : Cell α) : Bool := c.colour != .white

/-- Occupied and vacant slots, the vacant ones in the order they will be used. -/
structure Arena (α : Type) where
  slots : Array (Option (Cell α)) := #[]
  free : List Nat := []
  live : Nat := 0

namespace Arena

variable {α : Type}

instance : Inhabited (Arena α) := ⟨{}⟩

def empty : Arena α := {}

def cell? (a : Arena α) (i : Nat) : Option (Cell α) := a.slots[i]?.join

/-- The value in slot i, if the slot is occupied. -/
def get? (a : Arena α) (i : Nat) : Option α := (a.cell? i).map Cell.value

def isEmpty (a : Arena α) : Bool := a.live == 0

/-- Stores a value in the slot that was freed last, or in a new slot. -/
def allocate (a : Arena α) (value : α) (size : Nat) : Nat × Arena α :=
  match a.free with
  | i :: rest =>
    let slots := a.slots.setIfInBounds i (some { value, size })
    (i, { slots, free := rest, live := a.live + 1 })
  | [] =>
    let slots := a.slots.push (some { value, size })
    (a.slots.size, { a with slots, live := a.live + 1 })

/-- Applies f to the cell in slot i, if the slot is occupied. -/
def modifyCell (a : Arena α) (i : Nat) (f : Cell α → Cell α) : Arena α :=
  { a with slots := a.slots.modify i (Option.map f) }

/-- Applies f to the value in slot i, if the slot is occupied. -/
def modify (a : Arena α) (i : Nat) (f : α → α) : Arena α :=
  a.modifyCell i fun c => { c with value := f c.value }

/-- Whether slot i was reached in this cycle. -/
def isMarked (a : Arena α) (i : Nat) : Bool := (a.cell? i).any Cell.isMarked

def isWhite (a : Arena α) (i : Nat) : Bool := (a.cell? i).any fun c => c.colour == .white

/-- Shades a white slot gray, and says whether it did. -/
def mark (a : Arena α) (i : Nat) : Bool × Arena α :=
  if a.isWhite i then (true, a.modifyCell i fun c => { c with colour := .gray }) else (false, a)

/-- Shades an occupied slot black. -/
def blacken (a : Arena α) (i : Nat) : Arena α :=
  a.modifyCell i fun c => { c with colour := .black }

/-- A slot after a sweep: white cells are gone, all others are white again. -/
def sweptSlot : Option (Cell α) → Option (Cell α)
  | some c => if c.isMarked then some { c with colour := .white } else none
  | none => none

/-- The white cells with their slots, in slot order. -/
def unreached (a : Arena α) : List (Nat × Cell α) :=
  a.slots.toList.zipIdx.filterMap fun
    | (some c, i) => if c.isMarked then none else some (i, c)
    | (none, _) => none

/-- What a sweep did. -/
structure Swept (α : Type) where
  arena : Arena α
  /-- The released cells with their slots, in slot order. -/
  released : List (Nat × Cell α)

def Swept.bytes (s : Swept α) : Nat := s.released.foldl (fun n r => n + r.2.size) 0

/-- Releases every white slot and turns the others white. -/
def sweep (a : Arena α) : Swept α :=
  let released := a.unreached
  { arena :=
      { slots := a.slots.map sweptSlot
        free := (released.map Prod.fst).reverse ++ a.free
        live := a.live - released.length }
    released }

/-- The occupied slots in slot order. -/
def toList (a : Arena α) : List (Nat × α) :=
  a.slots.toList.zipIdx.filterMap fun
    | (some c, i) => some (i, c.value)
    | (none, _) => none

/-! What the operations do to a slot. -/

theorem cell?_modifyCell (a : Arena α) (i j : Nat) (f : Cell α → Cell α) :
    (a.modifyCell i f).cell? j = if i = j then (a.cell? j).map f else a.cell? j := by
  simp only [cell?, modifyCell, Array.getElem?_modify]
  split
  · cases a.slots[j]? <;> rfl
  · rfl

theorem get?_modify (a : Arena α) (i j : Nat) (f : α → α) :
    (a.modify i f).get? j = if i = j then (a.get? j).map f else a.get? j := by
  simp only [get?, modify, cell?_modifyCell]
  split
  · cases a.cell? j <;> rfl
  · rfl

/-- Marking changes no value. -/
theorem get?_mark (a : Arena α) (i j : Nat) : (a.mark i).2.get? j = a.get? j := by
  unfold mark
  split
  · simp only [get?, cell?_modifyCell]
    split
    · cases a.cell? j <;> rfl
    · rfl
  · rfl

theorem get?_blacken (a : Arena α) (i j : Nat) : (a.blacken i).get? j = a.get? j := by
  simp only [get?, blacken, cell?_modifyCell]
  split
  · cases a.cell? j <;> rfl
  · rfl

theorem cell?_sweep (a : Arena α) (i : Nat) : a.sweep.arena.cell? i = sweptSlot (a.cell? i) := by
  simp only [cell?, sweep, Array.getElem?_map]
  cases a.slots[i]? <;> rfl

end Arena

end ScriptMachine
