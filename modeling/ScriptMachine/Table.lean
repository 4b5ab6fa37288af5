import ScriptMachine.Pool

/-!
Hash tables with open addressing. A slot is empty, a tombstone of a removed entry, or occupied.
A search starts at the slot of the hash, goes on over tombstones and other keys, and ends at the
key or at the first empty slot. The capacity is zero or a power of two from eight on, and at most
three quarters of the slots are used; when an insertion would use more, the live entries move to
fresh slots, as few as hold them.
-/

namespace ScriptMachine

/-- How an entry is read: as the stored value, or by calling it with the receiver. -/
inductive EntryKind where
  | value
  | getter
deriving DecidableEq, Repr, Inhabited

/-- A live entry with the hash of its key. -/
structure Entry where
  key : Value
  value : Value
  kind : EntryKind
  hash : UInt32
deriving Inhabited

inductive TableSlot where
  | empty
  | tombstone
  | occupied (entry : Entry)
deriving Inhabited

def TableSlot.entry? : TableSlot → Option Entry
  | occupied e => some e
  | _ => none

/-- Keys to values, by hash. -/
structure Table where
  slots : Array TableSlot := #[]
  /-- Occupied slots and tombstones. -/
  used : Nat := 0
  /-- Occupied slots. -/
  live : Nat := 0
deriving Inhabited

namespace Table

def empty : Table := {}

def leastCapacity : Nat := 8

def capacity (t : Table) : Nat := t.slots.size

def size (t : Table) : Nat := t.live

def isEmpty (t : Table) : Bool := t.live == 0

def tombstones (t : Table) : Nat := t.used - t.live

/-- Where a search ends: at an entry, or at the slot an insertion should take. -/
inductive Landing where
  | hit (index : Nat) (entry : Entry)
  | vacant (index : Nat)

/-- Searches at most `steps` slots from `index` on for an entry that `accept` takes. The slot for
an insertion is the first tombstone passed, or else the empty slot that ended the search. -/
def probe (slots : Array TableSlot) (accept : Entry → Bool) :
    (steps : Nat) → (index : Nat) → (grave : Option Nat) → Landing
  | 0, index, grave => .vacant (grave.getD index)
  | steps + 1, index, grave =>
    match slots[index]? with
    | some (.occupied e) =>
      if accept e then .hit index e
      else probe slots accept steps ((index + 1) % slots.size) grave
    | some .tombstone =>
      probe slots accept steps ((index + 1) % slots.size) (grave <|> some index)
    | _ => .vacant (grave.getD index)

/-- Searches from the slot of a hash over the whole table. -/
def seek (slots : Array TableSlot) (hash : UInt32) (accept : Entry → Bool) : Landing :=
  probe slots accept slots.size (hash.toNat % slots.size) none

/-- An entry holds the key if the hashes agree and the keys are the same. -/
def holdsKey (pool : Pool) (key : Value) (hash : UInt32) (e : Entry) : Bool :=
  e.hash == hash && pool.sameKey e.key key

/-- An entry holds the text if its key is a text with the same contents. -/
def holdsText (pool : Pool) (text : String) (hash : UInt32) (e : Entry) : Bool :=
  match pool.textOf? e.key with
  | some s => s.hash == hash && s.text == text
  | none => false

def entryAt? : Landing → Option Entry
  | .hit _ e => some e
  | .vacant _ => none

/-- The entry of a key. -/
def entry? (t : Table) (pool : Pool) (key : Value) : Option Entry :=
  if t.slots.isEmpty then none
  else
    let hash := pool.hashKey key
    entryAt? (seek t.slots hash (holdsKey pool key hash))

/-- The value of a key. -/
def get? (t : Table) (pool : Pool) (key : Value) : Option Value :=
  (t.entry? pool key).map Entry.value

/-- The entry of a text key by its contents; the text need not be interned. -/
def entryOfText? (t : Table) (pool : Pool) (text : String) : Option Entry :=
  if t.slots.isEmpty then none
  else
    let hash := Hash.text text
    entryAt? (seek t.slots hash (holdsText pool text hash))

/-- Whether `count` used slots are more than three quarters of `capacity`. -/
def exceedsLoad (count capacity : Nat) : Bool := decide (capacity * 3 < count * 4)

def nextCapacity (capacity : Nat) : Nat :=
  if capacity < leastCapacity then leastCapacity else capacity * 2

/-- Doubles the capacity until `count` entries fit; `fuel` bounds the doublings. -/
def capacityFor (count : Nat) : (fuel : Nat) → (capacity : Nat) → Nat
  | 0, capacity => capacity
  | fuel + 1, capacity =>
    if exceedsLoad count capacity then capacityFor count fuel (nextCapacity capacity) else capacity

/-- Puts an entry into the first empty slot from that of its hash on. -/
def place (slots : Array TableSlot) (e : Entry) : Array TableSlot :=
  match seek slots e.hash fun _ => false with
  | .vacant i => slots.setIfInBounds i (.occupied e)
  | .hit .. => slots

/-- Moves the live entries, in slot order, to `capacity` fresh slots. -/
def rebuild (t : Table) (capacity : Nat) : Table :=
  { slots :=
      t.slots.foldl (fun slots s => match s with | .occupied e => place slots e | _ => slots)
        (Array.replicate capacity .empty)
    used := t.live
    live := t.live }

/-- Makes room for one more used slot. -/
def reserve (t : Table) : Table :=
  if exceedsLoad (t.used + 1) t.capacity then
    t.rebuild (capacityFor (t.live + 1) (t.live + 2) t.capacity)
  else t

/-- Stores an entry under a key that the table does not hold. -/
def addFresh (t : Table) (pool : Pool) (e : Entry) : Table :=
  let t := t.reserve
  match seek t.slots e.hash (holdsKey pool e.key e.hash) with
  | .vacant i =>
    let used := match t.slots[i]? with | some .tombstone => t.used | _ => t.used + 1
    { slots := t.slots.setIfInBounds i (.occupied e), used, live := t.live + 1 }
  | .hit i _ => { t with slots := t.slots.setIfInBounds i (.occupied e), live := t.live + 1 }

/-- Stores a value under a key, and says whether the key is new. -/
def insert (t : Table) (pool : Pool) (key value : Value) (kind : EntryKind := .value) :
    Bool × Table :=
  let hash := pool.hashKey key
  let fresh : Entry := { key, value, kind, hash }
  if t.slots.isEmpty then (true, t.addFresh pool fresh)
  else
    match seek t.slots hash (holdsKey pool key hash) with
    | .hit i e =>
      (false, { t with slots := t.slots.setIfInBounds i (.occupied { e with key, value, kind }) })
    | .vacant _ => (true, t.addFresh pool fresh)

/-- Stores a value under a key. -/
def set (t : Table) (pool : Pool) (key value : Value) : Table := (t.insert pool key value).2

/-- Removes a key, and says whether it was there. -/
def erase (t : Table) (pool : Pool) (key : Value) : Bool × Table :=
  if t.live = 0 then (false, t)
  else
    let hash := pool.hashKey key
    match seek t.slots hash (holdsKey pool key hash) with
    | .hit i _ =>
      (true, { t with slots := t.slots.setIfInBounds i .tombstone, live := t.live - 1 })
    | .vacant _ => (false, t)

/-- The live entries in slot order. -/
def entries (t : Table) : List Entry := t.slots.toList.filterMap TableSlot.entry?

/-- Stores every entry of a list. -/
def insertAll (t : Table) (pool : Pool) (added : List Entry) : Table :=
  added.foldl (fun t e => (t.insert pool e.key e.value e.kind).2) t

/-- Stores every entry of another table. -/
def addAll (t : Table) (pool : Pool) (other : Table) : Table := t.insertAll pool other.entries

/-- The references held by keys and values, in slot order. -/
def refs (t : Table) : List Ref := t.entries.flatMap fun e => e.key.refs ++ e.value.refs

end Table

end ScriptMachine
