import ScriptMachine.Object

/-!
The collected heap: an arena of objects and a pool of texts. A collection shades the roots,
follows the references of gray objects until none is left, and releases what stayed white. Gray
objects wait in a list; an object enters it when it turns from white to gray, so it enters once.
-/

namespace ScriptMachine

/-- Objects and texts, and when to collect them. -/
structure Heap where
  objects : Arena Object := {}
  pool : Pool := {}
  /-- Objects whose references are not yet followed. -/
  gray : List Nat := []
  /-- The bytes of what is held now. -/
  allocated : Nat := 0
  /-- A collection is due above so many bytes. -/
  threshold : Nat := 0
  leastThreshold : Nat := 0
  /-- The next threshold is the bytes held after a collection times this. -/
  growth : Nat := 1
  /-- Collect at every opportunity. -/
  stress : Bool := false
deriving Inhabited

namespace Heap

/-- An empty heap. -/
def new (threshold growth : Nat) (stress : Bool) : Heap :=
  { threshold, leastThreshold := threshold, growth := max growth 1, stress }

/-- Stores an object. -/
def alloc (h : Heap) (o : Object) : Ref × Heap :=
  let size := o.footprint
  let (i, objects) := h.objects.allocate o size
  (.object i, { h with objects, allocated := h.allocated + size })

/-- The reference of a text. -/
def intern (h : Heap) (text : String) : Ref × Heap :=
  let ((i, created), pool) := h.pool.intern text
  let cost := if created then Pool.footprint text else 0
  (.text i, { h with pool, allocated := h.allocated + cost })

/-- The object behind a reference. -/
def get? (h : Heap) : Ref → Option Object
  | .object i => h.objects.get? i
  | .text _ => none

/-- The object behind a value. -/
def object? (h : Heap) : Value → Option Object
  | .ref r => h.get? r
  | _ => none

/-- Changes the object behind a reference, if there is one. -/
def update (h : Heap) (r : Ref) (f : Object → Object) : Heap :=
  match r with
  | .object i => { h with objects := h.objects.modify i f }
  | .text _ => h

def class? (h : Heap) (r : Ref) : Option Class :=
  match h.get? r with
  | some (.cls c) => some c
  | _ => none

def isClass (h : Heap) (r : Ref) : Bool := (h.get? r).any Object.isClass

/-- The text behind a value. -/
def text? (h : Heap) (v : Value) : Option String := (h.pool.textOf? v).map Interned.text

/-- How many variables a closure of this constant captures, if the constant is a function. -/
def captured? (h : Heap) (v : Value) : Option Nat :=
  match h.object? v with
  | some (.function proto) => some proto.captured
  | _ => none

/-- The name of a value's type. -/
def typeName (h : Heap) : Value → String
  | .nil => "null"
  | .bool _ => "boolean"
  | .number _ => "number"
  | .ref (.text _) => "string"
  | .ref r =>
    match h.get? r with
    | some o => o.typeName
    | none => "object"

/-- Nil, false, negative numbers and empty texts, arrays and dicts are falsy. -/
def isFalsy (h : Heap) (v : Value) : Bool :=
  match v with
  | .nil => true
  | .bool b => !b
  | .number x => x < 0
  | .ref (.text _) => (h.text? v).all String.isEmpty
  | .ref r =>
    match h.get? r with
    | some (.array items) => items.isEmpty
    | some (.dict d) => d.keys.isEmpty
    | _ => false

/-! Collection. -/

/-- Whether the heap has grown past its threshold. -/
def isDue (h : Heap) : Bool := h.stress || decide (h.threshold < h.allocated)

/-- Shades what a reference leads to. -/
def mark (h : Heap) : Ref → Heap
  | .text i => { h with pool := h.pool.mark i }
  | .object i =>
    let (changed, objects) := h.objects.mark i
    { h with objects, gray := if changed then i :: h.gray else h.gray }

def markAll (h : Heap) (refs : List Ref) : Heap := refs.foldl mark h

/-- Follows the references of one gray object. -/
def scan (h : Heap) (i : Nat) : Heap :=
  let refs := ((h.objects.get? i).map Object.refs).getD []
  ({ h with objects := h.objects.blacken i } : Heap).markAll refs

/-- Scans gray objects, newest first, at most `fuel` of them. -/
def traceWith : (fuel : Nat) → Heap → Heap
  | 0, h => h
  | fuel + 1, h =>
    match h.gray with
    | [] => h
    | i :: rest => traceWith fuel (({ h with gray := rest } : Heap).scan i)

/-- Scans gray objects until none is left. Each slot turns gray at most once, so their number
bounds the work. -/
def trace (h : Heap) : Heap := h.traceWith (h.gray.length + h.objects.slots.size)

/-- What a collection released. -/
structure Released where
  objects : Nat
  texts : Nat
deriving DecidableEq, Repr

/-- Releases everything white and sets the next threshold. -/
def sweep (h : Heap) : Released × Heap :=
  let objects := h.objects.sweep
  let (texts, pool) := h.pool.sweep
  let allocated := h.allocated - (objects.bytes + texts.bytes)
  ({ objects := objects.released.length, texts := texts.released.length },
    { h with
      objects := objects.arena
      pool
      allocated
      threshold := max (allocated * h.growth) h.leastThreshold })

/-- Whether what a reference leads to was reached in this cycle. -/
def isMarked (h : Heap) : Ref → Bool
  | .text i => h.pool.isMarked i
  | .object i => h.objects.isMarked i

/-- A whole collection from the given roots. -/
def collect (h : Heap) (roots : List Ref) : Released × Heap := (h.markAll roots).trace.sweep

end Heap

end ScriptMachine
