import Std.Data.HashMap
import ScriptMachine.Arena
import ScriptMachine.Value

/-!
Interned texts. Equal texts share one slot, so two live text references are equal exactly when
their texts are. An index from text to slot finds the slot of a text already held.
-/

namespace ScriptMachine

/-- A held text with its hash. -/
structure Interned where
  text : String
  hash : UInt32
deriving Repr

/-- The texts of a heap. -/
structure Pool where
  arena : Arena Interned := {}
  index : Std.HashMap String Nat := {}

namespace Pool

instance : Inhabited Pool := ⟨{}⟩

def empty : Pool := {}

/-- The bytes of a held text, where a word has 64 bits. -/
def footprint (text : String) : Nat := 24 + text.utf8ByteSize

/-- The slot of a text that is already held. -/
def lookup? (p : Pool) (text : String) : Option Nat := p.index[text]?

/-- The slot of a text, and whether it had to be created. -/
def intern (p : Pool) (text : String) : (Nat × Bool) × Pool :=
  match p.lookup? text with
  | some i => ((i, false), p)
  | none =>
    let (i, arena) := p.arena.allocate { text, hash := Hash.text text } (footprint text)
    ((i, true), { arena, index := p.index.insert text i })

/-- The text behind a reference. -/
def get? (p : Pool) : Ref → Option Interned
  | .text i => p.arena.get? i
  | .object _ => none

/-- The text a value refers to. -/
def textOf? (p : Pool) : Value → Option Interned
  | .ref r => p.get? r
  | _ => none

/-- The hash of the text in slot i, zero for a vacant slot. -/
def hashOf (p : Pool) (i : Nat) : UInt32 :=
  match p.arena.get? i with
  | some s => s.hash
  | none => 0

/-- Marks the text in slot i as reached. A text holds no references, so it is done at once. -/
def mark (p : Pool) (i : Nat) : Pool :=
  match p.arena.mark i with
  | (true, arena) => { p with arena := arena.blacken i }
  | (false, arena) => { p with arena }

def isMarked (p : Pool) (i : Nat) : Bool := p.arena.isMarked i

/-- Releases every text that was not reached and forgets its index entry. -/
def sweep (p : Pool) : Arena.Swept Interned × Pool :=
  let swept := p.arena.sweep
  let index := swept.released.foldl (fun index r => index.erase r.2.value.text) p.index
  (swept, { arena := swept.arena, index })

def size (p : Pool) : Nat := p.arena.live

/-- A text hashes by its contents, every other value by its identity. -/
def hashKey (p : Pool) (key : Value) : UInt32 :=
  match p.textOf? key with
  | some s => s.hash
  | none => key.identityHash

/-- Two keys are the same if they are one reference, or texts with the same contents, or equal
values. -/
def sameKey (p : Pool) (a b : Value) : Bool :=
  match a, b with
  | .ref r, .ref s =>
    if r = s then true
    else
      match p.get? r, p.get? s with
      | some x, some y => x.hash == y.hash && x.text == y.text
      | _, _ => false
  | _, _ => a.equals b

end Pool

end ScriptMachine
