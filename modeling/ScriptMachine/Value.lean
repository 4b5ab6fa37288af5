import ScriptMachine.Hash

/-!
The values of a script. Numbers and truth values are held directly; texts and objects are
references to slots of the heap.
-/

namespace ScriptMachine

/-- A slot of the heap: one of the object arena or one of the text pool. -/
inductive Ref where
  | object (index : Nat)
  | text (index : Nat)
deriving DecidableEq, Repr, Inhabited

namespace Ref

/-- A packed reference has 31 bits for the index; the top bit marks texts. -/
def indexLimit : Nat := Nat.pow 2 31

def index : Ref → Nat
  | object i => i
  | text i => i

def isText : Ref → Bool
  | object _ => false
  | text _ => true

/-- The packed form of a reference. -/
def bits : Ref → Nat
  | object i => i % indexLimit
  | text i => i % indexLimit + indexLimit

/-- The object reference with a given index field. -/
def packedObject (i : Nat) : Ref := object (i % indexLimit)

/-- The text reference with a given index field. -/
def packedText (i : Nat) : Ref := text (i % indexLimit)

end Ref

/-- A script value. -/
inductive Value where
  | nil
  | bool (b : Bool)
  | number (x : Float)
  | ref (r : Ref)
deriving DecidableEq, Inhabited

namespace Value

/-- Equality as scripts see it: numbers compare as numbers, so NaN differs from itself and the
two zeros agree, and references compare by identity. -/
def equals : Value → Value → Bool
  | nil, nil => true
  | bool a, bool b => a == b
  | number x, number y => x == y
  | ref r, ref s => r == s
  | _, _ => false

def isNil : Value → Bool
  | nil => true
  | _ => false

def isBool : Value → Bool
  | bool _ => true
  | _ => false

def isNumber : Value → Bool
  | number _ => true
  | _ => false

def isRef : Value → Bool
  | ref _ => true
  | _ => false

def isText : Value → Bool
  | ref r => r.isText
  | _ => false

def number? : Value → Option Float
  | number x => some x
  | _ => none

def ref? : Value → Option Ref
  | ref r => some r
  | _ => none

/-- The hash of a value by its identity. -/
def identityHash : Value → UInt32
  | nil => 0
  | bool true => 3
  | bool false => 5
  | number x => Hash.number x
  | ref r => Hash.mix (UInt64.ofNat r.bits)

/-- The references a value holds: itself, or nothing. -/
def refs (v : Value) : List Ref := v.ref?.toList

end Value

end ScriptMachine
