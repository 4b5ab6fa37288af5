import ScriptMachine.Prototype
import ScriptMachine.Range
import ScriptMachine.Table

/-!
Objects of the heap. They refer to one another only through references, so the references of
an object are all that a collection needs to know of it.
-/

namespace ScriptMachine

/-- A closure: a function with the cells of its captured variables. -/
structure Closure where
  function : Ref
  proto : Prototype
  upvalues : List Ref

/-- The cell of a captured variable. -/
inductive Upvalue where
  /-- The variable still lives in this slot of the stack. -/
  | opened (slot : Nat)
  /-- The cell holds the value itself. -/
  | closed (value : Value)
deriving DecidableEq

/-- What a native function does. -/
inductive Routine where
  /-- The constructor of the built-in exceptions. -/
  | exceptionInit
  /-- A routine of the embedding host, by name. -/
  | host (name : String)
deriving DecidableEq, Repr

/-- A function of the host. -/
structure NativeFunction where
  name : String
  /-- The exact number of arguments, if it is fixed. -/
  arity : Option Nat
  routine : Routine
deriving DecidableEq, Repr

/-- A method with the receiver it was read from. -/
structure BoundMethod where
  receiver : Value
  method : Value

structure Class where
  name : String
  superclass : Option Ref := none
  methods : Table := {}
  staticMethods : Table := {}
  /-- Fields every new instance starts with. -/
  defaults : Table := {}
  statics : Table := {}
  constructor? : Option Value := none

structure Instance where
  cls : Ref
  fields : Table := {}

/-- A dictionary: its keys in the order of their first insertion, and the table. -/
structure Dict where
  keys : Array Value := #[]
  table : Table := {}

/-- The targets of a multi-way jump, relative to the end of the instruction. -/
structure SwitchTable where
  /-- Case values to distances; the distances are stored as numbers. -/
  cases : Table := {}
  default? : Option Nat := none
  exit : Nat := 0

namespace SwitchTable

/-- How far a switch jumps for a value. -/
def distance (s : SwitchTable) (pool : Pool) (v : Value) : Nat :=
  match s.cases.get? pool v with
  | some (.number x) => Binary64.toCount x
  | _ => s.default?.getD s.exit

/-- Every distance of a switch: its cases, its default and its exit. -/
def distances (s : SwitchTable) : List Nat :=
  (s.cases.entries.filterMap fun e => e.value.number?.map Binary64.toCount) ++
    s.default?.toList ++ [s.exit]

end SwitchTable

/-- An object of the heap. -/
inductive Object where
  | function (proto : Prototype)
  | closure (c : Closure)
  | upvalue (u : Upvalue)
  | native (n : NativeFunction)
  | bound (b : BoundMethod)
  | cls (c : Class)
  | inst (i : Instance)
  | array (items : Array Value)
  | dict (d : Dict)
  | range (r : Range)
  | switch (s : SwitchTable)

namespace Object

/-- The name of the object's type. -/
def typeName : Object → String
  | function _ | closure _ | native _ | bound _ => "function"
  | upvalue _ => "upvalue"
  | cls _ => "class"
  | inst _ => "instance"
  | array _ => "array"
  | dict _ => "dict"
  | range _ => "range"
  | switch _ => "switch"

def isCallable : Object → Bool
  | closure _ | native _ | bound _ | cls _ => true
  | _ => false

def isClass : Object → Bool
  | cls _ => true
  | _ => false

/-- The references an object holds. -/
def refs : Object → List Ref
  | function proto => proto.blob.constants.toList.flatMap Value.refs
  | closure c => c.function :: c.upvalues
  | upvalue (.opened _) => []
  | upvalue (.closed v) => v.refs
  | native _ => []
  | bound b => b.receiver.refs ++ b.method.refs
  | cls c =>
    c.superclass.toList ++ c.methods.refs ++ c.staticMethods.refs ++ c.defaults.refs ++
      c.statics.refs ++ (c.constructor?.map Value.refs).getD []
  | inst i => i.cls :: i.fields.refs
  | array items => items.toList.flatMap Value.refs
  | dict d => d.keys.toList.flatMap Value.refs ++ d.table.refs
  | range _ => []
  | switch s => s.cases.refs

/-! The bytes taken by what is held, where a word has 64 bits. Collections are paced by them. -/

/-- The bytes of a value. -/
def valueBytes : Nat := 16

/-- The bytes of the slots of a table, each with a key, a value and a hash. -/
def tableBytes (t : Table) : Nat := t.capacity * (valueBytes * 2 + 8)

/-- The bytes of an object when it is stored: those that every object takes, and those of the
sequences and tables it comes with, which have no room to spare then. -/
def footprint (o : Object) : Nat :=
  208 + match o with
    | function proto => proto.blob.code.size * 8 + proto.blob.constants.size * valueBytes
    | closure c => c.upvalues.length * 4
    | cls c =>
      tableBytes c.methods + tableBytes c.staticMethods + tableBytes c.defaults +
        tableBytes c.statics
    | inst i => tableBytes i.fields
    | array items => items.size * valueBytes
    | dict d => d.keys.size * valueBytes + tableBytes d.table
    | switch s => tableBytes s.cases
    | upvalue _ | native _ | bound _ | range _ => 0

end Object

end ScriptMachine
