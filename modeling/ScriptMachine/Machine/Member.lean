import ScriptMachine.Machine.Call

/-!
Classes, properties and methods. A name is looked for among the fields of an instance and then
among the methods of its class; on a class among its static methods and properties; on a dict
among its entries; and on numbers, texts, arrays, dicts, ranges and functions among the methods of
their common class. A name that begins with an underscore is private.
-/

namespace ScriptMachine

/-- The kind of a value that has a class of its own. -/
def Heap.primitive? (h : Heap) : Value → Option Primitive
  | .number _ => some .number
  | .ref (.text _) => some .text
  | .ref r =>
    match h.get? r with
    | some (.array _) => some .array
    | some (.dict _) => some .dict
    | some (.range _) => some .range
    | some (.function _) | some (.closure _) | some (.native _) | some (.bound _) => some .function
    | _ => none
  | _ => none

/-- Whether a name begins with an underscore. -/
def Heap.isPrivate (h : Heap) (name : Value) : Bool :=
  (h.text? name).any fun text => text.startsWith "_"

/-- The entry of a name among the static methods and properties of a class. -/
def Class.static? (c : Class) (pool : Pool) (name : Value) : Option Entry :=
  c.staticMethods.entry? pool name <|> c.statics.entry? pool name

/-- A class after it inherits: the methods and defaults of the superclass are stored into its own
tables, and it takes the constructor if it has none. -/
def Class.inheriting (c : Class) (pool : Pool) (superclass : Value) (parent : Class) : Class :=
  { c with
    methods := c.methods.addAll pool parent.methods
    defaults := c.defaults.addAll pool parent.defaults
    constructor? := c.constructor? <|> parent.constructor?
    superclass := superclass.ref? }

/-- Stores an entry of a dict. A new key goes to the end of the keys. -/
def Dict.insert (d : Dict) (pool : Pool) (key value : Value) : Dict :=
  match d.table.insert pool key value with
  | (true, table) => { keys := d.keys.push key, table }
  | (false, table) => { d with table }

namespace Machine

/-- A method of the class of a primitive value. -/
def primitiveMethod (receiver name : Value) : Exec (Option Entry) := do
  let m ← get
  match m.heap.primitive? receiver with
  | some p => settle (m.heap.findMethod (m.builtins.primitive p) name)
  | none => return none

def findMethod (cls : Ref) (name : Value) : Exec (Option Entry) := do
  settle ((← get).heap.findMethod cls name)

/-- The entry of an instance's own field. -/
def fieldEntry? (m : Machine) (receiver name : Value) : Option Entry :=
  match m.heap.object? receiver with
  | some (.inst i) => i.fields.entry? m.heap.pool name
  | _ => none

/-- The entry of a dict. -/
def dictEntry? (m : Machine) (receiver name : Value) : Option Entry :=
  match m.heap.object? receiver with
  | some (.dict d) => d.table.entry? m.heap.pool name
  | _ => none

def classOf? (m : Machine) (v : Value) : Option Class :=
  match m.heap.object? v with
  | some (.cls c) => some c
  | _ => none

/-- Pops a class. -/
def popClass : Exec Ref := do
  match ← pop with
  | .ref r => if (← get).heap.isClass r then return r else breach .superclassOperand
  | _ => breach .superclassOperand

/-- Changes the class behind a value. -/
def modifyClass (v : Value) (g : Pool → Class → Class) : Exec Unit := do
  let m ← get
  match v with
  | .ref r =>
    if m.heap.isClass r then
      let pool := m.heap.pool
      set (m.update r fun
        | .cls c => .cls (g pool c)
        | o => o)
    else breach .classOperand
  | _ => breach .classOperand

/-! Invocation. -/

/-- Runs a native getter. -/
def runGetter (host : Host) (receiver getter : Value) : Exec Value := do
  match (← get).heap.callee? getter with
  | some (.native n) => runRoutine host n.routine receiver #[]
  | _ => breach .getterOperand

/-- Calls the value that a property yields. -/
def invokeProperty (host : Host) (receiver : Value) (e : Entry) (count : Nat) : Exec Unit := do
  let value ←
    match e.kind with
    | .value => pure e.value
    | .getter => runGetter host receiver e.value
  setSlot (← calleeSlot count) value
  callValue host value count

/-- Calls a method on the receiver, or the value that a getter yields. -/
def invokeMethod (host : Host) (receiver : Value) (e : Entry) (count : Nat) : Exec Unit :=
  match e.kind with
  | .value => callValue host e.value count
  | .getter => invokeProperty host receiver e count

/-- Calls a named method of an instance. -/
def invokeOnInstance (host : Host) (receiver : Value) (cls : Ref) (name : Value) (count : Nat)
    (fromSelf : Bool) : Exec Unit := do
  let m ← get
  match m.fieldEntry? receiver name with
  | some e => invokeProperty host receiver e count
  | none =>
    if !fromSelf && m.heap.isPrivate name then
      misuse (.privateMethod (m.nameText name) (m.heap.className cls))
    else
      match ← findMethod cls name with
      | some e => invokeMethod host receiver e count
      | none => misuse (.noMethod (m.heap.className cls) (m.nameText name))

/-- Calls a named method of the receiver below `count` arguments. -/
def invoke (host : Host) (name : Value) (count : Nat) (fromSelf : Bool) : Exec Unit := do
  let receiver ← peek count
  let base ← calleeSlot count
  let m ← get
  match m.heap.instanceClass? receiver with
  | some cls => invokeOnInstance host receiver cls name count fromSelf
  | none =>
    match m.classOf? receiver with
    | some c =>
      match c.static? m.heap.pool name with
      | some e => callValue host e.value count
      | none => misuse (.noStaticMethod c.name (m.nameText name))
    | none =>
      match m.dictEntry? receiver name with
      | some e =>
        setSlot base e.value
        callValue host e.value count
      | none =>
        match ← primitiveMethod receiver name with
        | some e => invokeMethod host receiver e count
        | none => misuse (.noMethod (m.typeName receiver) (m.nameText name))

/-- Calls a method of the popped superclass. -/
def invokeSuper (host : Host) (name : Value) (count : Nat) : Exec Unit := do
  let superclass ← popClass
  match ← findMethod superclass name with
  | some e => callValue host e.value count
  | none =>
    let m ← get
    misuse (.noSuperMethod (m.heap.className superclass) (m.nameText name))

/-- Runs the constructor of the popped superclass on the receiver. -/
def superConstructor (host : Host) (count : Nat) : Exec Unit := do
  let superclass ← popClass
  let m ← get
  match (m.heap.class? superclass).bind Class.constructor? with
  | some ctor =>
    match m.heap.callee? ctor with
    | some (.native n) =>
      let base ← calleeSlot count
      let this := m.stack.getD base .nil
      let _ ← runNative host n count
      replaceFrom base this
    | _ => callValue host ctor count
  | none => if 0 < count then misuse (.noConstructor (m.heap.className superclass) count)

/-! Classes. -/

def makeClass (name : Value) : Exec Unit := do
  let c ← modifyGet fun m => m.alloc (.cls { name := m.nameText name })
  push c

/-- How a value becomes a member of a class. -/
def methodKind (m : Machine) (v : Value) : FunctionKind :=
  match m.heap.object? v with
  | some (.closure c) => c.proto.kind
  | _ => .method

/-- Binds the popped method into the class below it. -/
def makeMethod (name : Value) : Exec Unit := do
  let method ← pop
  let kind := (← get).methodKind method
  let cls ← peek 0
  modifyClass cls fun pool c =>
    match kind with
    | .initializer => { c with constructor? := some method }
    | .static => { c with staticMethods := c.staticMethods.set pool name method }
    | _ => { c with methods := c.methods.set pool name method }

/-- Stores the popped value as a default or a static property of the class below it. -/
def defineProperty (name : Value) (isStatic : Bool) : Exec Unit := do
  let value ← pop
  let cls ← peek 0
  modifyClass cls fun pool c =>
    if isStatic then { c with statics := c.statics.set pool name value }
    else { c with defaults := c.defaults.set pool name value }

/-- Lets the popped class inherit from the class below it. -/
def inherit : Exec Unit := do
  let superclass ← peek 1
  let m ← get
  match m.classOf? superclass with
  | some parent =>
    let subclass ← pop
    modifyClass subclass fun pool c => c.inheriting pool superclass parent
  | none => misuse (.badSuperclass (m.typeName superclass))

/-! Properties. -/

/-- Replaces the top value by a method bound to a receiver. -/
def bindTop (receiver method : Value) : Exec Unit := do
  setTop (← modifyGet fun m => m.alloc (.bound { receiver, method }))

/-- Binds a method of the popped superclass to the receiver on top. -/
def getSuper (name : Value) : Exec Unit := do
  let superclass ← popClass
  let receiver ← peek 0
  match ← findMethod superclass name with
  | some e => bindTop receiver e.value
  | none =>
    let m ← get
    misuse (.noSuperMethod (m.heap.className superclass) (m.nameText name))

/-- Replaces the receiver on top by the value of a field; a getter is called for it. -/
def showField (host : Host) (receiver : Value) (e : Entry) : Exec Unit := do
  match e.kind with
  | .value => setTop e.value
  | .getter =>
    setSlot (← calleeSlot 0) receiver
    callValue host e.value 0

/-- Replaces the receiver on top by a bound method; a getter is called. -/
def showMethod (host : Host) (receiver : Value) (e : Entry) : Exec Unit :=
  match e.kind with
  | .value => bindTop receiver e.value
  | .getter => showField host receiver e

/-- Reads a property of an instance. -/
def getOnInstance (host : Host) (receiver : Value) (cls : Ref) (name : Value) (fromSelf : Bool) :
    Exec Unit := do
  let m ← get
  if !fromSelf && m.heap.isPrivate name then
    misuse (.privateProperty (m.nameText name) (m.heap.className cls))
  else
    match m.fieldEntry? receiver name with
    | some e => showField host receiver e
    | none =>
      match ← findMethod cls name with
      | some e => showMethod host receiver e
      | none => misuse (.noMember (m.heap.className cls) (m.nameText name))

/-- Reads a static property of a class. -/
def getOnClass (host : Host) (receiver : Value) (c : Class) (name : Value) (fromSelf : Bool) :
    Exec Unit := do
  let m ← get
  match c.static? m.heap.pool name with
  | some e =>
    if !fromSelf && m.heap.isPrivate name then misuse (.privateStatic (m.nameText name) c.name)
    else showField host receiver e
  | none => misuse (.noStatic c.name (m.nameText name))

/-- Reads a property of a value that has the class of a primitive. -/
def getOnPrimitive (host : Host) (receiver name : Value) : Exec Unit := do
  let m ← get
  match m.heap.primitive? receiver with
  | some p =>
    match ← primitiveMethod receiver name with
    | some e => showMethod host receiver e
    | none => misuse (.noNamedProperty p.name (m.nameText name))
  | none => misuse (.noProperties (m.render receiver) (m.typeName receiver))

/-- Replaces the receiver on top by one of its properties. -/
def getProperty (host : Host) (name : Value) (fromSelf : Bool) : Exec Unit := do
  let receiver ← peek 0
  let m ← get
  match m.heap.instanceClass? receiver with
  | some cls => getOnInstance host receiver cls name fromSelf
  | none =>
    match m.classOf? receiver with
    | some c => getOnClass host receiver c name fromSelf
    | none =>
      match m.dictEntry? receiver name with
      | some e => showField host receiver e
      | none => getOnPrimitive host receiver name

/-- Stores an entry of the dict behind a reference. Keys are texts, numbers and truth values. -/
def insertIntoDict (r : Ref) (key value : Value) : Exec Unit := do
  if key.isText || key.isNumber || key.isBool then
    let m ← get
    match m.heap.get? r with
    | some (.dict _) =>
      let pool := m.heap.pool
      set (m.update r fun
        | .dict d => .dict (d.insert pool key value)
        | o => o)
    | _ => breach .dictOperand
  else misuse .dictKey

/-- Stores a property of a class: what can be called is a method. -/
def setOnClass (cls : Value) (name value : Value) : Exec Unit := do
  let callable := ((← get).heap.object? value).any Object.isCallable
  modifyClass cls fun pool c =>
    if callable then { c with methods := c.methods.set pool name value }
    else { c with statics := c.statics.set pool name value }

/-- Stores the popped value as a property of the popped target, and pushes the value. -/
def setProperty (name : Value) : Exec Unit := do
  let value ← pop
  let target ← pop
  let m ← get
  match target with
  | .ref r =>
    match m.heap.get? r with
    | some (.inst _) => set (m.setField target name value)
    | some (.dict _) => insertIntoDict r name value
    | some (.cls _) => setOnClass target name value
    | _ =>
      match m.heap.primitive? target with
      | some p => setOnClass (.ref (m.builtins.primitive p)) name value
      | none => misuse (.cannotCarry (m.typeName target))
    push value
  | _ => misuse (.cannotCarry (m.typeName target))

/-- Pops a class and a value, and pushes whether the value is an instance of the class. -/
def testInstance : Exec Unit := do
  let cls ← pop
  let value ← pop
  let m ← get
  match cls with
  | .ref r =>
    if m.heap.isClass r then
      push (.bool (← settle (m.heap.isInstanceOf value r)).isSome)
    else misuse .membershipOperand
  | _ => misuse .membershipOperand

end Machine

end ScriptMachine
