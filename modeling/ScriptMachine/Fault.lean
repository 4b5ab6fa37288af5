import ScriptMachine.Opcode

/-!
Why a run fails. A script's own failures are exceptions, and end a run only if nothing handles
them; everything else is a defect of the instruction stream, a broken rule of the machine, or a
failure of the host.
-/

namespace ScriptMachine

/-- What is wrong with an instruction stream. -/
inductive Defect where
  | unknownOpcode (byte : UInt8)
  | truncated (op : Opcode)
  | notAFunction (constant : Nat)
  | constantOutOfPool (op : Opcode) (constant pool : Nat)
  | constantKind (op : Opcode) (constant : Nat)
  | jumpTarget (target : Int)
  | tryAddress (address : Nat)
  | switchTarget (target : Nat)
  /-- Found while running: an operand byte is missing. -/
  | pastEnd
  /-- Found while running: there is no such constant. -/
  | missingConstant (constant : Nat)
  /-- Found while running: a backward jump leaves the stream. -/
  | loopBeforeStart
  /-- A reason in words. -/
  | stated (text : String)
deriving DecidableEq, Repr

def Defect.message : Defect → String
  | unknownOpcode byte => s!"unknown opcode {byte}"
  | truncated op => s!"{op.name} operand runs past the end of the blob"
  | notAFunction constant => s!"closure constant {constant} is not a function"
  | constantOutOfPool op constant pool =>
    s!"{op.name} references constant {constant} but the pool holds {pool}"
  | constantKind op constant => s!"{op.name} constant {constant} has the wrong type"
  | jumpTarget target => s!"jump target {target} is not an instruction boundary"
  | tryAddress address => s!"try address {address} is not an instruction boundary"
  | switchTarget target => s!"switch target {target} is not an instruction boundary"
  | pastEnd => "instruction runs past the end of the blob"
  | missingConstant constant => s!"constant {constant} out of range"
  | loopBeforeStart => "loop target before start of blob"
  | stated text => text

/-- Which rule of the machine was broken. -/
inductive Breach where
  | stackUnderflow
  | noFrame
  | localSlot (slot : Nat)
  | upvalueIndex (index : Nat)
  | frameWithoutClosure
  | upvaluePastTop
  | notAnUpvalue
  | closureOperand
  | runWhileRunning
  | callWhileRunning
  | notInstantiable
  | constructorOperand
  | getterOperand
  | returnWithoutFrame
  | superclassOperand
  | classOperand
  | dictOperand
  | switchOperand
  | nothingRaised
  | noRegion
  | noCompletion
  | completionFrame
  /-- A rule in words. -/
  | stated (text : String)
deriving DecidableEq, Repr

def Breach.message : Breach → String
  | stackUnderflow => "stack underflow"
  | noFrame => "no active call frame"
  | localSlot slot => s!"local slot {slot} out of range"
  | upvalueIndex index => s!"upvalue {index} out of range"
  | frameWithoutClosure => "frame is not running a closure"
  | upvaluePastTop => "open upvalue past the top of the stack"
  | notAnUpvalue => "upvalue slot holds a non-upvalue"
  | closureOperand => "closure operand is not a function"
  | runWhileRunning => "run called while a script is executing"
  | callWhileRunning => "Vm::call while a script is executing"
  | notInstantiable => "instantiating a non-class"
  | constructorOperand => "class constructor is not a function"
  | getterOperand => "property getter is not a native function"
  | returnWithoutFrame => "return without an active frame"
  | superclassOperand => "superclass operand is not a class"
  | classOperand => "class operand is not a class"
  | dictOperand => "dict insert into a non-dict"
  | switchOperand => "switch operand is not a switch table"
  | nothingRaised => "native signalled an exception without raising one"
  | noRegion => "POP_TRY without an active try region"
  | noCompletion => "end of finally block without a pending completion"
  | completionFrame => "finally block completed in the wrong frame"
  | stated text => text

/-- Why a run ends without a result. -/
inductive Fault where
  | malformed (offset : Nat) (defect : Defect)
  /-- An exception that no region handled. -/
  | unhandled (className message : String) (trace : List String)
  | internal (breach : Breach)
  | frameOverflow (limit : Nat)
  | inputOutput (text : String)
  | settings
deriving DecidableEq, Repr

namespace Fault

def message : Fault → String
  | malformed offset defect => s!"malformed blob at offset {offset}: {defect.message}"
  | unhandled className message _ => s!"unhandled {className}: {message}"
  | internal breach => s!"internal error: {breach.message}"
  | frameOverflow limit => s!"maximum call depth of {limit} exceeded"
  | inputOutput text => s!"IO error: {text}"
  | settings => "invalid configuration"

/-- Whether the script is at fault rather than the machine or the host. -/
def isScriptError : Fault → Bool
  | unhandled .. => true
  | _ => false

/-- The exit status of a process that ends with this fault. -/
def exitCode : Fault → Nat
  | unhandled .. => 1
  | inputOutput _ => 74
  | _ => 70

end Fault

end ScriptMachine
