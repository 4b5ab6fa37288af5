import ScriptMachine.Machine.Session

/-!
A stock of natives for scripts under test: they show what a native sees, raise exceptions in every
way a native can, look at and change the globals, and call the machine that runs them.
-/

namespace ScriptMachine.Host

/-- The text of an argument, empty if it is missing. -/
def argumentText (m : Machine) (args : Array Value) (i : Nat) : String :=
  (args[i]?.map m.render).getD ""

def argument (args : Array Value) (i : Nat) : Value := args.getD i .nil

def give (v : Value) : StateM Machine (Option Value) := return some v

/-- Raises an exception; the arguments are its kind and its message. -/
def raiseNamed (args : Array Value) : StateM Machine (Option Value) := do
  let m ← get
  Machine.raise (.ofName (argumentText m args 0)) (argumentText m args 1)

/-- Nothing for an outcome, and the exception of a fault. -/
def answer : Verdict → StateM Machine (Option Value)
  | .failed f => Machine.raise .exception f.message
  | _ => give .nil

/-- The natives by name. -/
def stock : ReentrantHost := fun reentry name receiver args =>
  match name with
  | "id" => give (argument args 0)
  | "this" => give receiver
  | "args" => do give (← modifyGet fun m => m.alloc (.array args))
  | "describe" => do
    give (← modifyGet fun m => m.intern s!"{m.render receiver}/{args.size}")
  | "raise" => raiseNamed args
  | "raise_collect" => do
    let _ ← raiseNamed args
    modify fun m => m.collect.2
    return none
  | "raise_io" => do
    let m ← get
    Machine.raise .ioError (argumentText m args 0)
  | "throw" => Machine.raiseValue (argument args 0)
  | "broken" => return none
  | "target" => do
    match (← get).global? "target" with
    | some v => give v
    | none => Machine.raise .nameError "target is not bound"
  | "global" => do
    let m ← get
    give ((m.global? (argumentText m args 0)).getD .nil)
  | "define" => do
    modify fun m => m.defineGlobal (argumentText m args 0) (argument args 1)
    give (argument args 1)
  | "depth" => do give (.number (Float.ofNat (← get).stack.size))
  | "collect" => do
    let released ← modifyGet fun m => m.collect
    give (.number (Float.ofNat released.objects))
  | "reenter" => do answer (← reentry.call (argument args 0) (args.extract 1 args.size))
  | "rerun" => do answer (← reentry.run (.script {}))
  | _ => give .nil

end ScriptMachine.Host
