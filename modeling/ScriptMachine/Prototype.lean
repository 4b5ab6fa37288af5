import ScriptMachine.Blob

/-!
Compiled functions: a body with the number of parameters it takes and of variables it captures.
-/

namespace ScriptMachine

/-- What a compiled function is used as. -/
inductive FunctionKind where
  | script
  | function
  | method
  /-- A constructor; it returns its receiver. -/
  | initializer
  | static
deriving DecidableEq, Repr, Inhabited

/-- A compiled function. -/
structure Prototype where
  name : String
  kind : FunctionKind := .function
  /-- Declared parameters. -/
  arity : Nat := 0
  /-- Parameters without a default. -/
  required : Nat := 0
  /-- Whether surplus arguments are gathered into an array. -/
  variadic : Bool := false
  /-- Variables a closure of this function captures. -/
  captured : Nat := 0
  blob : Blob := {}
  /-- The file named in stack traces. -/
  source : String := "<script>"
deriving Inhabited

namespace Prototype

/-- The function of a whole script. -/
def script (blob : Blob) : Prototype := { name := "<script>", kind := .script, blob }

/-- Declares parameters, all of them required. -/
def withArity (p : Prototype) (arity : Nat) : Prototype := { p with arity, required := arity }

/-- Lowers the number of required parameters. -/
def withRequired (p : Prototype) (required : Nat) : Prototype :=
  { p with required := min required p.arity }

/-- The stack slots of the parameters. -/
def paramSlots (p : Prototype) : Nat := p.arity + if p.variadic then 1 else 0

/-- The source line of the byte before an offset. -/
def lineBefore (p : Prototype) (offset : Nat) : Nat := (p.blob.lineAt? (offset - 1)).getD 0

end Prototype

end ScriptMachine
