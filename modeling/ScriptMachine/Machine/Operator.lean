import ScriptMachine.Machine.State

/-!
Operators. Numbers are doubles; bitwise operators work on signed 64-bit words. Adding joins texts
and arrays, and multiplying repeats them.
-/

namespace ScriptMachine.Machine

/-- Refuses the operands of a binary operator. -/
def refuseOperands {α : Type} (symbol : String) (a b : Value) : Exec α := do
  let m ← get
  misuse (.binaryOperand symbol (m.typeName a) (m.typeName b))

/-- A binary operator on two numbers. -/
def binaryNumber (symbol : String) (op : Float → Float → Value) : Exec Unit := do
  let b ← pop
  let a ← pop
  match a, b with
  | .number x, .number y => push (op x y)
  | _, _ => refuseOperands symbol a b

def arithmetic (symbol : String) (op : Float → Float → Float) : Exec Unit :=
  binaryNumber symbol fun x y => .number (op x y)

def comparison (symbol : String) (op : Float → Float → Bool) : Exec Unit :=
  binaryNumber symbol fun x y => .bool (op x y)

/-- A number as a signed word. -/
def wordOf (x : Float) : Int64 := Int64.ofInt (Binary64.toWord x)

def ofWord (n : Int64) : Value := .number (Float.ofInt n.toInt)

/-- A bitwise operator on two numbers taken as words. -/
def bitwise (symbol : String) (op : Int64 → Int64 → Int64) : Exec Unit :=
  binaryNumber symbol fun x y => ofWord (op (wordOf x) (wordOf y))

/-- A unary operator on a number. -/
def unaryNumber (symbol : String) (op : Float → Value) : Exec Unit := do
  match ← pop with
  | .number x => push (op x)
  | v => do
    let m ← get
    misuse (.unaryOperand symbol (m.typeName v))

/-- Adds numbers, joins a text with any value, joins arrays. -/
def add : Exec Unit := do
  let b ← pop
  let a ← pop
  match a, b with
  | .number x, .number y => push (.number (x + y))
  | _, _ =>
    let m ← get
    if a.isText || b.isText then push (← modifyGet fun m => m.intern (m.render a ++ m.render b))
    else
      match m.heap.object? a, m.heap.object? b with
      | some (.array xs), some (.array ys) =>
        push (← modifyGet fun m => m.alloc (.array (xs ++ ys)))
      | _, _ => refuseOperands "+" a b

/-- The longest text, in bytes, or array that repeating may make. -/
def repeatLimit : Nat := Nat.pow 2 28

/-- How often to repeat: a natural number. -/
def repeatCount? (x : Float) : Option Nat :=
  if x ≥ 0 && Binary64.isWhole x then some (Binary64.toCount x) else none

/-- Refuses a repetition of `unit` that would be too long. -/
def checkRepeat (unit count : Nat) (b : Value) : Exec Unit := do
  if repeatLimit < unit * count then
    let m ← get
    misuse (.repeatTooLarge (m.render b))

def repeatText (text : String) (count : Nat) : String :=
  if text.isEmpty then "" else count.fold (fun _ _ done => done ++ text) ""

def repeatArray (items : Array Value) (count : Nat) : Array Value :=
  if items.isEmpty then #[] else count.fold (fun _ _ done => done ++ items) #[]

/-- Repeats a text or an array. -/
def repeatValue (a b : Value) (count : Nat) : Exec Unit := do
  let m ← get
  match m.heap.text? a, m.heap.object? a with
  | some text, _ =>
    checkRepeat text.utf8ByteSize count b
    push (← modifyGet fun m => m.intern (repeatText text count))
  | none, some (.array items) =>
    checkRepeat items.size count b
    push (← modifyGet fun m => m.alloc (.array (repeatArray items count)))
  | _, _ => refuseOperands "*" a b

/-- Multiplies numbers, repeats a text or an array. -/
def multiply : Exec Unit := do
  let b ← pop
  let a ← pop
  match a, b with
  | .number x, .number y => push (.number (x * y))
  | .ref _, .number n =>
    match repeatCount? n with
    | some count => repeatValue a b count
    | none => refuseOperands "*" a b
  | _, _ => refuseOperands "*" a b

end ScriptMachine.Machine
