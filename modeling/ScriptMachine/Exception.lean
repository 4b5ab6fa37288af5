/-!
The exceptions of the machine itself. Each misuse a script can commit has the class of its
exception and its wording.
-/

namespace ScriptMachine

/-- The built-in exception classes; all are subclasses of the first. -/
inductive ExceptionKind where
  | exception
  | typeError
  | nameError
  | argumentError
  | indexError
  | keyError
  | assertionError
  | ioError
deriving DecidableEq, Repr, Inhabited

namespace ExceptionKind

/-- Every kind, the root first. -/
def all : List ExceptionKind :=
  [exception, typeError, nameError, argumentError, indexError, keyError, assertionError, ioError]

/-- The name of the class, which is also the global it is bound to. -/
def name : ExceptionKind → String
  | exception => "Exception"
  | typeError => "TypeError"
  | nameError => "NameError"
  | argumentError => "ArgumentError"
  | indexError => "IndexError"
  | keyError => "KeyError"
  | assertionError => "AssertionError"
  | ioError => "IOError"

/-- The kind with a given name; unknown names are the root. -/
def ofName (name : String) : ExceptionKind :=
  (all.find? fun k => k.name == name).getD exception

end ExceptionKind

/-- What is read by position. -/
inductive Sequence where
  | text
  | array
  | range
deriving DecidableEq, Repr

def Sequence.noun : Sequence → String
  | text => "string"
  | array => "array"
  | range => "range"

/-- What a script did wrong. -/
inductive Misuse where
  | undefinedGlobal (name : String)
  | binaryOperand (symbol left right : String)
  | unaryOperand (symbol type : String)
  | repeatTooLarge (count : String)
  | notCallable (type : String)
  | argumentCount (function : String) (expected got : Nat)
  | noConstructor (className : String) (got : Nat)
  | privateMethod (name className : String)
  | noMethod (owner name : String)
  | noStaticMethod (className name : String)
  | noSuperMethod (className name : String)
  | badSuperclass (type : String)
  | privateProperty (name className : String)
  | noMember (className name : String)
  | privateStatic (name className : String)
  | noStatic (className name : String)
  | noNamedProperty (className name : String)
  | noProperties (value type : String)
  | cannotCarry (type : String)
  | membershipOperand
  | dictKey
  | rangeBounds
  | positionType (sequence : Sequence)
  | position (sequence : Sequence) (index : Int) (length : Nat)
  | missingKey (key : String)
  | notIndexable (type : String)
  | sliceBounds (lower upper : String)
  | notSliceable (type : String)
  | immutableText
  | tooManyRegions
  | notAnException
  | outputFailed (text : String)
  | assertionFailed (text : String)
deriving DecidableEq, Repr

namespace Misuse

/-- The class of the exception a misuse raises. -/
def kind : Misuse → ExceptionKind
  | undefinedGlobal _ => .nameError
  | repeatTooLarge _ | argumentCount .. | noConstructor .. => .argumentError
  | noMethod .. | noStaticMethod .. | noSuperMethod .. | noMember .. | noStatic ..
  | noNamedProperty .. | tooManyRegions => .exception
  | position .. => .indexError
  | missingKey _ => .keyError
  | outputFailed _ => .ioError
  | assertionFailed _ => .assertionError
  | _ => .typeError

/-- The message of the exception a misuse raises. -/
def message : Misuse → String
  | undefinedGlobal name => s!"global name '{name}' is not defined"
  | binaryOperand symbol left right => s!"unsupported operand {symbol} for {left} and {right}"
  | unaryOperand symbol type => s!"unsupported operand {symbol} for {type}"
  | repeatTooLarge count => s!"repeat count {count} is too large"
  | notCallable type => s!"object of type {type} is not callable"
  | argumentCount function expected got =>
    s!"function '{function}' expected {expected} arguments but got {got}"
  | noConstructor className got =>
    s!"class '{className}' has no constructor but got {got} arguments"
  | privateMethod name className =>
    s!"cannot call private method '{name}' from instance of {className}"
  | noMethod owner name => s!"'{owner}' has no method {name}()"
  | noStaticMethod className name =>
    s!"class {className} does not have a static method named '{name}'"
  | noSuperMethod className name => s!"class '{className}' does not have a function '{name}'"
  | badSuperclass type => s!"cannot inherit from non-class object of type {type}"
  | privateProperty name className =>
    s!"cannot get private property '{name}' from instance of {className}"
  | noMember className name =>
    s!"instance of class {className} does not have a property or method named '{name}'"
  | privateStatic name className => s!"cannot call private property '{name}' of class {className}"
  | noStatic className name =>
    s!"class {className} does not have a static property or method named '{name}'"
  | noNamedProperty className name => s!"class {className} has no named property '{name}'"
  | noProperties value type => s!"'{value}' of type {type} does not have properties"
  | cannotCarry type => s!"object of type {type} cannot carry properties"
  | membershipOperand => "invalid type for instanceof; expected class"
  | dictKey => "dictionary key must be one of string, number or boolean"
  | rangeBounds => "invalid range boundaries"
  | positionType sequence => s!"{sequence.noun}s are numerically indexed"
  | position sequence index length => s!"{sequence.noun} index {index} out of range of {length}"
  | missingKey key => s!"key {key} not found in dict"
  | notIndexable type => s!"cannot index object of type {type}"
  | sliceBounds lower upper =>
    s!"range index expects upper and lower to be numbers, but got '{lower}', '{upper}'"
  | notSliceable type => s!"cannot range index object of type {type}"
  | immutableText => "strings are immutable"
  | tooManyRegions => "too many nested exception handlers in one function"
  | notAnException => "instance of Exception expected"
  | outputFailed text => text
  | assertionFailed text => text

end Misuse

end ScriptMachine
