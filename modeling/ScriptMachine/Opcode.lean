/-!
Operation codes. An instruction is one byte of operation code and the operand bytes that its
layout prescribes. The code of an operation is its position in the list of all operations.
-/

namespace ScriptMachine

/-- How the operand of an instruction is laid out. -/
inductive Layout where
  /-- No operand. -/
  | none
  /-- One byte. -/
  | byte
  /-- One 16-bit number. -/
  | short
  /-- An index into the constants. -/
  | const
  /-- A distance to jump forward from the end of the instruction. -/
  | jumpForward
  /-- A distance to jump backward from the end of the instruction. -/
  | jumpBackward
  /-- An exception type constant, a handler address and a finally address. -/
  | tryRegion
  /-- A method name constant and an argument count. -/
  | invoke
  /-- A function constant, then a flag and an index for each captured variable. -/
  | closure
  /-- A constant and a flag byte. -/
  | constByte
deriving DecidableEq, Repr

/-- The bytes of a whole instruction. A closure has three more for each captured variable. -/
def Layout.width (captured : Nat) : Layout → Nat
  | none => 1
  | byte => 2
  | short | const | jumpForward | jumpBackward => 3
  | invoke | constByte => 4
  | tryRegion => 7
  | closure => 3 + 3 * captured

/-- The operations of the machine. -/
inductive Opcode where
  /-- Push a constant. -/
  | pushConst
  /-- Push nil. -/
  | pushNil
  /-- Push the empty marker, which is nil. -/
  | pushEmpty
  /-- Push true. -/
  | pushTrue
  /-- Push false. -/
  | pushFalse
  /-- Push the number one. -/
  | pushOne
  /-- Drop the top value. -/
  | pop
  /-- Drop several values. -/
  | popN
  /-- Push the top value again. -/
  | dup
  /-- Bind the popped value to a global name. -/
  | globalDefine
  /-- Push a global. -/
  | globalGet
  /-- Assign a global and keep the value. -/
  | globalSet
  /-- Push a local slot. -/
  | localGet
  /-- Store into a local slot and keep the value. -/
  | localSet
  /-- Give a nil parameter the popped value. -/
  | argDefault
  /-- Push a captured variable. -/
  | upvalueGet
  /-- Store into a captured variable and keep the value. -/
  | upvalueSet
  /-- Close the variable in the top slot and drop it. -/
  | closeUpvalue
  /-- Add numbers, join texts or arrays. -/
  | add
  /-- Subtract. -/
  | sub
  /-- Multiply numbers, repeat a text or an array. -/
  | mul
  /-- Divide. -/
  | div
  /-- Divide and round down. -/
  | floorDiv
  /-- Remainder with the sign of the divisor. -/
  | mod
  /-- Raise to a power. -/
  | pow
  /-- Change the sign. -/
  | negate
  /-- Logical negation. -/
  | not
  /-- Bitwise negation. -/
  | bitNot
  /-- Bitwise and. -/
  | bitAnd
  /-- Bitwise or. -/
  | bitOr
  /-- Bitwise exclusive or. -/
  | bitXor
  /-- Shift left. -/
  | shiftLeft
  /-- Shift right. -/
  | shiftRight
  /-- Equality. -/
  | equal
  /-- Greater than. -/
  | greater
  /-- Less than. -/
  | less
  /-- Jump forward. -/
  | jump
  /-- Pop, and jump forward if the value is falsy. -/
  | jumpIfFalse
  /-- Jump backward. -/
  | loop
  /-- Call the value below the arguments. -/
  | call
  /-- Call a named method of the receiver below the arguments. -/
  | invoke
  /-- The same with private names allowed. -/
  | invokeSelf
  /-- Call a method of the popped superclass. -/
  | invokeSuper
  /-- Run the constructor of the popped superclass. -/
  | superConstructor
  /-- Make a closure of a function constant. -/
  | makeClosure
  /-- Return from the function. -/
  | ret
  /-- Make a class. -/
  | makeClass
  /-- Bind the popped method into the class below it. -/
  | makeMethod
  /-- Define an instance default or a static property. -/
  | defineProperty
  /-- Inherit from the class below the popped one. -/
  | inherit
  /-- Bind a method of the popped superclass to the receiver. -/
  | getSuper
  /-- Read a property. -/
  | propertyGet
  /-- The same with private names allowed. -/
  | propertyGetSelf
  /-- Write a property and keep the value. -/
  | propertySet
  /-- Make an array of the top values. -/
  | makeArray
  /-- Make a dict of the top pairs. -/
  | makeDict
  /-- Make a range of two numbers. -/
  | makeRange
  /-- Read an element. -/
  | indexGet
  /-- Read a slice. -/
  | sliceGet
  /-- Write an element and keep the value. -/
  | indexSet
  /-- Enter a try region. -/
  | enterTry
  /-- Leave the innermost try region. -/
  | popTry
  /-- Go on with what was pending when the finally block began. -/
  | endFinally
  /-- Throw the popped exception. -/
  | throwTop
  /-- Jump through a switch table. -/
  | switch
  /-- Replace a value by the name of its type. -/
  | typeOf
  /-- Replace a value by its text. -/
  | stringify
  /-- Ask for membership in a class. -/
  | instanceOf
  /-- Print the popped value. -/
  | echo
  /-- Raise if the condition is falsy. -/
  | assert
  /-- Stop with a status. -/
  | halt
deriving DecidableEq, Repr

namespace Opcode

/-- Every operation, in the order of the codes. -/
def all : Array Opcode :=
  #[.pushConst, .pushNil, .pushEmpty, .pushTrue, .pushFalse, .pushOne, .pop, .popN, .dup,
    .globalDefine, .globalGet, .globalSet, .localGet, .localSet, .argDefault, .upvalueGet,
    .upvalueSet, .closeUpvalue, .add, .sub, .mul, .div, .floorDiv, .mod, .pow, .negate, .not,
    .bitNot, .bitAnd, .bitOr, .bitXor, .shiftLeft, .shiftRight, .equal, .greater, .less, .jump,
    .jumpIfFalse, .loop, .call, .invoke, .invokeSelf, .invokeSuper, .superConstructor,
    .makeClosure, .ret, .makeClass, .makeMethod, .defineProperty, .inherit, .getSuper,
    .propertyGet, .propertyGetSelf, .propertySet, .makeArray, .makeDict, .makeRange, .indexGet,
    .sliceGet, .indexSet, .enterTry, .popTry, .endFinally, .throwTop, .switch, .typeOf,
    .stringify, .instanceOf, .echo, .assert, .halt]

/-- The name in listings and messages. -/
def name : Opcode → String
  | pushConst => "PUSH_CONST"
  | pushNil => "PUSH_NIL"
  | pushEmpty => "PUSH_EMPTY"
  | pushTrue => "PUSH_TRUE"
  | pushFalse => "PUSH_FALSE"
  | pushOne => "PUSH_ONE"
  | pop => "POP"
  | popN => "POP_N"
  | dup => "DUP"
  | globalDefine => "GLOBAL_DEFINE"
  | globalGet => "GLOBAL_GET"
  | globalSet => "GLOBAL_SET"
  | localGet => "LOCAL_GET"
  | localSet => "LOCAL_SET"
  | argDefault => "FUNC_ARG_OPTIONAL"
  | upvalueGet => "UPVALUE_GET"
  | upvalueSet => "UPVALUE_SET"
  | closeUpvalue => "CLOSE_UPVALUE"
  | add => "ADD"
  | sub => "SUB"
  | mul => "MUL"
  | div => "DIV"
  | floorDiv => "FLOOR_DIV"
  | mod => "MOD"
  | pow => "POW"
  | negate => "NEGATE"
  | not => "NOT"
  | bitNot => "BIT_NOT"
  | bitAnd => "BIT_AND"
  | bitOr => "BIT_OR"
  | bitXor => "BIT_XOR"
  | shiftLeft => "SHIFT_LEFT"
  | shiftRight => "SHIFT_RIGHT"
  | equal => "EQUAL"
  | greater => "GREATER"
  | less => "LESS"
  | jump => "JUMP"
  | jumpIfFalse => "JUMP_IF_FALSE"
  | loop => "LOOP"
  | call => "CALL"
  | invoke => "INVOKE"
  | invokeSelf => "INVOKE_SELF"
  | invokeSuper => "INVOKE_SUPER"
  | superConstructor => "INVOKE_SUPER_SELF"
  | makeClosure => "MAKE_CLOSURE"
  | ret => "RETURN"
  | makeClass => "MAKE_CLASS"
  | makeMethod => "MAKE_METHOD"
  | defineProperty => "PROPERTY_DEFINE"
  | inherit => "INHERIT"
  | getSuper => "GET_SUPER"
  | propertyGet => "PROPERTY_GET"
  | propertyGetSelf => "PROPERTY_GET_SELF"
  | propertySet => "PROPERTY_SET"
  | makeArray => "MAKE_ARRAY"
  | makeDict => "MAKE_DICT"
  | makeRange => "MAKE_RANGE"
  | indexGet => "INDEX_GET"
  | sliceGet => "INDEX_GET_RANGED"
  | indexSet => "INDEX_SET"
  | enterTry => "TRY"
  | popTry => "POP_TRY"
  | endFinally => "END_FINALLY"
  | throwTop => "THROW"
  | switch => "SWITCH"
  | typeOf => "TYPEOF"
  | stringify => "STRINGIFY"
  | instanceOf => "INSTANCE_OF"
  | echo => "ECHO"
  | assert => "ASSERT"
  | halt => "HALT"

/-- The operand layout. -/
def layout : Opcode → Layout
  | call | superConstructor | indexGet | sliceGet | halt => .byte
  | popN | localGet | localSet | argDefault | upvalueGet | upvalueSet | makeArray
  | makeDict => .short
  | pushConst | globalDefine | globalGet | globalSet | makeClass | makeMethod | getSuper
  | propertyGet | propertyGetSelf | propertySet | switch => .const
  | jump | jumpIfFalse => .jumpForward
  | loop => .jumpBackward
  | enterTry => .tryRegion
  | invoke | invokeSelf | invokeSuper => .invoke
  | makeClosure => .closure
  | defineProperty => .constByte
  | _ => .none

def toByte (op : Opcode) : UInt8 := UInt8.ofNat op.ctorIdx

/-- The operation with a given code. -/
def ofByte? (b : UInt8) : Option Opcode := all[b.toNat]?

/-- The operation with a given name. -/
def ofName? (name : String) : Option Opcode := all.find? fun op => op.name == name

theorem ofByte?_toByte (op : Opcode) : ofByte? op.toByte = some op := by
  cases op <;> rfl

theorem toByte_of_ofByte? {b : UInt8} {op : Opcode} (h : ofByte? b = some op) :
    op.toByte = b := by
  obtain ⟨hb, hop⟩ := Array.getElem?_eq_some_iff.1 h
  have indices : ∀ (i : Nat) (hi : i < all.size), all[i].toByte = UInt8.ofNat i := by decide
  rw [← hop, indices _ hb, UInt8.ofNat_toNat]

end Opcode

end ScriptMachine
