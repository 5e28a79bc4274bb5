/-! The instruction set: one byte for each operation, its mnemonic, and how many operand bytes
follow it. -/
namespace StackScript

/-- An operation of the machine. The comparisons are all there, because with a NaN none of them is
the negation of another. -/
inductive Opcode
  | constant
  | null
  | true
  | false
  | pop
  | getLocal
  | setLocal
  | getGlobal
  | setGlobal
  | defineGlobal
  | equal
  | notEqual
  | greater
  | greaterEqual
  | less
  | lessEqual
  | add
  | subtract
  | multiply
  | divide
  | not
  | negate
  | print
  | readString
  | readNumber
  | readChar
  | jump
  | jumpIfFalse
  | jumpIfTrue
  | loop
  | call
  | out
  deriving DecidableEq, Repr, Inhabited

namespace Opcode

/-- Every operation, in the order of their bytes. -/
def all : Array Opcode :=
  #[constant, null, true, false, pop, getLocal, setLocal, getGlobal, setGlobal, defineGlobal,
    equal, notEqual, greater, greaterEqual, less, lessEqual, add, subtract, multiply, divide,
    not, negate, print, readString, readNumber, readChar, jump, jumpIfFalse, jumpIfTrue, loop,
    call, out]

/-- The byte that encodes an operation. -/
def toByte (op : Opcode) : UInt8 := op.ctorIdx.toUInt8

/-- The operation that a byte encodes. -/
def ofByte? (b : UInt8) : Option Opcode := all[b.toNat]?

@[simp] theorem ofByte?_toByte (op : Opcode) : ofByte? op.toByte = some op := by
  cases op <;> rfl

/-- How many operand bytes follow. -/
def width : Opcode → Nat
  | constant | getLocal | setLocal | getGlobal | setGlobal | defineGlobal | call => 1
  | jump | jumpIfFalse | jumpIfTrue | loop => 2
  | _ => 0

/-- The name shown in listings. -/
def mnemonic : Opcode → String
  | constant => "OP_CONSTANT"
  | null => "OP_NULL"
  | true => "OP_TRUE"
  | false => "OP_FALSE"
  | pop => "OP_POP"
  | getLocal => "OP_GET_LOCAL"
  | setLocal => "OP_SET_LOCAL"
  | getGlobal => "OP_GET_GLOBAL"
  | setGlobal => "OP_SET_GLOBAL"
  | defineGlobal => "OP_DEFINE_GLOBAL"
  | equal => "OP_EQUAL"
  | notEqual => "OP_NOT_EQUAL"
  | greater => "OP_GREATER"
  | greaterEqual => "OP_GREATER_EQUAL"
  | less => "OP_LESS"
  | lessEqual => "OP_LESS_EQUAL"
  | add => "OP_ADD"
  | subtract => "OP_SUBTRACT"
  | multiply => "OP_MULTIPLY"
  | divide => "OP_DIVIDE"
  | not => "OP_NOT"
  | negate => "OP_NEGATE"
  | print => "OP_PRINT"
  | readString => "OP_READ_STRING"
  | readNumber => "OP_READ_NUMBER"
  | readChar => "OP_READ_CHAR"
  | jump => "OP_JUMP"
  | jumpIfFalse => "OP_JUMP_IF_FALSE"
  | jumpIfTrue => "OP_JUMP_IF_TRUE"
  | loop => "OP_LOOP"
  | call => "OP_CALL"
  | out => "OP_OUT"

end Opcode
end StackScript
