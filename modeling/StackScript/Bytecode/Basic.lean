import StackScript.Bytecode.LineTable
import StackScript.Opcode
import StackScript.Value

/-! Compiled code: instructions as bytes, the constants they name, and the line of every byte. -/
namespace StackScript

structure Bytecode where
  code : Array UInt8 := #[]
  constants : Array Value := #[]
  lines : LineTable := {}
  deriving DecidableEq, Repr, Inhabited

namespace Bytecode

/-- How many constants one byte can name. -/
def maxConstants : Nat := 256

def size (b : Bytecode) : Nat := b.code.size

/-- Appends a byte that comes from a line. -/
def write (b : Bytecode) (byte : UInt8) (line : Nat) : Bytecode :=
  { b with code := b.code.push byte, lines := b.lines.push line }

@[simp] theorem code_write (b : Bytecode) (byte : UInt8) (line : Nat) :
    (b.write byte line).code = b.code.push byte := rfl

@[simp] theorem size_write (b : Bytecode) (byte : UInt8) (line : Nat) :
    (b.write byte line).size = b.size + 1 := by simp [size]

def writeOp (b : Bytecode) (op : Opcode) (line : Nat) : Bytecode := b.write op.toByte line

/-- Replaces two bytes by a number, high byte first; bytes past the end are left out. -/
def patch (b : Bytecode) (offset value : Nat) : Bytecode :=
  { b with
    code := (b.code.setIfInBounds offset (value / 256).toUInt8).setIfInBounds (offset + 1) value.toUInt8 }

@[simp] theorem size_patch (b : Bytecode) (offset value : Nat) :
    (b.patch offset value).size = b.size := by simp [size, patch]

/-- As `patch`, where both bytes have to be there. -/
def patch? (b : Bytecode) (offset value : Nat) : Option Bytecode :=
  if offset + 1 < b.code.size then some (b.patch offset value) else none

/-- The number in two bytes, high byte first. -/
def readPair? (b : Bytecode) (offset : Nat) : Option Nat :=
  match b.code[offset]?, b.code[offset + 1]? with
  | some high, some low => some (high.toNat * 256 + low.toNat)
  | _, _ => none

/-- Adds a constant, with the byte that names it, unless every byte is taken. -/
def addConstant? (b : Bytecode) (v : Value) : Option (UInt8 × Bytecode) :=
  if b.constants.size < maxConstants then
    some (b.constants.size.toUInt8, { b with constants := b.constants.push v })
  else none

def constant? (b : Bytecode) (i : UInt8) : Option Value := b.constants[i.toNat]?

/-- The source line of the byte at an offset. -/
def lineAt (b : Bytecode) (offset : Nat) : Nat := b.lines.lineAt offset

/-- The operation at an offset, if the byte there encodes one. -/
def opAt? (b : Bytecode) (offset : Nat) : Option Opcode := b.code[offset]?.bind Opcode.ofByte?

/-- The offset after the instruction at an offset; an unknown byte stands alone. -/
def nextOffset (b : Bytecode) (offset : Nat) : Nat :=
  offset + 1 + ((b.opAt? offset).map Opcode.width).getD 0

theorem lt_nextOffset (b : Bytecode) (offset : Nat) : offset < b.nextOffset offset := by
  unfold nextOffset; omega

end Bytecode
end StackScript
