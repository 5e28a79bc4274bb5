import StackScript.Store.Display

/-! Listings: a header, then a line for each instruction with its offset, its source line where that
changes, its mnemonic and its operand. -/
namespace StackScript.Bytecode

def padLeft (width : Nat) (fill : Char) (text : String) : String :=
  String.ofList (List.replicate (width - text.length) fill) ++ text

def padRight (width : Nat) (text : String) : String :=
  text ++ String.ofList (List.replicate (width - text.length) ' ')

/-- The operand column: mnemonic and number. -/
def operandText (op : Opcode) (n : Nat) : String :=
  padRight 16 op.mnemonic ++ " " ++ padLeft 4 ' ' (toString n)

/-- Where a jump with a distance goes that starts at an offset. -/
def jumpTarget (op : Opcode) (offset distance : Nat) : Nat :=
  if op = .loop then offset + 3 - distance else offset + 3 + distance

/-- The mnemonic of an instruction with its operand. -/
def operationText? (b : Bytecode) (store : Store) (offset : Nat) (op : Opcode) : Option String :=
  match op with
  | .constant | .getGlobal | .setGlobal | .defineGlobal => do
    let i ← b.code[offset + 1]?
    let text ← store.escaped? (← b.constant? i)
    some (operandText op i.toNat ++ " '" ++ text ++ "'")
  | .getLocal | .setLocal | .call => do
    let n ← b.code[offset + 1]?
    some (operandText op n.toNat)
  | .jump | .jumpIfFalse | .jumpIfTrue | .loop => do
    let distance ← b.readPair? (offset + 1)
    some (operandText op offset ++ " -> " ++ toString (jumpTarget op offset distance))
  | _ => some op.mnemonic

/-- The line column, blank where the line is that of the byte before. -/
def lineColumn (b : Bytecode) (offset : Nat) : String :=
  if 0 < offset ∧ b.lineAt offset = b.lineAt (offset - 1) then "   | "
  else padLeft 4 ' ' (toString (b.lineAt offset)) ++ " "

/-- The line for the instruction at an offset, or none if code or constants end too early. -/
def instructionText? (b : Bytecode) (store : Store) (offset : Nat) : Option String := do
  let byte ← b.code[offset]?
  let text ←
    match Opcode.ofByte? byte with
    | some op => b.operationText? store offset op
    | none => some ("Unknown opcode " ++ toString byte.toNat)
  some (padLeft 4 '0' (toString offset) ++ " " ++ b.lineColumn offset ++ text ++ "\n")

/-- The lines from an offset on, after the text so far. -/
def listingFrom? (b : Bytecode) (store : Store) (text : String) (offset : Nat) : Option String :=
  if offset < b.code.size then
    match b.instructionText? store offset with
    | some line => b.listingFrom? store (text ++ line) (b.nextOffset offset)
    | none => none
  else some text
termination_by b.code.size - offset
decreasing_by have := b.lt_nextOffset offset; omega

/-- The listing of code under a name. -/
def listing? (b : Bytecode) (store : Store) (name : String) : Option String :=
  b.listingFrom? store ("== " ++ name ++ " ==\n") 0

end StackScript.Bytecode
