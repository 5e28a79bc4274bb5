import StackScript.Compiler.State
import StackScript.Number.Numeral

/-! Expressions, compiled while they are read. An operand is followed by the operators that bind at
least as tightly as the level asked for, each of which compiles its right operand at the next level.
The natural numbers that the functions go down on bound the tokens still unread. -/
namespace StackScript.Compiler

/-- How tightly operators bind, loosest first. -/
inductive Level
  | none
  | assignment
  | or
  | and
  | equality
  | comparison
  | term
  | factor
  | unary
  | call
  | primary
  deriving DecidableEq, Repr

namespace Level

def rank (l : Level) : Nat := l.ctorIdx

instance : LE Level := ⟨fun a b => a.rank ≤ b.rank⟩

instance (a b : Level) : Decidable (a ≤ b) := inferInstanceAs (Decidable (a.rank ≤ b.rank))

/-- The level of the right operand of an operator that groups to the left. -/
def next : Level → Level
  | none => assignment
  | assignment => or
  | or => and
  | and => equality
  | equality => comparison
  | comparison => term
  | term => factor
  | factor => unary
  | unary => call
  | call | primary => primary

end Level

/-- What a token can be at the start of an expression. -/
inductive Operand
  | group
  | unary (op : Opcode)
  | variable
  | string
  | number
  | char
  | escape (byte : UInt8)
  | literal (op : Opcode)
  deriving DecidableEq, Repr

/-- What a token can be after an operand. -/
inductive Operator
  | binary (op : Opcode) (level : Level)
  | and
  | or
  | call
  deriving DecidableEq, Repr

def Operator.level : Operator → Level
  | binary _ level => level
  | and => .and
  | or => .or
  | call => .call

def operand? : TokenKind → Option Operand
  | .leftParen => some .group
  | .minus => some (.unary .negate)
  | .bang => some (.unary .not)
  | .ident => some .variable
  | .string => some .string
  | .number => some .number
  | .char => some .char
  | .newLine => some (.escape 10)
  | .tab => some (.escape 9)
  | .true_ => some (.literal .true)
  | .false_ => some (.literal .false)
  | _ => none

def operator? : TokenKind → Option Operator
  | .leftParen => some .call
  | .plus => some (.binary .add .term)
  | .minus => some (.binary .subtract .term)
  | .star => some (.binary .multiply .factor)
  | .slash => some (.binary .divide .factor)
  | .equal => some (.binary .equal .equality)
  | .bangEqual => some (.binary .notEqual .equality)
  | .greater => some (.binary .greater .comparison)
  | .greaterEqual => some (.binary .greaterEqual .comparison)
  | .less => some (.binary .less .comparison)
  | .lessEqual => some (.binary .lessEqual .comparison)
  | .and => some .and
  | .or => some .or
  | _ => none

/-- Reads an assignment mark where one may stand. -/
def acceptAssign (allowed : Bool) : Action Bool :=
  if allowed then accept .assign else pure false

/-- The byte of a character literal. -/
def charByte (literal : List Char) : UInt8 := ((literal[1]?).getD '\x00').toNat.toUInt8

/-- The rest of an operand whose first token has been read. A variable is assigned to if an
assignment mark follows it and may stand there. -/
def operand (parse : Level → Action Unit) (canAssign : Bool) : Operand → Action Unit
  | .group => do
    parse .assignment
    expect .rightParen .groupEnd
  | .unary op => do
    parse .unary
    emit op
  | .variable => do
    let access ← accessTo (← previousToken).lexeme
    if ← acceptAssign canAssign then
      parse .assignment
      emitWith access.set access.operand
    else emitWith access.get access.operand
  | .string => do
    let literal := (← previousToken).lexeme.toList
    ensure (2 ≤ literal.length) .literalDelimited
    let content := Quoted.content literal
    emitConstant (.string (← intern (String.ofList content)))
  | .number => do
    match Numeral.leading? (← previousToken).lexeme.toList with
    | some n => emitConstant (.number n.value)
    | none => mistake .invalidNumber
  | .char => do
    let literal := (← previousToken).lexeme.toList
    ensure (2 ≤ literal.length) .literalDelimited
    emitConstant (.char (charByte literal))
  | .escape byte => emitConstant (.char byte)
  | .literal op => emit op

/-- What stands between the parentheses of a call; gives the number of arguments. -/
def argumentList (arguments : Action Nat) : Action Nat := do
  if ← check .rightParen then return 0 else arguments

/-- The rest of an operator that has been read. The right side of a short circuit is jumped over,
and the left side is dropped before it. -/
def operator (parse : Level → Action Unit) (arguments : Action Nat) : Operator → Action Unit
  | .binary op level => do
    parse level.next
    emit op
  | .and => do
    let skip ← openJump .jumpIfFalse
    emit .pop
    parse .and
    closeJump skip
  | .or => do
    let skip ← openJump .jumpIfTrue
    emit .pop
    parse .or
    closeJump skip
  | .call => do
    let count ← argumentList arguments
    expect .rightParen .argumentsEnd
    emitWith .call (min count 255).toUInt8

/-- An expression at a level after its first token: the rest of an operand and the operators after it.
A name that an assignment mark follows has taken it already, so one that is left stands after something
else. -/
def expressionRest (parse : Level → Action Unit) (operators : Action Unit) (level : Level) :
    Action Unit := do
  match operand? (← previousToken).kind with
  | some o =>
    let canAssign : Bool := level ≤ .assignment
    operand parse canAssign o
    operators
    if ← acceptAssign canAssign then mistake .invalidAssignTarget
  | none => mistake .expectedExpression

/-- An expression at a level. -/
def expressionWith (parse : Level → Action Unit) (operators : Action Unit) (level : Level) :
    Action Unit := do
  advance
  expressionRest parse operators level

/-- What is read at the end of the source where an operand should stand. -/
def missingOperand : Action Unit := do
  advance
  mistake .expectedExpression

/-- Counts one more argument. -/
def countArgument (count : Nat) : Action Nat := do
  if count = 255 then mistake .tooManyArguments
  return count + 1

mutual

/-- An expression at a level. -/
def expressionAt : Nat → Level → Action Unit
  | 0, _ => missingOperand
  | n + 1, level => expressionWith (expressionAt n) (operators n level) level

/-- The operators that bind at least as tightly as a level. -/
def operators : Nat → Level → Action Unit
  | 0, _ => pure ()
  | n + 1, level => do
    match operator? (← currentKind) with
    | some o =>
      if level ≤ o.level then
        advance
        operator (expressionAt n) (arguments n 0) o
        operators n level
    | none => pure ()

/-- Arguments separated by commas, after those already counted. -/
def arguments : Nat → Nat → Action Nat
  | 0, count => do
    missingOperand
    countArgument count
  | n + 1, count => do
    expressionWith (expressionAt n) (operators n .assignment) .assignment
    let count ← countArgument count
    if ← accept .comma then arguments n count else return count

end

/-- A whole expression. -/
def expression (n : Nat) : Action Unit := expressionAt n .assignment

end StackScript.Compiler
