import StackScript.Proofs.Compiler.Action
import StackScript.Proofs.Syntax.Grammar

/-! The compilation of a tree: the code that its tokens are compiled to, written by following the tree
instead of looking at the tokens, each of which is read where it stands. -/
namespace StackScript
open Compiler

def Literal.write : Literal → Action Unit
  | number text => do
    match Numeral.leading? text.toList with
    | some n => emitConstant (.number n.value)
    | none => mistake .invalidNumber
  | string text => do
    ensure (2 ≤ text.toList.length) .literalDelimited
    let content := Quoted.content text.toList
    emitConstant (.string (← intern (String.ofList content)))
  | char text => do
    ensure (2 ≤ text.toList.length) .literalDelimited
    emitConstant (.char (charByte text.toList))
  | newLine => emitConstant (.char 10)
  | tab => emitConstant (.char 9)
  | true_ => emit .true
  | false_ => emit .false

/-- Reads the comma that stands before something. -/
def readComma {α : Type} : List α → Action Unit
  | [] => pure ()
  | _ :: _ => advance

namespace Expr

mutual

def write : Expr → Action Unit
  | literal l => do
    advance
    l.write
  | name x => do
    advance
    let access ← accessTo x
    emitWith access.get access.operand
  | group e => do
    advance
    e.write
    advance
  | assign x value => do
    advance
    let access ← accessTo x
    advance
    value.write
    emitWith access.set access.operand
  | unary op e => do
    advance
    e.write
    emit op.opcode
  | binary op left right => do
    left.write
    advance
    right.write
    emit op.opcode
  | and left right => do
    left.write
    advance
    let skip ← openJump .jumpIfFalse
    emit .pop
    right.write
    closeJump skip
  | or left right => do
    left.write
    advance
    let skip ← openJump .jumpIfTrue
    emit .pop
    right.write
    closeJump skip
  | call callee arguments => do
    callee.write
    advance
    let count ← writeArguments 0 arguments
    advance
    emitWith .call (min count 255).toUInt8

/-- The arguments after those already counted. -/
def writeArguments : Nat → List Expr → Action Nat
  | count, [] => pure count
  | count, e :: es => do
    e.write
    let count ← countArgument count
    readComma es
    writeArguments count es

end

/-- Printed expressions with a comma before each. -/
def writeItems : List Expr → Action Unit
  | [] => pure ()
  | e :: es => do
    advance
    e.write
    emit .print
    writeItems es

end Expr

namespace Decl

/-- Reads and declares a name; gives its constant if it is global. -/
def writeNewName (name : String) : Action UInt8 := do
  advance
  declareLocal name
  if 0 < (← get).draft.depth then return 0
  nameConstant name

/-- A parameter, after those already counted. -/
def writeParameter (count : Nat) (name : String) : Action Unit := do
  checkParameterCount count
  let global ← writeNewName name
  settleVariable global

def writeParameters : Nat → List String → Action Nat
  | count, [] => pure count
  | count, x :: xs => do
    writeParameter count x
    readComma xs
    writeParameters (count + 1) xs

/-- A block after its opening mark. -/
def writeBlock (body : Action Unit) : Action Unit := do
  enterScope
  body
  advance
  leaveScope

/-- A function after its name, up to its body; gives the function around it. -/
def writeHead (name : String) (parameters : List String) : Action Draft := do
  let symbol ← intern name
  let outer ← beginFunction symbol
  enterScope
  advance
  let count ← writeParameters 0 parameters
  setArity count
  advance
  advance
  return outer

/-- A function after its name. -/
def writeFunction (name : String) (parameters : List String) (body : Action Unit) : Action Unit := do
  let outer ← writeHead name parameters
  body
  advance
  let function ← finishFunction
  modify fun s => { s with draft := outer }
  emitConstant (.function function)

mutual

def write : Decl → Action Unit
  | expression e => do
    e.write
    emit .pop
  | print first rest => do
    advance
    first.write
    emit .print
    Expr.writeItems rest
    advance
  | read form name => do
    advance
    advance
    emit form.opcode
    advance
    let access ← accessTo name
    emitWith access.set access.operand
    emit .pop
    advance
  | if_ condition body => do
    advance
    condition.write
    let thenJump ← openJump .jumpIfFalse
    emit .pop
    advance
    writeBlock (writeList body)
    let elseJump ← openJump .jump
    closeJump thenJump
    emit .pop
    closeJump elseJump
  | ifElse condition body alternative => do
    advance
    condition.write
    let thenJump ← openJump .jumpIfFalse
    emit .pop
    advance
    writeBlock (writeList body)
    let elseJump ← openJump .jump
    closeJump thenJump
    emit .pop
    advance
    advance
    writeBlock (writeList alternative)
    closeJump elseJump
  | until_ condition body => do
    advance
    let start ← codeSize
    condition.write
    let exit ← openJump .jumpIfTrue
    emit .pop
    advance
    writeBlock (writeList body)
    emitBackJump start
    closeJump exit
    emit .pop
  | out value => do
    advance
    checkInFunction
    match value with
    | none =>
      advance
      emitReturn
    | some e =>
      e.write
      advance
      emit .out
  | block _ body => do
    advance
    writeBlock (writeList body)
  | var name initial => do
    advance
    let global ← writeNewName name
    match initial with
    | none => emit .null
    | some e =>
      advance
      e.write
    settleVariable global
  | fun_ name parameters body => do
    advance
    let global ← writeNewName name
    bringInScope
    writeFunction name parameters (writeList body)
    settleVariable global

def writeList : List Decl → Action Unit
  | [] => pure ()
  | d :: ds => do
    d.write
    writeList ds

end

/-- An expression that stands as a statement leaves no value. -/
theorem run_write_expression (e : Expr) (s : State) :
    (expression e).write.run s = (emit .pop).run (e.write.run s).2 := by
  rw [write, run_bind]

/-- A whole program, from before its first token. -/
def writeProgram (ds : List Decl) : Action FunctionRef := do
  advance
  writeList ds
  advance
  finishFunction

end Decl
end StackScript
