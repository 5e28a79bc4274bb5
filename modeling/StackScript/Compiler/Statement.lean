import StackScript.Compiler.Expression

/-! Statements and declarations. Blocks are the only statements inside statements, so each form
takes the compilation of the declarations in its block as an argument, and the recursion is that of
the declarations alone. As in expressions it goes down on a bound of the tokens still unread. -/
namespace StackScript.Compiler

/-- A block after its opening mark, with variables of its own. -/
def blockInScope (body : Action Unit) : Action Unit := do
  enterScope
  body
  expect .blockEnd .blockEnd
  leaveScope

/-- Printed expressions, separated by commas. -/
def printedItems : Nat → Action Unit
  | 0 => do
    expression 0
    emit .print
  | n + 1 => do
    expression (n + 1)
    emit .print
    if ← accept .comma then printedItems n

def printStatement (n : Nat) : Action Unit := do
  printedItems n
  expect .outEnd .printEnd

/-- What a read statement reads, by the mark after its keyword. -/
def inputOp? : TokenKind → Option Opcode
  | .readString => some .readString
  | .readNumber => some .readNumber
  | .readChar => some .readChar
  | _ => none

def readForm : Action Unit := do
  match inputOp? (← currentKind) with
  | some op =>
    advance
    emit op
  | none =>
    mistakeAhead (.expected .inputType)
    advance

/-- The variable that gets what is read. -/
def readTarget : Action Unit := do
  expect .ident .readTarget
  let access ← accessTo (← previousToken).lexeme
  emitWith access.set access.operand
  emit .pop
  expect .readEnd .readEnd

def readStatement : Action Unit := do
  readForm
  readTarget

def elsePart (body : Action Unit) : Action Unit := do
  if ← accept .else_ then
    expect .blockStart .elseBlock
    blockInScope body

def ifStatement (n : Nat) (body : Action Unit) : Action Unit := do
  expression n
  let thenJump ← openJump .jumpIfFalse
  emit .pop
  expect .blockStart .conditionBlock
  blockInScope body
  let elseJump ← openJump .jump
  closeJump thenJump
  emit .pop
  elsePart body
  closeJump elseJump

/-- The body runs until the condition holds. -/
def loopStatement (n : Nat) (body : Action Unit) : Action Unit := do
  let start ← codeSize
  expression n
  let exit ← openJump .jumpIfTrue
  emit .pop
  expect .blockStart .conditionBlock
  blockInScope body
  emitBackJump start
  closeJump exit
  emit .pop

/-- Nothing can be given back outside all functions. -/
def checkInFunction : Action Unit := do
  if (← get).draft.isScript then mistake .outOutsideFunction

/-- What is given back: null if there is no expression. -/
def outValue (n : Nat) : Action Unit := do
  if ← accept .outEnd then emitReturn
  else
    expression n
    expect .outEnd .returnEnd
    emit .out

def outStatement (n : Nat) : Action Unit := do
  checkInFunction
  outValue n

/-- The first value of a variable: null if there is no expression. -/
def initializer (n : Nat) : Action Unit := do
  if ← accept .assign then expression n else emit .null

def variableDeclaration (n : Nat) : Action Unit := do
  let global ← readNewName .variableName
  initializer n
  settleVariable global

/-- Whether there can be another parameter after those already counted. -/
def checkParameterCount (count : Nat) : Action Unit :=
  if 255 ≤ count then mistakeAhead .tooManyParameters else pure ()

/-- A parameter, after those already counted: a local variable. -/
def parameter (count : Nat) : Action Unit := do
  checkParameterCount count
  let global ← readNewName .parameterName
  settleVariable global

/-- Parameters separated by commas, after those already counted. -/
def parameters : Nat → Nat → Action Nat
  | 0, count => do
    parameter count
    let _ ← accept .comma
    return count + 1
  | n + 1, count => do
    parameter count
    if ← accept .comma then parameters n (count + 1) else return count + 1

/-- What stands between the parentheses after the name of a function; gives the number of parameters. -/
def parameterList (n : Nat) : Action Nat := do
  if ← check .rightParen then return 0 else parameters n 0

/-- Puts a new function in the place of the one being compiled, which is given back. -/
def beginFunction (name : Symbol) : Action Draft :=
  modifyGet fun s => (s.draft, { s with draft := { name := some name } })

/-- The listing of a function under its name. -/
def listing? (store : Store) (f : Function) : Option String := do
  let title ←
    match f.name with
    | some name => store.text? name
    | none => some "<script>"
  f.bytecode.listing? store title

/-- Lists the function being compiled, if that is asked for and there has been no mistake. -/
def listFunction : Action Unit := do
  let s ← get
  if s.printCode ∧ s.errors.isEmpty then
    let text := listing? s.store s.draft.toFunction
    ensure text.isSome .listable
    modify fun s => { s with listing := s.listing ++ text.getD "" }

/-- Makes the function being compiled an object. -/
def addFunction : Action FunctionRef :=
  modifyGet fun s =>
    let (ref, store) := s.store.addFunction s.draft.toFunction
    (ref, { s with store })

/-- Ends the function being compiled. -/
def finishFunction : Action FunctionRef := do
  emitReturn
  listFunction
  addFunction

/-- Records how many parameters the function has. More than a byte can count are a mistake. -/
def setArity (count : Nat) : Action Unit :=
  modify fun s => { s with draft := { s.draft with arity := (min count 255).toUInt8 } }

/-- A function after its name, up to its body; gives the function around it. -/
def functionHead (n : Nat) : Action Draft := do
  let name ← intern (← previousToken).lexeme
  let outer ← beginFunction name
  enterScope
  expect .leftParen .parametersStart
  let count ← parameterList n
  setArity count
  expect .rightParen .parametersEnd
  expect .blockStart .functionBlock
  return outer

/-- A function after its name: parameters and body. It is left on the stack as a constant of the
function around it. -/
def functionBody (n : Nat) (body : Action Unit) : Action Unit := do
  let outer ← functionHead n
  body
  expect .blockEnd .blockEnd
  let function ← finishFunction
  modify fun s => { s with draft := outer }
  emitConstant (.function function)

def functionDeclaration (n : Nat) (body : Action Unit) : Action Unit := do
  let global ← readNewName .functionName
  bringInScope
  functionBody n body
  settleVariable global

/-- The tokens that a compilation can go on from after a mistake. -/
def startsStatement : TokenKind → Bool
  | .var | .fun_ | .if_ | .loop | .print | .read | .out | .blockEnd => true
  | _ => false

/-- Reads on to the next token that a compilation can go on from. -/
def skipToStatement : Nat → Action Unit
  | 0 => pure ()
  | n + 1 => do
    let kind ← currentKind
    if kind = .eof ∨ startsStatement kind then return
    advance
    skipToStatement n

/-- After a mistake, mistakes are reported again and tokens are skipped. -/
def recover (n : Nat) : Action Unit := do
  if (← get).recovering then
    modify fun s => { s with recovering := false }
    skipToStatement n

/-- A declaration or a statement after its first token, if that token is a sign of its own. -/
def signed? (n : Nat) (body : Action Unit) : TokenKind → Option (Action Unit)
  | .fun_ => some (functionDeclaration n body)
  | .var => some (variableDeclaration n)
  | .print => some (printStatement n)
  | .read => some readStatement
  | .if_ => some (ifStatement n body)
  | .loop => some (loopStatement n body)
  | .out => some (outStatement n)
  | .leftBracket | .blockStart => some (blockInScope body)
  | _ => none

/-- A declaration or a statement, at a token that is not the end of the source. -/
def declaration (n : Nat) (body : Action Unit) : Action Unit := do
  match signed? n body (← currentKind) with
  | some statement =>
    advance
    statement
  | none =>
    expression (n + 1)
    emit .pop
  recover n

/-- Declarations up to the end of a block, or of the source. -/
def declarations : Nat → Action Unit
  | 0 => pure ()
  | n + 1 => do
    let kind ← currentKind
    if kind = .blockEnd ∨ kind = .eof then return
    declaration n (declarations n)
    declarations n

/-- Declarations up to the end of the source, which is read too. -/
def script : Nat → Action Unit
  | 0 => advance
  | n + 1 => do
    if ← accept .eof then return
    declaration n (declarations n)
    script n

end StackScript.Compiler
