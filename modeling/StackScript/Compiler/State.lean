import StackScript.Bytecode.Listing
import StackScript.Compiler.Draft
import StackScript.Compiler.Error
import StackScript.Token.Stream

/-! The state of a compilation, and the actions on it that all parts of the grammar share: reading
tokens, reporting mistakes, and writing code. After a mistake nothing more is reported until the
compilation has found a place to go on from. -/
namespace StackScript.Compiler

/-- What the compilation takes for granted. It is checked where it is used, and never fails. -/
inductive Defect
  | scopeOpen
  | jumpInCode
  | loopInCode
  | literalDelimited
  | listable
  deriving DecidableEq, Repr

structure State where
  upcoming : List Lexeme
  lastLine : Nat
  current : Token
  previous : Token
  recovering : Bool := false
  errors : Array CompileError := #[]
  draft : Draft
  store : Store
  printCode : Bool := false
  /-- The listings of the functions finished before the first mistake. -/
  listing : String := ""
  /-- The first thing taken for granted that did not hold. -/
  defect : Option Defect := none

abbrev Action := StateM State

/-- Stands for the token before the first one. -/
def noToken : Token := .sourceEnd 0

namespace State

/-- Before the first token of a source. -/
def start (source : TokenStream) (store : Store) (printCode : Bool) : State where
  upcoming := source.lexemes
  lastLine := source.lastLine
  current := noToken
  previous := noToken
  draft := { name := none }
  store := store
  printCode := printCode

/-- How many tokens are still to be read, faulty pieces counted too. -/
def unread (s : State) : Nat := s.upcoming.length + if s.current.kind = .eof then 0 else 1

/-- Records a mistake, unless the compilation is still looking for a place to go on from. -/
def report (s : State) (line : Nat) (place : Place) (mistake : Mistake) : State :=
  if s.recovering then s
  else { s with recovering := true, errors := s.errors.push ⟨line, place, mistake⟩ }

/-- Makes the next token the current one and reports the faulty pieces before it. -/
def fetch : List Lexeme → State → State
  | [], s => { s with upcoming := [], current := .sourceEnd s.lastLine }
  | .token t :: rest, s => { s with upcoming := rest, current := t }
  | .fault error line :: rest, s => fetch rest (s.report line .unknown (.scan error))

/-- Reads the current token. -/
def advance (s : State) : State :=
  let upcoming := s.upcoming
  fetch upcoming { s with previous := s.current, upcoming := [] }

def emitByte (s : State) (byte : UInt8) : State :=
  { s with draft := { s.draft with bytecode := s.draft.bytecode.write byte s.previous.line } }

end State

/-- Takes something for granted. -/
def ensure (holds : Bool) (defect : Defect) : Action Unit := do
  unless holds do modify fun s => { s with defect := s.defect <|> some defect }

/-! ### Tokens -/

def advance : Action Unit := modify State.advance

def currentKind : Action TokenKind := do return (← get).current.kind
def previousToken : Action Token := do return (← get).previous

/-- Whether the current token is of a kind. -/
def check (kind : TokenKind) : Action Bool := do return (← currentKind) = kind

/-- Reads the current token if it is of a kind. -/
def accept (kind : TokenKind) : Action Bool := do
  if ← check kind then
    advance
    return true
  return false

/-! ### Mistakes -/

def mistakeAt (t : Token) (mistake : Mistake) : Action Unit :=
  modify (·.report t.line (.ofToken t) mistake)

/-- Reports a mistake at the token read last. -/
def mistake (m : Mistake) : Action Unit := do mistakeAt (← get).previous m

/-- Reports a mistake at the token that comes next. -/
def mistakeAhead (m : Mistake) : Action Unit := do mistakeAt (← get).current m

/-- Reads a token that has to be of a kind. -/
def expect (kind : TokenKind) (what : Expectation) : Action Unit := do
  unless ← accept kind do mistakeAhead (.expected what)

/-! ### Code -/

/-- Writes a byte, which comes from the line of the token read last. -/
def emitByte (byte : UInt8) : Action Unit := modify (·.emitByte byte)

def emit (op : Opcode) : Action Unit := emitByte op.toByte

def emitWith (op : Opcode) (operand : UInt8) : Action Unit := do
  emit op
  emitByte operand

/-- The end of every function: return null. -/
def emitReturn : Action Unit := do
  emit .null
  emit .out

def codeSize : Action Nat := do return (← get).draft.bytecode.size

def intern (text : String) : Action Symbol :=
  modifyGet fun s =>
    let (symbol, store) := s.store.intern text
    (symbol, { s with store })

/-- Adds a constant to the pool of the function; zero stands in when the pool is full. -/
def poolConstant (v : Value) : Action UInt8 := do
  match (← get).draft.bytecode.addConstant? v with
  | some (i, bytecode) =>
    modify fun s => { s with draft := { s.draft with bytecode } }
    return i
  | none =>
    mistake .tooManyConstants
    return 0

def emitConstant (v : Value) : Action Unit := do emitWith .constant (← poolConstant v)

/-- Adds a global name to the constants of the function. -/
def newNameConstant (name : Symbol) : Action UInt8 := do
  match (← get).draft.bytecode.addConstant? (.string name) with
  | some (i, bytecode) =>
    modify fun s =>
      { s with draft := { s.draft with bytecode, names := (name, i) :: s.draft.names } }
    return i
  | none =>
    mistake .tooManyConstants
    return 0

def symbolConstant (name : Symbol) : Action UInt8 := do
  match (← get).draft.names.lookup name with
  | some i => return i
  | none => newNameConstant name

/-- The constant that holds a global name; each name has one in every function that uses it. -/
def nameConstant (name : String) : Action UInt8 := do symbolConstant (← intern name)

/-- The greatest distance that two operand bytes hold. -/
def maxDistance : Nat := 65535

/-- Writes a jump whose distance is filled in later; gives the place of the distance. -/
def openJump (op : Opcode) : Action Nat := do
  emit op
  emitByte 0xff
  emitByte 0xff
  return (← codeSize) - 2

/-- Lets a jump go to the end of the code so far. -/
def closeJump (offset : Nat) : Action Unit := do
  ensure (offset + 2 ≤ (← codeSize)) .jumpInCode
  let distance := (← codeSize) - offset - 2
  if distance ≤ maxDistance then
    modify fun s =>
      { s with draft := { s.draft with bytecode := s.draft.bytecode.patch offset distance } }
  else mistake .jumpTooLarge

/-- The distance of a jump back, or the greatest one if that is too far. -/
def loopDistance (distance : Nat) : Action Nat :=
  if distance ≤ maxDistance then return distance
  else do
    mistake .loopTooLarge
    return maxDistance

/-- Writes a jump back to an earlier place. -/
def emitBackJump (start : Nat) : Action Unit := do
  emit .loop
  ensure (start ≤ (← codeSize)) .loopInCode
  let distance ← loopDistance ((← codeSize) - start + 2)
  emitByte (distance / 256).toUInt8
  emitByte distance.toUInt8

/-! ### Variables -/

/-- How a variable is read and written. -/
structure Access where
  get : Opcode
  set : Opcode
  operand : UInt8
  deriving DecidableEq, Repr

/-- A variable cannot be used in its own initializer. -/
def checkInitialized (v : Local) : Action Unit :=
  if v.depth.isNone then mistake .selfReferencingInitializer else pure ()

/-- Finds the innermost local variable of a name, or else the global one. -/
def accessTo (name : String) : Action Access := do
  match Draft.findLocal? name (← get).draft.locals with
  | some (slot, v) =>
    checkInitialized v
    return ⟨.getLocal, .setLocal, slot.toUInt8⟩
  | none => return ⟨.getGlobal, .setGlobal, ← nameConstant name⟩

/-- A scope has no two variables of one name. -/
def checkNew (name : String) : Action Unit := do
  if (← get).draft.declares name then mistake .variableRedeclaration

def addLocal (name : String) : Action Unit := do
  if (← get).draft.locals.length = maxLocals then mistake .tooManyLocals
  else modify fun s => { s with draft := { s.draft with locals := ⟨name, none⟩ :: s.draft.locals } }

/-- Declares a local variable; outside all scopes names are global. -/
def declareLocal (name : String) : Action Unit := do
  if 0 < (← get).draft.depth then
    checkNew name
    addLocal name

def bringInScope : Action Unit :=
  modify fun s => if 0 < s.draft.depth then { s with draft := s.draft.bringInScope } else s

/-- Reads the name of a new variable; gives its constant if it is global. -/
def readNewName (what : Expectation) : Action UInt8 := do
  expect .ident what
  declareLocal (← previousToken).lexeme
  if 0 < (← get).draft.depth then return 0
  nameConstant (← previousToken).lexeme

/-- Takes the value on the stack for a variable: a local one is that place on the stack. -/
def settleVariable (global : UInt8) : Action Unit := do
  if 0 < (← get).draft.depth then bringInScope
  else emitWith .defineGlobal global

def enterScope : Action Unit :=
  modify fun s => { s with draft := { s.draft with depth := s.draft.depth + 1 } }

def emitPops : Nat → Action Unit
  | 0 => pure ()
  | n + 1 => do
    emit .pop
    emitPops n

/-- Leaves a scope and drops its variables. -/
def leaveScope : Action Unit := do
  let draft := (← get).draft
  ensure (0 < draft.depth) .scopeOpen
  let dropped := Draft.leaving (draft.depth - 1) draft.locals
  modify fun s =>
    { s with draft := { s.draft with
      depth := s.draft.depth - 1, locals := s.draft.locals.drop dropped } }
  emitPops dropped

end StackScript.Compiler
