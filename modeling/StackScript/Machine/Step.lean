import StackScript.Bytecode.Listing
import StackScript.Machine.Basic
import StackScript.Number.Numeral
import StackScript.Text.Utf8

/-! One step of the machine: it reads an instruction of the innermost call and carries it out.
Operands are checked before anything is taken off the stack. -/
namespace StackScript.Machine

def fail (error : RuntimeError) : Exec α := throw (.failed error)
def stuck (reason : Stuck) : Exec α := throw (.stuck reason)

/-- The value, or no rule. -/
def orStuck (reason : Stuck) : Option α → Exec α
  | some a => pure a
  | none => stuck reason

/-! ### Code -/

/-- Reads the next byte of the innermost call. -/
def readByte : Exec UInt8 := fun m =>
  match m.frames with
  | [] => .error (.stuck .noFrame) m
  | f :: callers =>
    match f.function.bytecode.code[f.ip]? with
    | some b => .ok b { m with frames := { f with ip := f.ip + 1 } :: callers }
    | none => .error (.stuck .codeEnd) m

/-- Reads a distance, high byte first. -/
def readPair : Exec Nat := do
  let high ← readByte
  let low ← readByte
  return high.toNat * 256 + low.toNat

/-- The innermost call. -/
def frame : Exec Frame := do orStuck .noFrame (← get).frames.head?

/-- Reads the index of a constant. -/
def readConstant : Exec Value := do
  let i ← readByte
  orStuck .badConstant ((← frame).function.bytecode.constant? i)

/-- Reads the index of a constant that is a name. -/
def readName : Exec Symbol := do
  match ← readConstant with
  | .string name => return name
  | _ => stuck .badName

/-- Goes on from another place in the code of the innermost call. -/
def jumpTo (target : Nat → Option Nat) : Exec Unit := fun m =>
  match m.frames with
  | [] => .error (.stuck .noFrame) m
  | f :: callers =>
    match target f.ip with
    | some ip => .ok () { m with frames := { f with ip } :: callers }
    | none => .error (.stuck .jumpOut) m

def jumpForward (distance : Nat) : Exec Unit := jumpTo fun ip => some (ip + distance)

def jumpBack (distance : Nat) : Exec Unit :=
  jumpTo fun ip => if distance ≤ ip then some (ip - distance) else none

/-! ### Stack -/

def push (v : Value) : Exec Unit := fun m =>
  if m.config.stackSize ≤ m.stack.size then .error (.failed .stackOverflow) m
  else .ok () { m with stack := m.stack.push v }

def pop : Exec Value := fun m =>
  match m.stack.back? with
  | some v => .ok v { m with stack := m.stack.pop }
  | none => .error (.stuck .emptyStack) m

/-- The value below some others. -/
def peek (depth : Nat) : Exec Value := fun m =>
  if depth < m.stack.size then
    match m.stack[m.stack.size - 1 - depth]? with
    | some v => .ok v m
    | none => .error (.stuck .emptyStack) m
  else .error (.stuck .emptyStack) m

/-- Puts a value in the place of the topmost one. -/
def setTop (v : Value) : Exec Unit := fun m =>
  if m.stack.isEmpty then .error (.stuck .emptyStack) m
  else .ok () { m with stack := m.stack.pop.push v }

/-- Drops all values above a height. -/
def truncate (height : Nat) : Exec Unit :=
  modify fun m => { m with stack := m.stack.shrink height }

def getSlot (slot : UInt8) : Exec Value := do
  let base := (← frame).base
  orStuck .badSlot ((← get).stack[base + slot.toNat]?)

def setSlot (slot : UInt8) (v : Value) : Exec Unit := do
  let place := (← frame).base + slot.toNat
  if place < (← get).stack.size then
    modify fun m => { m with stack := m.stack.setIfInBounds place v }
  else stuck .badSlot

/-! ### Operations -/

/-- Replaces two numbers by what an operation makes of them. -/
def combineNumbers (f : Double → Double → Value) : Exec Unit := do
  match ← peek 1, ← peek 0 with
  | .number x, .number y =>
    let _ ← pop
    setTop (f x y)
  | _, _ => fail .expectedTwoNumbers

/-- The symbol of a text. -/
def intern (text : String) : Exec Symbol :=
  modifyGet fun m =>
    let (symbol, store) := m.store.intern text
    (symbol, { m with store })

/-- Adds two numbers, or joins the bytes of two textual values. -/
def addTop : Exec Unit := do
  match ← peek 1, ← peek 0 with
  | .number x, .number y =>
    let _ ← pop
    setTop (.number (x.add y))
  | v, w =>
    if v.isTextual ∧ w.isTextual then
      let left ← orStuck .unknownReference ((← get).store.bytes? v)
      let right ← orStuck .unknownReference ((← get).store.bytes? w)
      let joined ← intern (Utf8.decode (left ++ right))
      let _ ← pop
      setTop (.string joined)
    else fail .invalidAddOperands

/-- Replaces two values by whether they are equal, or unequal. -/
def compareTop (equal : Bool) : Exec Unit := do
  let w ← pop
  let v ← peek 0
  setTop (.bool (v.equals w == equal))

/-- Uses the console; a failure ends the run. -/
def withConsole (f : Console → Except ConsoleError α × Console) : Exec α := fun m =>
  match f m.console with
  | (.ok a, console) => .ok a { m with console }
  | (.error e, console) => .error (.failed (.console e)) { m with console }

/-- Prints the topmost value, which is taken off first. -/
def printTop : Exec Unit := do
  let v ← pop
  let bytes ← orStuck .unknownReference ((← get).store.bytes? v)
  withConsole (·.write bytes)

/-- Reads a line, after what has been printed is sent out. -/
def readLine : Exec (List UInt8) := do
  withConsole Console.flush
  withConsole Console.readLine

def undefined (name : Symbol) : Exec α := do
  let text ← orStuck .unknownReference ((← get).store.text? name)
  fail (.undefinedVariable text)

/-! ### Calls -/

/-- Starts a call of a function whose arguments are on the stack. -/
def callFunction (f : Function) (count : UInt8) : Exec Unit := do
  if count ≠ f.arity then fail (.arityMismatch f.arity count)
  if (← get).frames.length = (← get).config.maxFrames then fail .stackOverflow
  if (← get).stack.size < count.toNat + 1 then stuck .emptyStack
  modify fun m =>
    { m with frames := ⟨f, 0, m.stack.size - count.toNat - 1⟩ :: m.frames }

/-- Calls a function of the host. Its result replaces it and its arguments. -/
def callNative (n : Native) (count : UInt8) : Exec Unit := do
  if count ≠ n.arity then fail (.arityMismatch n.arity count)
  let size := (← get).stack.size
  if size < count.toNat + 1 then stuck .emptyStack
  let arguments := ((← get).stack.extract (size - count.toNat) size).toList
  truncate (size - count.toNat - 1)
  push (n.call arguments)

/-- Calls the value below its arguments. -/
def callBelow (count : UInt8) : Exec Unit := do
  match ← peek count.toNat with
  | .function ref =>
    callFunction (← orStuck .unknownReference ((← get).store.function? ref)) count
  | .native ref => callNative (← orStuck .unknownReference ((← get).store.native? ref)) count
  | _ => fail .notCallable

/-- Ends the innermost call; the run is over with the script. -/
def returnTop : Exec Unit := do
  let v ← pop
  match (← get).frames with
  | [] => stuck .noFrame
  | f :: callers =>
    modify fun m => { m with frames := callers }
    if callers.isEmpty then
      let _ ← pop
      throw .finished
    truncate f.base
    push v

/-- Carries out an operation whose byte has been read. -/
def execute : Opcode → Exec Unit
  | .constant => do push (← readConstant)
  | .null => push .null
  | .true => push (.bool true)
  | .false => push (.bool false)
  | .pop => do let _ ← pop
  | .getLocal => do push (← getSlot (← readByte))
  | .setLocal => do
    let slot ← readByte
    setSlot slot (← peek 0)
  | .getGlobal => do
    let name ← readName
    match (← get).globals[name]? with
    | some v => push v
    | none => undefined name
  | .setGlobal => do
    let name ← readName
    let v ← peek 0
    if (← get).globals.contains name then
      modify fun m => { m with globals := m.globals.insert name v }
    else undefined name
  | .defineGlobal => do
    let name ← readName
    let v ← pop
    modify fun m => { m with globals := m.globals.insert name v }
  | .equal => compareTop true
  | .notEqual => compareTop false
  | .greater => combineNumbers fun x y => .bool (y.less x)
  | .greaterEqual => combineNumbers fun x y => .bool (y.lessEqual x)
  | .less => combineNumbers fun x y => .bool (x.less y)
  | .lessEqual => combineNumbers fun x y => .bool (x.lessEqual y)
  | .add => addTop
  | .subtract => combineNumbers fun x y => .number (x.sub y)
  | .multiply => combineNumbers fun x y => .number (x.mul y)
  | .divide => combineNumbers fun x y => .number (x.div y)
  | .not => do setTop (.bool (← peek 0).isFalsey)
  | .negate => do
    match ← peek 0 with
    | .number x => setTop (.number x.neg)
    | _ => fail .expectedOneNumber
  | .print => printTop
  | .readString => do
    let line ← readLine
    push (.string (← intern (Utf8.decode (Console.trimLineEnd line).toByteArray)))
  | .readNumber => do
    let line ← readLine
    let text := (Console.trimLineEnd line).map fun b => Char.ofNat b.toNat
    push (.number (Numeral.ofLine text))
  | .readChar => do push (.char ((← readLine).head?.getD 0))
  | .jump => do jumpForward (← readPair)
  | .jumpIfFalse => do
    let distance ← readPair
    if (← peek 0).isFalsey then jumpForward distance
  | .jumpIfTrue => do
    let distance ← readPair
    unless (← peek 0).isFalsey do jumpForward distance
  | .loop => do jumpBack (← readPair)
  | .call => do callBelow (← readByte)
  | .out => returnTop

/-- Reads an instruction and carries it out. -/
def step : Exec Unit := do
  let byte ← readByte
  match Opcode.ofByte? byte with
  | some op => execute op
  | none => fail (.unknownOpcode byte)

/-! ### Tracing -/

/-- The stack in a trace, bottom first. -/
def stackText? (m : Machine) : Option String := do
  let items ← m.stack.toList.mapM m.store.escaped?
  some ("          " ++ String.join (items.map fun text => "[ " ++ text ++ " ]") ++ "\n")

/-- What a trace shows before a step: the stack and the instruction that comes next. -/
def traceText? (m : Machine) : Option String := do
  let stack ← m.stackText?
  let f ← m.frames.head?
  let instruction ← f.function.bytecode.instructionText? m.store f.ip
  some (stack ++ instruction)

/-- Shows what comes next, if that is asked for. -/
def observe : Exec Unit := do
  if (← get).config.traceExecution then
    let text ← orStuck .noInstruction (← get).traceText?
    modify fun m => { m with console := m.console.note text }

/-- A step, shown before if that is asked for. -/
def cycle : Exec Unit := do
  observe
  step

end StackScript.Machine
