import StackScript.Compiler.Program
import StackScript.Machine.Error
import StackScript.Machine.Natives
import StackScript.Store.Display

/-! The machine: its objects, the global variables, the operand stack, the active calls and the
console. Stack, globals and objects outlive a run, so a session is a sequence of runs. -/
namespace StackScript

structure Config where
  /-- How deep calls may nest. -/
  maxFrames : Nat := 64
  /-- Whether stack and instruction are shown before each step. -/
  traceExecution : Bool := false
  /-- Whether each compiled function is listed. -/
  printCode : Bool := false
  deriving DecidableEq, Repr, Inhabited

/-- The stack holds as many values as a slot byte can name, for each call. -/
def Config.stackSize (c : Config) : Nat := c.maxFrames * 256

/-- An active call: its function, the next byte of its code, and the place of its slot zero. -/
structure Frame where
  function : Function
  ip : Nat
  base : Nat
  deriving DecidableEq, Repr, Inhabited

/-- What no compiled code comes to: a step that the machine has no rule for. -/
inductive Stuck
  | noFrame
  | codeEnd
  | jumpOut
  | emptyStack
  | badSlot
  | badConstant
  | badName
  | unknownReference
  | noInstruction
  | badCompilation (defect : Compiler.Defect)
  deriving DecidableEq, Repr

/-- Why a run is over. -/
inductive Halt
  | finished
  | failed (error : RuntimeError)
  | stuck (reason : Stuck)
  deriving DecidableEq, Repr

structure Machine where
  config : Config
  store : Store := {}
  globals : Std.TreeMap Symbol Value := ∅
  stack : Array Value := #[]
  /-- The active calls, innermost first. -/
  frames : List Frame := []
  console : Console := {}

/-- Actions that change a machine and may end the run. -/
abbrev Exec := EStateM Halt Machine

namespace Machine

/-- Gives a name to a host function. -/
def defineNative (m : Machine) (spec : NativeSpec) : Machine :=
  let (name, store) := m.store.intern spec.name
  let (ref, store) := store.addNative ⟨name, spec.arity, spec.call⟩
  { m with store, globals := m.globals.insert name (.native ref) }

/-- A machine that knows the mathematical functions. -/
def new (config : Config) (console : Console) : Machine :=
  mathNatives.foldl defineNative { config, console }

/-- The value of a global variable. -/
def global? (m : Machine) (name : String) : Option Value :=
  (m.store.find? name).bind (m.globals[·]?)

/-- The active calls, innermost first, each with the line of the byte read last. -/
def trace (m : Machine) : List TraceLine :=
  m.frames.map fun f =>
    ⟨f.function.bytecode.lineAt (f.ip - 1), f.function.name.bind m.store.text?⟩

end Machine
end StackScript
