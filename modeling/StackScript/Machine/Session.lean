import StackScript.Machine.Step

/-! Running sources on a machine, one after another. A source that is rejected changes nothing but
the store. Whatever happens to one that runs, no value and no call is left over from it. -/
namespace StackScript.Machine

/-- Takes steps until the run is over, or until a number of steps is used up. -/
def runFor : Nat → Machine → Option (Halt × Machine)
  | 0, _ => none
  | n + 1, m =>
    match cycle.run m with
    | .ok _ m => runFor n m
    | .error halt m => some (halt, m)

/-- What interpreting a source comes to. -/
inductive Outcome
  | ok
  | failure (f : Failure)
  | stuck (reason : Stuck)
  deriving DecidableEq, Repr

/-- Puts a compiled script on the stack and starts to call it. -/
def enter (script : FunctionRef) : Exec Unit := do
  push (.function script)
  callFunction (← orStuck .unknownReference ((← get).store.function? script)) 0

/-- Ends a run that failed: stack and calls are cleared, and what was printed is sent out. -/
def abandon (m : Machine) (error : RuntimeError) : Outcome × Machine :=
  let trace := m.trace
  let (_, console) := m.console.flush
  (.failure (.failed error trace), { m with stack := #[], frames := [], console })

/-- Ends a run. One that went well ends by sending out what was printed, which may fail. -/
def conclude (halt : Halt) (m : Machine) : Outcome × Machine :=
  match halt with
  | .finished =>
    match m.console.flush with
    | (.ok _, console) => (.ok, { m with console })
    | (.error e, console) => { m with console }.abandon (.console e)
  | .failed error => m.abandon error
  | .stuck reason => (.stuck reason, m)

/-- What a machine may still owe to the world: what it has written and noted. -/
structure Pending where
  output : ByteArray
  diagnostics : String

/-- Hands over what has been written and noted so far. -/
def takePending (m : Machine) : Pending × Machine :=
  (⟨m.console.output, m.console.diagnostics⟩,
    { m with console := { m.console with output := .empty, diagnostics := "" } })

/-- Takes over what a compilation has added. -/
def accept (m : Machine) (c : Compilation) : Machine :=
  { m with store := c.store, console := m.console.note c.listing }

/-- Compiles a source and starts to call the script, unless it is over before its first step. -/
def start (source : String) (m : Machine) : Except (Outcome × Machine) Machine :=
  let c := compile source m.store m.config.printCode
  match c.defect, c.result with
  | some defect, _ => .error (.stuck (.badCompilation defect), m)
  | none, .error errors => .error (.failure (.rejected errors), m.accept c)
  | none, .ok script =>
    match (enter script).run (m.accept c) with
    | .ok _ m => .ok m
    | .error halt m => .error (m.conclude halt)

/-- Compiles a source and runs it for at most a number of steps; gives nothing if it is not over by
then. -/
def interpret (steps : Nat) (source : String) (m : Machine) : Option (Outcome × Machine) :=
  match m.start source with
  | .error early => some early
  | .ok m => (runFor steps m).map fun (halt, m) => m.conclude halt

/-- Whether the next step reads a line. -/
def awaitsLine (m : Machine) : Bool :=
  match m.frames.head?.bind fun f => f.function.bytecode.opAt? f.ip with
  | some .readString | some .readNumber | some .readChar => true
  | _ => false

/-- Adds a line to what can be read. -/
def supply (m : Machine) (line : ByteArray) : Machine :=
  { m with console := { m.console with input := m.console.input ++ line.toList } }

end StackScript.Machine
