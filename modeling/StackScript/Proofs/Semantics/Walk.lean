import StackScript.Proofs.Semantics.Datum

/-! What a program means: a walk through its tree. Names of variables are looked up innermost first among the local ones,
then among the global ones; a function sees its own variables and the global ones only. A walk takes account of the space
that it needs: how deep calls nest, and how many values are held at a time. -/
namespace StackScript

/-- What a walk takes from outside: the functions of the host, and how deep calls may nest. -/
structure Limits where
  hosts : NativeRef → Option Host
  maxFrames : Nat

/-- How many values may be held at a time. -/
def Limits.space (l : Limits) : Nat := l.maxFrames * 256

/-- The surroundings of a piece of a program. -/
structure Surroundings extends Limits where
  /-- The names of the active calls, innermost first; the script has none. -/
  active : List (Option String)
  /-- How many values are held, but for the variables of the innermost call. -/
  held : Nat
  /-- Where the piece stands: how many bytes the code takes that is in front of it in its function. The operations of a
  function are told apart by their places; nothing else depends on them. -/
  place : Nat

/-- While one more value is held. -/
def Surroundings.hold (c : Surroundings) : Surroundings := { c with held := c.held + 1 }

/-- Behind some code. -/
def Surroundings.skip (c : Surroundings) (size : Nat) : Surroundings := { c with place := c.place + size }

/-- What outlives a program. -/
structure World where
  globals : String → Option Datum
  console : Console
  /-- How many functions have been declared, scripts among them. -/
  declared : Nat

/-- What a walk changes. -/
structure Scene extends World where
  /-- The variables of the innermost call, newest first. The oldest one holds the function itself; it has the empty name,
  which no source can spell. -/
  locals : List (String × Datum)

/-- Why a walk comes to no value. -/
inductive Stop
  /-- An error, the place of the operation that raised it, and the names of the calls that were active. -/
  | failed (error : RuntimeError) (place : Nat) (active : List (Option String))
  /-- The walk is longer than it was allowed to be. -/
  | tired

abbrev Walk := EStateM Stop Scene

namespace Scene

/-- The value of a variable. -/
def find? (s : Scene) (x : String) : Option Datum := (s.locals.lookup x).or (s.globals x)

/-- A global variable, which may be new, gets a value. -/
def define (s : Scene) (x : String) (v : Datum) : Scene :=
  { s with globals := fun y => if y = x then some v else s.globals y }

/-- Gives the newest variable of a name another value, if there is one. -/
def assignLocal? (x : String) (v : Datum) : List (String × Datum) → Option (List (String × Datum))
  | [] => none
  | (y, w) :: older => if y = x then some ((y, v) :: older) else (assignLocal? x v older).map ((y, w) :: ·)

/-- A variable gets another value, if there is one of the name. -/
def assign? (s : Scene) (x : String) (v : Datum) : Option Scene :=
  match assignLocal? x v s.locals with
  | some locals => some { s with locals }
  | none => if (s.globals x).isSome then some (s.define x v) else none

end Scene

namespace Walk
variable {α : Type}

def fail (c : Surroundings) (e : RuntimeError) : Walk α := throw (.failed e c.place c.active)

def orFail (c : Surroundings) : Except RuntimeError α → Walk α
  | .ok a => pure a
  | .error e => fail c e

/-- A value that is held from now on, if there is space for it. -/
def produce (c : Surroundings) (v : Datum) : Walk Datum := fun s =>
  if c.space ≤ c.held + s.locals.length then .error (.failed .stackOverflow c.place c.active) s else .ok v s

/-- Uses the console; a failure ends the walk. -/
def withConsole (c : Surroundings) (f : Console → Except ConsoleError α × Console) : Walk α := fun s =>
  match f s.console with
  | (.ok a, console) => .ok a { s with console }
  | (.error e, console) => .error (.failed (.console e) c.place c.active) { s with console }

/-- The value of a variable. -/
def lookup (c : Surroundings) (x : String) : Walk Datum := do
  match (← get).find? x with
  | some v => produce c v
  | none => fail c (.undefinedVariable x)

/-- Gives a variable another value, which is the value of the assignment too. -/
def assign (c : Surroundings) (x : String) (v : Datum) : Walk Datum := do
  match (← get).assign? x v with
  | some s =>
    set s
    return v
  | none => fail c (.undefinedVariable x)

/-- A new variable. Outside all blocks and functions it is global. -/
def declare (isLocal : Bool) (x : String) (v : Datum) : Walk Unit :=
  modify fun s => if isLocal then { s with locals := (x, v) :: s.locals } else s.define x v

/-- A block: its variables are dropped behind it. -/
def inBlock (body : Walk α) : Walk α := do
  let outer := (← get).locals.length
  let a ← body
  modify fun s => { s with locals := s.locals.drop (s.locals.length - outer) }
  return a

/-- Walks with other variables in the place of those at hand. -/
def withLocals (own : List (String × Datum)) (body : Walk α) : Walk α := do
  let caller := (← get).locals
  modify fun s => { s with locals := own }
  let a ← body
  modify fun s => { s with locals := caller }
  return a

/-- Writes a value. -/
def print (c : Surroundings) (v : Datum) : Walk Unit := withConsole c (·.write v.bytes)

/-- Reads a line, after what has been printed is sent out. -/
def readLine (c : Surroundings) : Walk (List UInt8) := do
  withConsole c Console.flush
  withConsole c Console.readLine

/-- Reads a line and makes a value of it. -/
def read (c : Surroundings) (form : InputForm) : Walk Datum := do
  let line ← readLine c
  produce c (form.datum line)

/-- Walks through the body of a function; gives the value of the call. -/
abbrev Enter := Surroundings → FunctionRef → FunctionTree → List Datum → Walk Datum

/-- Calls a value. The surroundings are those before the callee and its arguments. -/
def call (enter : Enter) (c : Surroundings) (args : List Datum) : Datum → Walk Datum
  | .function ref t =>
    if args.length ≠ t.parameters.length then
      fail c (.arityMismatch t.parameters.length.toUInt8 args.length.toUInt8)
    else if c.active.length = c.maxFrames then fail c .stackOverflow
    else do
      let s ← get
      enter { c with active := t.name :: c.active, held := c.held + s.locals.length, place := 0 } ref t args
  | .native ref =>
    match c.hosts ref with
    | some host =>
      if args.length ≠ host.arity.toNat then fail c (.arityMismatch host.arity args.length.toUInt8)
      else pure (host.call args)
    | none => fail c .notCallable
  | _ => fail c .notCallable

/-- Walks through the body of a loop until the condition holds, a number of times at most. What ends a function early ends
the loop too. -/
def repeatUntil (condition : Walk Datum) (body : Walk (Option Datum)) : Nat → Walk (Option Datum)
  | 0 => throw .tired
  | n + 1 => do
    let v ← condition
    if v.isFalsey then
      match ← body with
      | some v => return some v
      | none => repeatUntil condition body n
    else return none

end Walk

/-- A declared function as a tree. -/
def FunctionTree.named (x : String) (parameters : List String) (body : List Decl) (first : Nat) : FunctionTree :=
  ⟨some x, parameters, body, first, fun h => absurd h (Option.some_ne_none x)⟩

open Walk

mutual

/-- The value of an expression. -/
def Expr.eval (enter : Enter) (c : Surroundings) : Expr → Walk Datum
  | .literal l => produce c l.datum
  | .name x => lookup c x
  | .group e => e.eval enter c
  | .assign x value => do
    let v ← value.eval enter c
    Walk.assign (c.skip value.size) x v
  | .unary op e => do
    let v ← e.eval enter c
    orFail (c.skip e.size) (op.apply v)
  | .binary op left right => do
    let v ← left.eval enter c
    let w ← right.eval enter (c.hold.skip left.size)
    orFail (c.skip (left.size + right.size)) (op.apply v w)
  | .and left right => do
    let v ← left.eval enter c
    if v.isFalsey then return v else right.eval enter (c.skip (left.size + 4))
  | .or left right => do
    let v ← left.eval enter c
    if v.isFalsey then right.eval enter (c.skip (left.size + 4)) else return v
  | .call callee arguments => do
    let v ← callee.eval enter c
    let args ← Expr.evalAll enter (c.hold.skip callee.size) arguments
    Walk.call enter (c.skip (callee.size + allSize arguments)) args v

/-- The values of expressions, one after another; each of them is held while the next ones are found. -/
def Expr.evalAll (enter : Enter) (c : Surroundings) : List Expr → Walk (List Datum)
  | [] => return []
  | e :: es => do
    let v ← e.eval enter c
    let vs ← Expr.evalAll enter (c.hold.skip e.size) es
    return v :: vs

end

/-- Prints values one after another. -/
def Expr.printAll (enter : Enter) (c : Surroundings) : List Expr → Walk Unit
  | [] => return ()
  | e :: es => do
    let v ← e.eval enter c
    print (c.skip e.size) v
    printAll enter (c.skip (e.size + 1)) es

mutual

/-- Carries out a declaration or a statement; gives a value if that ends the function around it. Functions are numbered from
`first` on, in the order in which they end, and a loop runs for a number of times at most. -/
def Decl.exec (enter : Enter) (loops : Nat) (c : Surroundings) (isLocal : Bool) (first : Nat) : Decl → Walk (Option Datum)
  | .expression e => do
    let _ ← e.eval enter c
    return none
  | .print e es => do
    Expr.printAll enter c (e :: es)
    return none
  | .read form x => do
    let v ← Walk.read c form
    let _ ← Walk.assign (c.skip 1) x v
    return none
  | .if_ condition body => do
    let v ← condition.eval enter c
    if v.isFalsey then return none
    else inBlock (Decl.listExec enter loops (c.skip (condition.size + 4)) true first body)
  | .ifElse condition body alternative => do
    let v ← condition.eval enter c
    if v.isFalsey then
      inBlock (Decl.listExec enter loops (c.skip (condition.size + blockSize body + 8)) true (first + listFunctionCount body)
        alternative)
    else inBlock (Decl.listExec enter loops (c.skip (condition.size + 4)) true first body)
  | .until_ condition body =>
    repeatUntil (condition.eval enter c)
      (inBlock (Decl.listExec enter loops (c.skip (condition.size + 4)) true first body)) loops
  | .out none => do
    let v ← produce c .null
    return some v
  | .out (some e) => do
    let v ← e.eval enter c
    return some v
  | .block _ body => inBlock (Decl.listExec enter loops c true first body)
  | .var x none => do
    let v ← produce c .null
    declare isLocal x v
    return none
  | .var x (some e) => do
    let v ← e.eval enter c
    declare isLocal x v
    return none
  | .fun_ x parameters body => do
    let v ← produce c (.function ⟨first + listFunctionCount body⟩ (.named x parameters body first))
    declare isLocal x v
    return none

def Decl.listExec (enter : Enter) (loops : Nat) (c : Surroundings) (isLocal : Bool) (first : Nat) :
    List Decl → Walk (Option Datum)
  | [] => return none
  | d :: ds => do
    match ← d.exec enter loops c isLocal first with
    | some v => return some v
    | none => Decl.listExec enter loops (c.skip (d.size isLocal)) isLocal (first + d.functionCount) ds

end

/-- The variables of a call at its beginning. -/
def FunctionTree.locals (t : FunctionTree) (ref : FunctionRef) (args : List Datum) : List (String × Datum) :=
  (t.parameters.zip args).reverse ++ [("", .function ref t)]

namespace Walk

/-- The value of a call: null, unless there is another one. -/
def orNull (c : Surroundings) : Option Datum → Walk Datum
  | some v => return v
  | none => produce c .null

/-- Walks through a function with its arguments, and through those that it calls, so deep at most. -/
def invoke : Nat → Enter
  | 0 => fun _ _ _ _ => throw .tired
  | n + 1 => fun c ref t args => withLocals (t.locals ref args) do
    let v ← Decl.listExec (invoke n) (n + 1) c t.name.isSome t.first t.body
    orNull (c.skip (Decl.listSize t.name.isSome t.body)) v

end Walk

namespace World

/-- What is left of a program that is over: an error, and the names of the calls that were active. -/
abbrev Ending := Except (RuntimeError × List (Option String)) Unit

/-- Sends out what was printed; an error of the program counts more than one of the console. -/
def finish (w : World) : Ending → Ending × World
  | .ok () =>
    match w.console.flush with
    | (.ok _, console) => (.ok (), { w with console })
    | (.error e, console) => (.error (.console e, []), { w with console := console.flush.2 })
  | .error e => (.error e, { w with console := w.console.flush.2 })

/-- A script as a function. -/
def script (w : World) (ds : List Decl) : FunctionTree := ⟨none, [], ds, w.declared, FunctionTree.plain_script⟩

/-- A program has been read, and its functions have been declared. -/
def load (w : World) (ds : List Decl) : Scene :=
  { w with declared := w.declared + Decl.listFunctionCount ds + 1, locals := [] }

/-- Calls the script like a function. -/
def walk (w : World) (l : Limits) (fuel : Nat) (ds : List Decl) : Walk Datum := do
  let c : Surroundings := { l with active := [], held := 0, place := 0 }
  let v ← produce c (.function ⟨w.declared + Decl.listFunctionCount ds⟩ (w.script ds))
  call (invoke fuel) c [] v

/-- What a walk comes to, if it is not too long. -/
def ending : EStateM.Result Stop Scene Datum → Option (Ending × World)
  | .ok _ s => some (s.toWorld.finish (.ok ()))
  | .error (.failed e _ active) s => some (s.toWorld.finish (.error (e, active)))
  | .error .tired _ => none

/-- Runs a program. Gives nothing if the walk is longer than allowed. -/
def run (w : World) (l : Limits) (fuel : Nat) (ds : List Decl) : Option (Ending × World) :=
  ending ((w.walk l fuel ds).run (w.load ds))

end World

end StackScript
