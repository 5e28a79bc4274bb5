import StackScript.Store.Basic

/-! A function in the making: its code so far, and the local variables in scope. A variable's slot
is the number of older ones; slot zero holds the function itself. -/
namespace StackScript

/-- A local variable with the depth of its scope, unknown while its initializer is compiled. -/
structure Local where
  name : String
  depth : Option Nat
  deriving DecidableEq, Repr

/-- The local variables that a slot byte can name. -/
def maxLocals : Nat := 256

structure Draft where
  name : Option Symbol
  arity : UInt8 := 0
  bytecode : Bytecode := {}
  /-- The variables in scope, newest first; the empty name is that of slot zero. -/
  locals : List Local := [⟨"", some 0⟩]
  depth : Nat := 0
  /-- The constant of each global name used so far. -/
  names : List (Symbol × UInt8) := []
  deriving DecidableEq, Repr

namespace Draft

/-- The code outside all functions is the script. -/
def isScript (d : Draft) : Bool := d.name.isNone

def toFunction (d : Draft) : Function := ⟨d.name, d.arity, d.bytecode⟩

/-- The newest variable of a name, with its slot. -/
def findLocal? (name : String) : List Local → Option (Nat × Local)
  | [] => none
  | v :: older => if v.name = name then some (older.length, v) else findLocal? name older

/-- The variables declared in the innermost scope, or still without a depth, newest first. -/
def innermost (d : Draft) : List Local :=
  d.locals.takeWhile fun v => v.depth.all (d.depth ≤ ·)

/-- Whether the innermost scope already has a variable of the name. -/
def declares (d : Draft) (name : String) : Bool := d.innermost.any (·.name = name)

/-- Puts the newest variable in scope. -/
def bringInScope (d : Draft) : Draft :=
  match d.locals with
  | v :: older => { d with locals := { v with depth := some d.depth } :: older }
  | [] => d

/-- How many variables at the front belong to scopes deeper than the given one. -/
def leaving (depth : Nat) (locals : List Local) : Nat :=
  (locals.takeWhile fun v => v.depth.any (depth < ·)).length

end Draft
end StackScript
