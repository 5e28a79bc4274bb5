import StackScript.Bytecode.Basic

/-! What programs create: interned strings, compiled functions and host functions. Nothing is ever
taken out, so a reference stays good. -/
namespace StackScript

/-- A compiled function; the script has no name. -/
structure Function where
  name : Option Symbol
  arity : UInt8 := 0
  bytecode : Bytecode := {}
  deriving DecidableEq, Repr, Inhabited

/-- A function of the host. It gets its arguments in order. -/
structure Native where
  name : Symbol
  arity : UInt8
  call : List Value → Value
  deriving Inhabited

structure Store where
  symbols : Symbols := .empty
  functions : Array Function := #[]
  natives : Array Native := #[]
  deriving Inhabited

namespace Store

/-- The number of objects: each distinct string once, each function and each native. -/
def size (s : Store) : Nat := s.symbols.size + s.functions.size + s.natives.size

/-- The symbol of a text, which becomes an object if it is new. -/
def intern (s : Store) (text : String) : Symbol × Store :=
  let (symbol, symbols) := s.symbols.intern text
  (symbol, { s with symbols })

/-- The symbol of a text that has been interned. -/
def find? (s : Store) (text : String) : Option Symbol := s.symbols.find? text

def text? (s : Store) (symbol : Symbol) : Option String := s.symbols.text? symbol

def addFunction (s : Store) (f : Function) : FunctionRef × Store :=
  (⟨s.functions.size⟩, { s with functions := s.functions.push f })

def addNative (s : Store) (n : Native) : NativeRef × Store :=
  (⟨s.natives.size⟩, { s with natives := s.natives.push n })

def function? (s : Store) (f : FunctionRef) : Option Function := s.functions[f.index]?

def native? (s : Store) (n : NativeRef) : Option Native := s.natives[n.index]?

end Store
end StackScript
