import StackScript.Compiler.Statement

/-! Compiling a whole source. The code outside all functions becomes a function without a name, and
every mistake in the source is reported. -/
namespace StackScript

/-- What compiling a source gives. The store has grown, whether there were mistakes or not. -/
structure Compilation where
  result : Except (List CompileError) FunctionRef
  store : Store
  listing : String
  defect : Option Compiler.Defect

namespace Compiler

/-- The whole source, from before its first token. -/
def wholeScript (n : Nat) : Action FunctionRef := do
  advance
  script n
  finishFunction

end Compiler

/-- Compiles a source into functions in a store. -/
def compile (source : String) (store : Store) (printCode : Bool) : Compilation :=
  let stream := TokenStream.ofSource source
  let (script, s) :=
    (Compiler.wholeScript stream.lexemes.length).run (.start stream store printCode)
  ⟨if s.errors.isEmpty then .ok script else .error s.errors.toList, s.store, s.listing,
    s.defect⟩

end StackScript
