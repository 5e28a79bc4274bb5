import StackScript.Compiler.Error
import StackScript.Machine.Console

/-! What can go wrong while a program runs, and how it is worded. -/
namespace StackScript

inductive RuntimeError
  | stackOverflow
  | invalidAddOperands
  | expectedTwoNumbers
  | expectedOneNumber
  | undefinedVariable (name : String)
  | notCallable
  | arityMismatch (expected got : UInt8)
  | unknownOpcode (byte : UInt8)
  | console (error : ConsoleError)
  deriving DecidableEq, Repr

def RuntimeError.message : RuntimeError → String
  | stackOverflow => "Stack overflow."
  | invalidAddOperands => "Operands must be two numbers or two strings."
  | expectedTwoNumbers => "Operands must be numbers."
  | expectedOneNumber => "Operand must be a number."
  | undefinedVariable name => "Undefined variable '" ++ name ++ "'."
  | notCallable => "Can only call functions."
  | arityMismatch expected got =>
    "Expected " ++ toString expected.toNat ++ " arguments but got " ++ toString got.toNat ++ "."
  | unknownOpcode byte => "Unknown opcode " ++ toString byte.toNat ++ "."
  | console error => "I/O failure: " ++ error.message

/-- A line of a trace: where an active call stands, and its function, if it is not the script. -/
structure TraceLine where
  line : Nat
  function : Option String
  deriving DecidableEq, Repr

def TraceLine.text (t : TraceLine) : String :=
  "[line " ++ toString t.line ++ "] in " ++ t.function.getD "script"

/-- Why a source did not run to its end. -/
inductive Failure
  | rejected (errors : List CompileError)
  | failed (error : RuntimeError) (trace : List TraceLine)
  deriving DecidableEq, Repr

def Failure.text : Failure → String
  | rejected errors => String.intercalate "\n" (errors.map CompileError.text)
  | failed error trace =>
    "error: " ++ error.message ++ "\n" ++ String.intercalate "\n" (trace.map TraceLine.text)

end StackScript
