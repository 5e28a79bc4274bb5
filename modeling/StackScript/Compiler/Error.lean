import StackScript.Token.Basic

/-! What a source can be rejected for, and how it is worded. -/
namespace StackScript

/-- What the grammar asks for at a place where something else stands. -/
inductive Expectation
  | functionName
  | variableName
  | parameterName
  | inputType
  | readTarget
  | printEnd
  | readEnd
  | returnEnd
  | blockEnd
  | groupEnd
  | argumentsEnd
  | parametersStart
  | parametersEnd
  | functionBlock
  | conditionBlock
  | elseBlock
  deriving DecidableEq, Repr

def Expectation.message : Expectation → String
  | functionName => "Expect function name."
  | variableName => "Expect variable name."
  | parameterName => "Expect parameter name."
  | inputType => "Expect input type after read statement."
  | readTarget => "Expect variable name after input type."
  | printEnd => "Expect '>>' after value."
  | readEnd => "Expect '<<' after variable name."
  | returnEnd => "Expect '>>' after return value."
  | blockEnd => "Expect ':]' after block."
  | groupEnd => "Expect ')' after expression."
  | argumentsEnd => "Expect ')' after arguments."
  | parametersStart => "Expect '(' after function name."
  | parametersEnd => "Expect ')' after parameters."
  | functionBlock => "Expect '[:' before function body."
  | conditionBlock => "Expect '[:' after condition."
  | elseBlock => "Expect '[:' after 'ewe'."

inductive Mistake
  | scan (error : ScanError)
  | expected (what : Expectation)
  | expectedExpression
  | invalidNumber
  | invalidAssignTarget
  | selfReferencingInitializer
  | variableRedeclaration
  | tooManyLocals
  | tooManyConstants
  | tooManyParameters
  | tooManyArguments
  | jumpTooLarge
  | loopTooLarge
  | outOutsideFunction
  deriving DecidableEq, Repr

def Mistake.message : Mistake → String
  | scan error => error.message
  | expected what => what.message
  | expectedExpression => "Expect expression."
  | invalidNumber => "Invalid number literal."
  | invalidAssignTarget => "Invalid assignment target."
  | selfReferencingInitializer => "Can't read local variable in its own initializer."
  | variableRedeclaration => "Already a variable with this name in this scope."
  | tooManyLocals => "Too many local variables in function."
  | tooManyConstants => "Too many constants in one chunk."
  | tooManyParameters => "Can't have more than 255 parameters."
  | tooManyArguments => "Can't have more than 255 arguments."
  | jumpTooLarge => "Too much code to jump over."
  | loopTooLarge => "Loop body too large."
  | outOutsideFunction => "Can't return from top-level code."

/-- Where a mistake was noticed. A faulty piece of source has no place of its own. -/
inductive Place
  | lexeme (text : String)
  | sourceEnd
  | unknown
  deriving DecidableEq, Repr

def Place.text : Place → String
  | lexeme text => " at '" ++ text ++ "'"
  | sourceEnd => " at end"
  | unknown => ""

/-- A token as the place of a mistake. -/
def Place.ofToken (t : Token) : Place :=
  if t.kind = .eof then sourceEnd else lexeme t.lexeme

structure CompileError where
  line : Nat
  place : Place
  mistake : Mistake
  deriving DecidableEq, Repr

def CompileError.text (e : CompileError) : String :=
  "[line " ++ toString e.line ++ "] Error" ++ e.place.text ++ ": " ++ e.mistake.message

end StackScript
