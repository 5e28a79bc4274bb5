import StackScript.Number.Format
import StackScript.Machine.Console
import StackScript.Machine.Error
import StackScript.Proofs.Code.Shape
import StackScript.Text.Utf8

/-! Values as the trees of a program know them, and what the operators make of them. There is no store: a string is its
text, and a function is its tree. -/
namespace StackScript

/-- A value. Functions are told apart by their numbers, each declaration having one of its own. -/
inductive Datum
  | null
  | bool (b : Bool)
  | number (x : Double)
  | char (byte : UInt8)
  | string (text : String)
  | function (ref : FunctionRef) (tree : FunctionTree)
  | native (ref : NativeRef)

/-- A function of the host. -/
structure Host where
  arity : UInt8
  call : List Datum → Datum

/-- The name of a function as the language shows it. -/
def FunctionTree.text (t : FunctionTree) : String :=
  match t.name with
  | some name => "<fn " ++ name ++ ">"
  | none => "<script>"

namespace Datum

def isFalsey : Datum → Bool
  | bool b => !b
  | number x => x.isZero
  | _ => false

def isTextual : Datum → Bool
  | char _ | string _ => true
  | _ => false

def text : Datum → String
  | null => ""
  | bool b => if b then "twue" else "fawse"
  | number x => x.text
  | char byte => String.singleton (Char.ofNat byte.toNat)
  | string text => text
  | function _ t => t.text
  | native _ => "<native fn>"

/-- What printing a value writes: a character is its byte. -/
def bytes : Datum → ByteArray
  | char byte => ⟨#[byte]⟩
  | v => v.text.toUTF8

/-- Null equals nothing, and neither do values of different kinds. -/
def equals : Datum → Datum → Bool
  | bool a, bool b => a = b
  | number x, number y => x.equals y
  | char a, char b => a = b
  | string x, string y => x = y
  | function f _, function g _ => f = g
  | native r, native r' => r = r'
  | _, _ => false

/-- Adds two numbers, or joins the bytes of two textual values. -/
def add : Datum → Datum → Except RuntimeError Datum
  | number x, number y => .ok (.number (x.add y))
  | v, w =>
    if v.isTextual ∧ w.isTextual then .ok (.string (Utf8.decode (v.bytes ++ w.bytes)))
    else .error .invalidAddOperands

/-- What only two numbers can be combined by. -/
def combine (f : Double → Double → Datum) : Datum → Datum → Except RuntimeError Datum
  | number x, number y => .ok (f x y)
  | _, _ => .error .expectedTwoNumbers

end Datum

def Literal.datum : Literal → Datum
  | number text => ((Numeral.leading? text.toList).map fun n => Datum.number n.value).getD .null
  | string text => .string (String.ofList (Quoted.content text.toList))
  | char text => .char (Compiler.charByte text.toList)
  | newLine => .char 10
  | tab => .char 9
  | true_ => .bool true
  | false_ => .bool false

def Unary.apply : Unary → Datum → Except RuntimeError Datum
  | negate, .number x => .ok (.number x.neg)
  | negate, _ => .error .expectedOneNumber
  | not, v => .ok (.bool v.isFalsey)

def Binary.apply : Binary → Datum → Datum → Except RuntimeError Datum
  | add => Datum.add
  | subtract => Datum.combine fun x y => .number (x.sub y)
  | multiply => Datum.combine fun x y => .number (x.mul y)
  | divide => Datum.combine fun x y => .number (x.div y)
  | equal => fun v w => .ok (.bool (v.equals w))
  | notEqual => fun v w => .ok (.bool !(v.equals w))
  | greater => Datum.combine fun x y => .bool (y.less x)
  | greaterEqual => Datum.combine fun x y => .bool (y.lessEqual x)
  | less => Datum.combine fun x y => .bool (x.less y)
  | lessEqual => Datum.combine fun x y => .bool (x.lessEqual y)

/-- What a line that has been read stands for. -/
def InputForm.datum (line : List UInt8) : InputForm → Datum
  | string => .string (Utf8.decode (Console.trimLineEnd line).toByteArray)
  | number => .number (Numeral.ofLine ((Console.trimLineEnd line).map fun b => Char.ofNat b.toNat))
  | char => .char (line.head?.getD 0)

end StackScript
