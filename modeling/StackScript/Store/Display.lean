import StackScript.Number.Format
import StackScript.Store.Basic

/-! Values as text and as bytes. A reference that the store does not know has neither. -/
namespace StackScript.Store

/-- The name of a function as the language shows it. -/
def functionText? (s : Store) (f : Function) : Option String :=
  match f.name with
  | some name => (s.text? name).map fun text => "<fn " ++ text ++ ">"
  | none => some "<script>"

/-- The text of a value. A byte shows as the code point of its number. -/
def display? (s : Store) : Value → Option String
  | .null => some ""
  | .bool b => some (if b then "twue" else "fawse")
  | .number x => some x.text
  | .char byte => some (String.singleton (Char.ofNat byte.toNat))
  | .string text => s.text? text
  | .function f => (s.function? f).bind s.functionText?
  | .native n => (s.native? n).map fun _ => "<native fn>"

/-- The text of a value in a listing, where a newline or a tab shows as it is written in a script. -/
def escaped? (s : Store) : Value → Option String
  | .char 10 => some "~n"
  | .char 9 => some "~t"
  | v => s.display? v

/-- The bytes that printing a value writes: a character is its byte. -/
def bytes? (s : Store) : Value → Option ByteArray
  | .char byte => some ⟨#[byte]⟩
  | v => (s.display? v).map String.toUTF8

end StackScript.Store
