/-! String literals. Between the quotes a backslash takes the special meaning off a quote or another
backslash; before anything else it stands for itself. -/
namespace StackScript.Quoted

/-- The content of a literal, after the characters already read, newest first. -/
def unescapeFrom (done : List Char) : List Char → List Char
  | '\\' :: '"' :: rest => unescapeFrom ('"' :: done) rest
  | '\\' :: '\\' :: rest => unescapeFrom ('\\' :: done) rest
  | c :: rest => unescapeFrom (c :: done) rest
  | [] => done.reverse

/-- The content of a literal without its quotes. -/
def unescape (raw : List Char) : List Char := unescapeFrom [] raw

/-- The text that a literal, quotes included, stands for. -/
def content (literal : List Char) : List Char := unescape (literal.tail.dropLast)

/-- How many characters a literal takes after its opening quote, counting on, and whether a closing
quote is among them. -/
def extent (count : Nat) : List Char → Nat × Bool
  | [] => (count, false)
  | '"' :: _ => (count + 1, true)
  | ['\\'] => (count + 1, false)
  | '\\' :: _ :: rest => extent (count + 2) rest
  | _ :: rest => extent (count + 1) rest

end StackScript.Quoted
