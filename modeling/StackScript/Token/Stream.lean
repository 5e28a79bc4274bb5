import StackScript.Token.Scan

/-! All tokens of a source in order, faulty pieces in their places, and the line on which the source
ends, which is that of the end token read after them. -/
namespace StackScript

structure TokenStream where
  lexemes : List Lexeme
  lastLine : Nat
  deriving DecidableEq, Repr

namespace TokenStream

/-- Reads a source to its end, after the lexemes read before, newest first. -/
def readFrom (done : List Lexeme) (c : Cursor) : TokenStream :=
  let start := c.skipBlank
  match _h : start.rest with
  | [] => ⟨done.reverse, start.line⟩
  | first :: rest => readFrom ((start.take first rest).1 :: done) (start.take first rest).2
termination_by c.rest.length
decreasing_by
  have ht := start.take_rest_length_lt first rest (by simp [_h])
  have hs := c.drop_rest_length_le (Scan.blankLength false 0 c.rest)
  exact Nat.lt_of_lt_of_le ht hs

def ofSource (source : String) : TokenStream := readFrom [] (Cursor.ofSource source)

end TokenStream
end StackScript
