/-! Tokens: what a source is made of, besides blanks and comments. -/
namespace StackScript

inductive TokenKind
  | plus
  | minus
  | star
  | slash
  | bang
  | leftParen
  | rightParen
  | comma
  | leftBracket
  | rightBracket
  | newLine
  | tab
  | assign
  | equal
  | bangEqual
  | greater
  | greaterEqual
  | less
  | lessEqual
  | blockStart
  | blockEnd
  | readEnd
  | outEnd
  | readString
  | readNumber
  | readChar
  | ident
  | string
  | number
  | char
  | and
  | or
  | var
  | fun_
  | print
  | read
  | if_
  | else_
  | loop
  | true_
  | false_
  | out
  | eof
  deriving DecidableEq, Repr, Inhabited

/-- A token with its text and the line on which it ends. -/
structure Token where
  kind : TokenKind
  lexeme : String
  line : Nat
  deriving DecidableEq, Repr, Inhabited

/-- The token at the end of a source. -/
def Token.sourceEnd (line : Nat) : Token := ⟨.eof, "", line⟩

/-- What can be wrong with a piece of source that is no token. -/
inductive ScanError
  | unterminatedString
  | unterminatedChar
  | emptyChar
  | invalidChar
  | invalidIdentifier
  | unexpectedCharacter (c : Char)
  deriving DecidableEq, Repr

def ScanError.message : ScanError → String
  | unterminatedString => "Unterminated string."
  | unterminatedChar => "Unterminated character literal."
  | emptyChar => "Empty character literal."
  | invalidChar => "Character literal must hold exactly one character."
  | invalidIdentifier => "Invalid identifier."
  | unexpectedCharacter c => "Unexpected character '" ++ String.singleton c ++ "'."

/-- The words that are not identifiers. -/
def keywords : List (String × TokenKind) :=
  [("awnd", .and), ("ow", .or), ("uwu", .var), ("fwun", .fun_), ("ouo", .print), ("iwi", .read),
    ("?w?", .if_), ("ewe", .else_), ("untiw", .loop), ("out", .out), ("twue", .true_),
    ("fawse", .false_)]

end StackScript
