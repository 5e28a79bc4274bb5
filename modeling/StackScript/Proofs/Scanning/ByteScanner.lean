import StackScript.Proofs.Scanning.Bytes

/-! A scanner that goes through a source byte by byte. It knows places only as numbers of bytes: a byte that it
reads has to be there, and a text that it takes has to be cut out between characters. Where one of these fails
it gives nothing. Past the last byte it sees a zero byte, which can also be one of the source. -/
namespace StackScript

/-- A place among the bytes of a source, and where the piece that is being read starts. -/
structure ByteScanner where
  source : List Char
  start : Nat := 0
  current : Nat := 0
  line : Nat := 1
  deriving DecidableEq, Repr

namespace ByteScanner

def ofSource (source : String) : ByteScanner := { source := source.toList }

/-- Actions of a scanner, which may fail. -/
abbrev Scanning := StateT ByteScanner Option

/-- The bytes of the source, each seen as a character. -/
def bytes (s : ByteScanner) : List Char := Scan.spread s.source

/-- The bytes that have not been read. -/
def remaining (s : ByteScanner) : List Char := s.bytes.drop s.current

def atEnd (s : ByteScanner) : Bool := s.bytes.length ≤ s.current

/-- The next byte. -/
def peek (s : ByteScanner) : Char := (s.bytes[s.current]?).getD '\x00'

/-- The byte after the next one. -/
def peekNext (s : ByteScanner) : Char := (s.bytes[s.current + 1]?).getD '\x00'

/-! ### Cuts -/

/-- Cuts a text behind a number of bytes, unless that is inside a character or past the end. -/
def cut? : List Char → Nat → Option (List Char × List Char)
  | text, 0 => some ([], text)
  | [], _ + 1 => none
  | c :: text, n + 1 =>
    if (Scan.spreadChar c).length ≤ n + 1 then
      (cut? text (n + 1 - (Scan.spreadChar c).length)).map fun (front, rest) => (c :: front, rest)
    else none

/-- The text between two places. -/
def slice? (source : List Char) (start stop : Nat) : Option (List Char) :=
  if start ≤ stop then do
    let (_, rest) ← cut? source start
    let (text, _) ← cut? rest (stop - start)
    some text
  else none

/-! ### Reading bytes -/

/-- Reads a byte. -/
def advance : Scanning Char := fun s =>
  match s.bytes[s.current]? with
  | some b => some (b, { s with
      current := s.current + 1, line := if b = '\n' then s.line + 1 else s.line })
  | none => none

/-- Reads a byte if it is the one expected, which is not a line break. -/
def consume (expected : Char) : Scanning Bool := fun s =>
  if s.bytes[s.current]? = some expected then some (true, { s with current := s.current + 1 })
  else some (false, s)

/-- Repeats a step for as long as it asks for that, which is at most once for each byte. -/
def repeated (step : Scanning Bool) : Nat → Scanning Unit
  | 0 => failure
  | n + 1 => do
    if ← step then repeated step n

def loop (step : Scanning Bool) : Scanning Unit := do repeated step ((← get).bytes.length + 1)

/-- Reads a byte if the scanner is where the condition holds. -/
def stepWhile (p : ByteScanner → Bool) : Scanning Bool := do
  if p (← get) then
    let _ ← advance
    return true
  return false

def advanceWhile (p : ByteScanner → Bool) : Scanning Unit := loop (stepWhile p)

/-! ### Blanks and comments -/

def inComment (s : ByteScanner) : Bool := !s.atEnd && !(s.peek = ':' && s.peekNext = '}')

/-- Reads the end of a comment, unless it is that of the source. -/
def closeComment : Scanning Unit := do
  unless (← get).atEnd do
    let _ ← advance
    let _ ← advance

/-- Reads a blank or a comment. -/
def stepBlank : Scanning Bool := do
  let s ← get
  if Scan.isBlank s.peek && !s.atEnd then
    let _ ← advance
    return true
  else if s.peek = '{' && s.peekNext = ':' then
    let _ ← advance
    let _ ← advance
    advanceWhile inComment
    closeComment
    return true
  else return false

def skipBlank : Scanning Unit := loop stepBlank

/-! ### Words -/

/-- Whether the piece goes on as a keyword does, after its first bytes. -/
def checkKeyword (known : Nat) (rest : String) (kind : TokenKind) : Scanning TokenKind := do
  let s ← get
  if s.current - s.start = known + rest.length then
    let text ← (slice? s.source (s.start + known) s.current : Option (List Char))
    return if text = rest.toList then kind else .ident
  return .ident

/-- The kind of a run of identifier bytes, by its first bytes. A run that starts with a question mark has none,
unless it is the keyword. -/
def wordKind? (run : List Char) : Scanning (Option TokenKind) := do
  match run with
  | [] => failure
  | 'a' :: _ => some <$> checkKeyword 1 "wnd" .and
  | 'i' :: _ => some <$> checkKeyword 1 "wi" .read
  | 'e' :: _ => some <$> checkKeyword 1 "we" .else_
  | 't' :: _ => some <$> checkKeyword 1 "wue" .true_
  | 'f' :: 'a' :: _ => some <$> checkKeyword 2 "wse" .false_
  | 'f' :: 'w' :: _ => some <$> checkKeyword 2 "un" .fun_
  | 'u' :: 'w' :: _ => some <$> checkKeyword 2 "u" .var
  | 'u' :: 'n' :: _ => some <$> checkKeyword 2 "tiw" .loop
  | 'o' :: 'w' :: _ => some <$> checkKeyword 2 "" .or
  | 'o' :: 'u' :: 'o' :: _ => some <$> checkKeyword 3 "" .print
  | 'o' :: 'u' :: 't' :: _ => some <$> checkKeyword 3 "" .out
  | '?' :: _ =>
    match ← checkKeyword 1 "w?" .if_ with
    | .if_ => return some .if_
    | _ => return none
  | _ => return some .ident

def word : Scanning (Except ScanError TokenKind) := do
  advanceWhile fun s => Scan.isIdentContinue s.peek
  let s ← get
  match ← wordKind? ((s.bytes.take s.current).drop s.start) with
  | some kind => return .ok kind
  | none => return .error .invalidIdentifier

/-! ### Literals -/

def number : Scanning (Except ScanError TokenKind) := do
  advanceWhile (·.peek.isDigit)
  let s ← get
  if s.peek = '.' && s.peekNext.isDigit then
    let _ ← advance
    advanceWhile (·.peek.isDigit)
  return .ok .number

/-- Reads a byte of a string literal, or a backslash and the byte after it. -/
def stepString : Scanning Bool := do
  let s ← get
  if s.peek ≠ '"' && !s.atEnd then
    if s.peek = '\\' then
      let _ ← advance
      if (← get).atEnd then return false
    let _ ← advance
    return true
  return false

def string : Scanning (Except ScanError TokenKind) := do
  loop stepString
  if (← get).atEnd then return .error .unterminatedString
  let _ ← advance
  return .ok .string

def inCharacter (s : ByteScanner) : Bool := s.peek ≠ Scan.charQuote && !s.atEnd

def character : Scanning (Except ScanError TokenKind) := do
  if (← get).atEnd then return .error .unterminatedChar
  if (← get).peek = Scan.charQuote then
    let _ ← advance
    return .error .emptyChar
  advanceWhile inCharacter
  if (← get).atEnd then return .error .unterminatedChar
  let _ ← advance
  let s ← get
  return if s.current - s.start ≠ 3 then .error .invalidChar else .ok .char

/-- Whether the scanner is inside a character. -/
def insideChar (s : ByteScanner) : Bool := !s.atEnd && (cut? s.source s.current).isNone

/-- Goes one byte on, past a byte inside a character. -/
def stepInside : Scanning Bool := do
  if (← get).insideChar then
    modify fun s => { s with current := s.current + 1 }
    return true
  return false

/-- A character that starts nothing. -/
def unexpected : Scanning (Except ScanError TokenKind) := do
  loop stepInside
  let s ← get
  let text ← (slice? s.source s.start s.current : Option (List Char))
  return .error (.unexpectedCharacter (text.head?.getD '\uFFFD'))

/-! ### Pieces -/

/-- The rest of a piece whose first byte has been read. -/
def piece (first : Char) : Scanning (Except ScanError TokenKind) := do
  match first with
  | '+' => return .ok .plus
  | '*' => return .ok .star
  | '/' => return .ok .slash
  | '=' => return .ok .equal
  | '(' => return .ok .leftParen
  | ')' => return .ok .rightParen
  | ',' => return .ok .comma
  | ']' => return .ok .rightBracket
  | '-' =>
    if ← consume 's' then return .ok .readString
    else if ← consume 'd' then return .ok .readNumber
    else if ← consume 'c' then return .ok .readChar
    else return .ok .minus
  | '~' =>
    if ← consume 'n' then return .ok .newLine
    else if ← consume 't' then return .ok .tab
    else return .error (.unexpectedCharacter '~')
  | '!' => return .ok (if ← consume '=' then .bangEqual else .bang)
  | '<' =>
    if ← consume '=' then return .ok .lessEqual
    else return .ok (if ← consume '<' then .readEnd else .less)
  | '>' =>
    if ← consume '=' then return .ok .greaterEqual
    else return .ok (if ← consume '>' then .outEnd else .greater)
  | '[' => return .ok (if ← consume ':' then .blockStart else .leftBracket)
  | ':' =>
    if ← consume '=' then return .ok .assign
    else if ← consume ']' then return .ok .blockEnd
    else return .error (.unexpectedCharacter ':')
  | c =>
    if c = '"' then string
    else if c = Scan.charQuote then character
    else if c.isDigit then number
    else if Scan.isIdentStart c then word
    else unexpected

/-- The token that has been read, of a kind. -/
def token (kind : TokenKind) : Scanning Lexeme := do
  let s ← get
  let text ← (slice? s.source s.start s.current : Option (List Char))
  return .token ⟨kind, String.ofList text, s.line⟩

/-- Reads the next token or faulty piece. -/
def scan : Scanning Lexeme := do
  skipBlank
  modify fun s => { s with start := s.current }
  if (← get).atEnd then token .eof
  else
    match ← piece (← advance) with
    | .ok kind => token kind
    | .error error => return .fault error (← get).line

end ByteScanner
end StackScript
