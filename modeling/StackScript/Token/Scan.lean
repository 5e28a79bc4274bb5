import StackScript.Text.Quoted
import StackScript.Token.Basic

/-! Reading tokens from a source. Each call skips blanks and comments and takes one token, or one
piece that is none, so that what is skipped and what is taken make up the source. At the end of the
source every call gives the end token. -/
namespace StackScript

/-- What one call reads: a token, or an error with the line on which the faulty piece ends. -/
inductive Lexeme
  | token (t : Token)
  | fault (error : ScanError) (line : Nat)
  deriving DecidableEq, Repr

/-- A place in a source: the text from there on, and the line it starts on. -/
structure Cursor where
  rest : List Char
  line : Nat := 1
  deriving DecidableEq, Repr

namespace Cursor

def ofSource (source : String) : Cursor := { rest := source.toList }

/-- Goes past some characters, counting the line breaks among them. -/
def drop (c : Cursor) (n : Nat) : Cursor :=
  ⟨c.rest.drop n, c.line + (c.rest.take n).count '\n'⟩

end Cursor

namespace Scan

def isBlank (c : Char) : Bool := c = ' ' || c = '\r' || c = '\t' || c = '\n'

/-- The length of the blanks and comments at the start, counting on. A comment runs to its first
closing mark, or to the end. -/
def blankLength (inComment : Bool) (count : Nat) : List Char → Nat
  | [] => count
  | c :: rest =>
    if inComment then
      match c, rest with
      | ':', '}' :: rest => blankLength false (count + 2) rest
      | _, rest => blankLength true (count + 1) rest
    else
      match c, rest with
      | '{', ':' :: rest => blankLength true (count + 2) rest
      | c, rest => if isBlank c then blankLength false (count + 1) rest else count

/-- An identifier starts with a letter or one of three marks, and goes on with digits too. -/
def isIdentStart (c : Char) : Bool := c.isAlpha || c = '.' || c = '^' || c = '?'
def isIdentContinue (c : Char) : Bool := isIdentStart c || c.isDigit

/-- The kind of an identifier or keyword; a run that starts with a question mark can only be a
keyword. -/
def wordKind (run : List Char) : Except ScanError TokenKind :=
  match keywords.lookup (String.ofList run) with
  | some kind => .ok kind
  | none => if run.head? = some '?' then .error .invalidIdentifier else .ok .ident

/-- The length of a number: digits, and a point only if digits follow it. -/
def numberLength (text : List Char) : Nat :=
  let whole := (text.takeWhile Char.isDigit).length
  match text.dropWhile Char.isDigit with
  | '.' :: rest =>
    let fraction := (rest.takeWhile Char.isDigit).length
    if fraction = 0 then whole else whole + 1 + fraction
  | _ => whole

/-- The mark around a character literal. -/
def charQuote : Char := '\x60'

/-- A character literal after its opening mark; its content is one byte. -/
def charLiteral : List Char → Except ScanError TokenKind × Nat
  | [] => (.error .unterminatedChar, 1)
  | c :: rest =>
    if c = charQuote then (.error .emptyChar, 2)
    else
      let body := (c :: rest).takeWhile (· ≠ charQuote)
      if body.length = (c :: rest).length then (.error .unterminatedChar, body.length + 1)
      else if body = [c] ∧ c.toNat < 128 then (.ok .char, 3)
      else (.error .invalidChar, body.length + 2)

/-- What stands at the start of a text that begins with the given character: its kind, or what is
wrong with it, and how many characters it takes. -/
def classify (c : Char) (rest : List Char) : Except ScanError TokenKind × Nat :=
  match c, rest with
  | '+', _ => (.ok .plus, 1)
  | '*', _ => (.ok .star, 1)
  | '/', _ => (.ok .slash, 1)
  | '=', _ => (.ok .equal, 1)
  | '(', _ => (.ok .leftParen, 1)
  | ')', _ => (.ok .rightParen, 1)
  | ',', _ => (.ok .comma, 1)
  | ']', _ => (.ok .rightBracket, 1)
  | '-', 's' :: _ => (.ok .readString, 2)
  | '-', 'd' :: _ => (.ok .readNumber, 2)
  | '-', 'c' :: _ => (.ok .readChar, 2)
  | '-', _ => (.ok .minus, 1)
  | '~', 'n' :: _ => (.ok .newLine, 2)
  | '~', 't' :: _ => (.ok .tab, 2)
  | '!', '=' :: _ => (.ok .bangEqual, 2)
  | '!', _ => (.ok .bang, 1)
  | '<', '=' :: _ => (.ok .lessEqual, 2)
  | '<', '<' :: _ => (.ok .readEnd, 2)
  | '<', _ => (.ok .less, 1)
  | '>', '=' :: _ => (.ok .greaterEqual, 2)
  | '>', '>' :: _ => (.ok .outEnd, 2)
  | '>', _ => (.ok .greater, 1)
  | '[', ':' :: _ => (.ok .blockStart, 2)
  | '[', _ => (.ok .leftBracket, 1)
  | ':', '=' :: _ => (.ok .assign, 2)
  | ':', ']' :: _ => (.ok .blockEnd, 2)
  | c, rest =>
    if c = '"' then
      let (count, closed) := Quoted.extent 1 rest
      (if closed then .ok .string else .error .unterminatedString, count)
    else if c = charQuote then charLiteral rest
    else if c.isDigit then (.ok .number, numberLength (c :: rest))
    else if isIdentStart c then
      let run := (c :: rest).takeWhile isIdentContinue
      (wordKind run, run.length)
    else (.error (.unexpectedCharacter c), 1)

theorem le_extent (count : Nat) (text : List Char) : count ≤ (Quoted.extent count text).1 := by
  fun_induction Quoted.extent count text <;> omega

theorem charLiteral_pos (text : List Char) : 0 < (charLiteral text).2 := by
  unfold charLiteral
  split
  · simp
  · simp only
    split <;> try split <;> try split
    all_goals simp

theorem numberLength_pos (c : Char) (rest : List Char) (h : c.isDigit) :
    0 < numberLength (c :: rest) := by
  simp only [numberLength, List.takeWhile_cons, h, if_true, List.length_cons]
  split
  · split <;> omega
  · omega

/-- Every call takes something. -/
theorem classify_pos (c : Char) (rest : List Char) : 0 < (classify c rest).2 := by
  unfold classify
  split <;> try exact Nat.succ_pos _
  dsimp only
  split
  · exact le_extent 1 _
  split
  · exact charLiteral_pos _
  split
  · exact numberLength_pos _ _ ‹_›
  split
  · rename_i h
    have : isIdentContinue c := by simp [isIdentContinue, h]
    simp [this]
  · exact Nat.succ_pos _

end Scan

namespace Cursor

/-- The place after blanks and comments. -/
def skipBlank (c : Cursor) : Cursor := c.drop (Scan.blankLength false 0 c.rest)

/-- Takes the first token or faulty piece from a place that is not blank. -/
def take (c : Cursor) (first : Char) (rest : List Char) : Lexeme × Cursor :=
  let (outcome, count) := Scan.classify first rest
  let after := c.drop count
  match outcome with
  | .ok kind => (.token ⟨kind, String.ofList (c.rest.take count), after.line⟩, after)
  | .error error => (.fault error after.line, after)

/-- Reads the next token or faulty piece. -/
def scan (c : Cursor) : Lexeme × Cursor :=
  let c := c.skipBlank
  match c.rest with
  | [] => (.token (.sourceEnd c.line), c)
  | first :: rest => c.take first rest

theorem drop_rest_length_le (c : Cursor) (n : Nat) : (c.drop n).rest.length ≤ c.rest.length := by
  simp [drop]

theorem take_rest_length_lt (c : Cursor) (first : Char) (rest : List Char) (h : c.rest ≠ []) :
    (c.take first rest).2.rest.length < c.rest.length := by
  have hc : (c.take first rest).2 = c.drop (Scan.classify first rest).2 := by
    unfold take
    split
    rename_i heq
    rw [heq]
    dsimp only
    split <;> rfl
  have := Scan.classify_pos first rest
  have := List.length_pos_iff.2 h
  rw [hc]
  simp only [drop, List.length_drop]
  omega

end Cursor
end StackScript
