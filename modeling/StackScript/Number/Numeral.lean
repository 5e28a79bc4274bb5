import StackScript.Number.Nearest

/-! Decimal numerals: an optional minus sign, digits, and an optional point with digits, at least
one digit in all. The value of a numeral is the double nearest to the decimal number written. What is
typed on a line is read by looking for the longest beginning of the line that is a number. -/
namespace StackScript

def digitValue (c : Char) : Nat := c.toNat - '0'.toNat

/-- The number that a run of decimal digits denotes. -/
def digitsValue (digits : List Char) : Nat :=
  digits.foldl (fun n c => 10 * n + digitValue c) 0

/-- A decimal number as it is written. -/
structure Numeral where
  negative : Bool
  whole : List Char
  fraction : List Char
  deriving DecidableEq, Repr

namespace Numeral

/-- The numeral denotes this number over the power of ten below. -/
def numerator (n : Numeral) : Nat := digitsValue (n.whole ++ n.fraction)
def denominator (n : Numeral) : Nat := Nat.pow 10 n.fraction.length

/-- The nearest double; a minus sign is kept on zero. -/
def value (n : Numeral) : Double := Double.ofRatio n.negative n.numerator n.denominator

/-- The longest unsigned numeral at the start. -/
def unsigned? (negative : Bool) (text : List Char) : Option Numeral :=
  let whole := text.takeWhile Char.isDigit
  let fraction :=
    match text.dropWhile Char.isDigit with
    | '.' :: rest => rest.takeWhile Char.isDigit
    | _ => []
  if whole = [] ∧ fraction = [] then none else some ⟨negative, whole, fraction⟩

/-- The longest numeral at the start, or none if no numeral starts there. -/
def leading? : List Char → Option Numeral
  | '-' :: rest => unsigned? true rest
  | text => unsigned? false text

/-! ### Reading whole texts -/

/-- The nearest double to a numeral times a power of ten. -/
def scaled (n : Numeral) : Int → Double
  | .ofNat k => Double.ofRatio n.negative (n.numerator * Nat.pow 10 k) n.denominator
  | .negSucc k => Double.ofRatio n.negative n.numerator (n.denominator * Nat.pow 10 (k + 1))

/-- Whether a text starts with a minus sign, and the text without its sign. -/
def splitSign : List Char → Bool × List Char
  | '-' :: rest => (true, rest)
  | '+' :: rest => (false, rest)
  | text => (false, text)

/-- The digits after a point, if there is one, and what follows. -/
def splitFraction : List Char → List Char × List Char
  | '.' :: rest => (rest.takeWhile Char.isDigit, rest.dropWhile Char.isDigit)
  | text => ([], text)

/-- The exponent that a text is: zero if it is empty, and else digits after a mark and a sign. -/
def exponent? : List Char → Option Int
  | [] => some 0
  | mark :: rest =>
    let (negative, digits) := splitSign rest
    if (mark = 'e' ∨ mark = 'E') ∧ digits ≠ [] ∧ digits.all Char.isDigit then
      some (if negative then -digitsValue digits else digitsValue digits)
    else none

/-- The decimal number that a text without a sign is: digits, a point among, before or behind them,
and an exponent. -/
def decimal? (negative : Bool) (text : List Char) : Option Double :=
  let whole := text.takeWhile Char.isDigit
  let (fraction, rest) := splitFraction (text.dropWhile Char.isDigit)
  if whole = [] ∧ fraction = [] then none
  else (exponent? rest).map (scaled ⟨negative, whole, fraction⟩)

/-- The number that a whole text is: a sign and a decimal number, or a word for what is no number. -/
def parse? (text : List Char) : Option Double :=
  let (negative, magnitude) := splitSign text
  let word := String.ofList (magnitude.map Char.toLower)
  if word = "inf" ∨ word = "infinity" then some (.withSign negative .infinity)
  else if word = "nan" then some (.withSign negative .nan)
  else decimal? negative magnitude

/-! ### Reading lines -/

/-- The number that the longest beginning of a text is, up to a length. -/
def longest? (text : List Char) : Nat → Option Double
  | 0 => none
  | n + 1 => parse? (text.take (n + 1)) <|> longest? text n

/-- The characters that a line may hold to be read as a number at all. -/
def mayOccur (c : Char) : Bool := c.isDigit || c = '.' || c = '-'

/-- The number typed on a line: the longest beginning of it that is one, or zero if there is none or if
some character cannot occur in a number. -/
def ofLine (line : List Char) : Double :=
  if line.all mayOccur then (longest? line line.length).getD .zero else .zero

end Numeral
end StackScript
