import StackScript.Number.Nearest

/-! The text of a number: fifteen significant digits, a tie going to the even digit, without
trailing zeros. From `1e-04` up to but not including `1e+15` the number is written in positions, and
otherwise with an exponent of a sign and at least two digits. -/
namespace StackScript

/-- How many decimal digits a number takes; zero takes one. -/
def digitCount (n : Nat) : Nat := if n < 10 then 1 else digitCount (n / 10) + 1

namespace Double

/-- Significant digits in the text of a number. -/
def precision : Nat := 15

/-- The exponent of the largest power of ten that is not above a positive ratio. -/
def floorLog10 (num den : Nat) : Int :=
  if den ≤ num then (digitCount (num / den) : Int) - 1 else -(digitCount ((den - 1) / num) : Int)

/-- A positive decimal of full precision: the number `digits` times `10 ^ (exponent - 14)`. -/
structure Scientific where
  digits : Nat
  exponent : Int
  deriving DecidableEq, Repr

/-- How many steps of `10 ^ k` make up a ratio, to the nearest. -/
def decimalSteps (k : Int) (num den : Nat) : Nat :=
  match k with
  | .ofNat k => halfEven num (den * Nat.pow 10 k)
  | .negSucc k => halfEven (num * Nat.pow 10 (k + 1)) den

/-- A positive ratio rounded to full precision; rounding up to a power of ten moves the exponent. -/
def Scientific.ofRatio (num den : Nat) : Scientific :=
  let x := floorLog10 num den
  let digits := decimalSteps (x - (precision - 1)) num den
  if digits = Nat.pow 10 precision then ⟨Nat.pow 10 (precision - 1), x + 1⟩ else ⟨digits, x⟩

/-- Leaves out the zeros at the end of a fraction. -/
def trimZeros (digits : List Char) : List Char :=
  (digits.reverse.dropWhile (· = '0')).reverse

/-- A point before the fraction, if any digit of it is left. -/
def fractionText (digits : List Char) : List Char :=
  match trimZeros digits with
  | [] => []
  | d :: ds => '.' :: d :: ds

/-- An exponent: its sign and at least two digits. -/
def exponentText (x : Int) : List Char :=
  let digits := Nat.toDigits 10 x.natAbs
  'e' :: (if x < 0 then '-' else '+') :: (if digits.length < 2 then '0' :: digits else digits)

/-- The digits of so many steps of `10 ^ -decimals`, at least one of them in front of the decimals. -/
def stepDigits (decimals steps : Nat) : List Char :=
  let digits := Nat.toDigits 10 steps
  List.replicate (decimals + 1 - digits.length) '0' ++ digits

/-- So many steps of `10 ^ -decimals` in positions, without zeros at the end of the fraction. -/
def positionText (decimals steps : Nat) : List Char :=
  let digits := stepDigits decimals steps
  let whole := digits.length - decimals
  digits.take whole ++ fractionText (digits.drop whole)

/-- Writes a positive ratio in positions or with an exponent, which its rounding to full precision
decides. In positions the ratio itself is rounded, to as many decimals as complete the precision. -/
def ratioText (num den : Nat) : List Char :=
  let s := Scientific.ofRatio num den
  if s.exponent < -4 ∨ (precision : Int) ≤ s.exponent then
    positionText (precision - 1) s.digits ++ exponentText s.exponent
  else
    let decimals := (precision - 1 - s.exponent).toNat
    positionText decimals (decimalSteps (-decimals) num den)

/-- A finite magnitude as a ratio. -/
def ratio (x : Double) : Nat × Nat :=
  match x.exponent with
  | .ofNat q => (x.significand * Nat.pow 2 q, 1)
  | .negSucc q => (x.significand, Nat.pow 2 (q + 1))

/-- The text without a sign. -/
def magnitudeText (x : Double) : List Char :=
  if x.isNaN then ['n', 'a', 'n']
  else if x.isInfinite then ['i', 'n', 'f']
  else if x.isZero then ['0']
  else ratioText x.ratio.1 x.ratio.2

/-- The text of a number. -/
def text (x : Double) : String :=
  String.ofList (if x.isNegative then '-' :: x.magnitudeText else x.magnitudeText)

end Double
end StackScript
