/-! Double precision numbers, held as their 64 bits: two of them are the same value exactly when
their bits agree, and the sign of a NaN is kept. A finite one stands for its significand times a
power of two, which is what the exact formats are stated on. -/
namespace StackScript

/-- A double precision number in the interchange layout: sign, 11 exponent bits, 52 fraction bits. -/
structure Double where
  bits : UInt64
  deriving DecidableEq, Repr, Inhabited

namespace Double

def ofFloat (x : Float) : Double := ⟨x.toBits⟩
def toFloat (x : Double) : Float := Float.ofBits x.bits

/-- The bit that holds the sign. -/
def signBit : UInt64 := 0x8000000000000000

def isNegative (x : Double) : Bool := x.bits &&& signBit != 0
def exponentField (x : Double) : Nat := ((x.bits >>> 52) &&& 0x7ff).toNat
def fractionField (x : Double) : Nat := (x.bits &&& 0xfffffffffffff).toNat

def isNaN (x : Double) : Bool := x.exponentField = 2047 && x.fractionField ≠ 0
def isInfinite (x : Double) : Bool := x.exponentField = 2047 && x.fractionField = 0

/-- The whole number that the magnitude is a power of two times. -/
def significand (x : Double) : Nat :=
  if x.exponentField = 0 then x.fractionField else Nat.pow 2 52 + x.fractionField

/-- The power of two that scales the significand. -/
def exponent (x : Double) : Int :=
  if x.exponentField = 0 then -1074 else (x.exponentField : Int) - 1075

/-- Zero of either sign. -/
def isZero (x : Double) : Bool := x.exponentField = 0 && x.fractionField = 0

/-- The magnitude without its fraction; an infinity counts as the next power of two. -/
def wholePart (x : Double) : Nat :=
  match x.exponent with
  | .ofNat q => x.significand * Nat.pow 2 q
  | .negSucc q => x.significand / Nat.pow 2 (q + 1)

def zero : Double := ⟨0⟩
def one : Double := ⟨0x3ff0000000000000⟩

def add (x y : Double) : Double := ofFloat (x.toFloat + y.toFloat)
def sub (x y : Double) : Double := ofFloat (x.toFloat - y.toFloat)
def mul (x y : Double) : Double := ofFloat (x.toFloat * y.toFloat)
def div (x y : Double) : Double := ofFloat (x.toFloat / y.toFloat)

/-- Changes the sign, of zeros and NaNs too. -/
def neg (x : Double) : Double := ⟨x.bits ^^^ signBit⟩

/-- Takes the sign away, of zeros and NaNs too. -/
def abs (x : Double) : Double := ⟨x.bits &&& 0x7fffffffffffffff⟩

/-- The largest whole number that is not above; a NaN is kept. -/
def floor (x : Double) : Double := if x.isNaN then x else ofFloat x.toFloat.floor

def sqrt (x : Double) : Double := ofFloat x.toFloat.sqrt

/-- Equality of numbers: the two zeros are equal, a NaN equals nothing. -/
def equals (x y : Double) : Bool := x.toFloat == y.toFloat

def less (x y : Double) : Bool := x.toFloat < y.toFloat
def lessEqual (x y : Double) : Bool := x.toFloat ≤ y.toFloat

/-- The nearest double to a small whole number. -/
def ofNat (n : Nat) : Double := ofFloat (Float.ofNat n)

end Double
end StackScript
