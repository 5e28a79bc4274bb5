import StackScript.Number.Nearest

/-! Powers with a whole exponent, by repeated squaring. The exponent is cut to a whole number within
32 bits; for a negative one the reciprocal is taken of the finished power. -/
namespace StackScript
namespace Double

/-- Multiplies in the base for every set bit of the exponent, lowest first. -/
def powerFrom (result base : Double) (n : Nat) : Double :=
  let result := if n % 2 = 1 then result.mul base else result
  if n / 2 = 0 then result else powerFrom result (base.mul base) (n / 2)
termination_by n
decreasing_by omega

/-- The magnitude of an exponent cut to 32 bits; a NaN counts as zero. -/
def exponentMagnitude (x : Double) : Nat :=
  if x.isNaN then 0
  else if x.isNegative then min x.wholePart (Nat.pow 2 31) else min x.wholePart (Nat.pow 2 31 - 1)

/-- The base raised to the whole part of the exponent. -/
def pow (base exponent : Double) : Double :=
  let n := exponent.exponentMagnitude
  let p := powerFrom one base n
  if exponent.isNegative ∧ n ≠ 0 then one.div p else p

end Double
end StackScript
