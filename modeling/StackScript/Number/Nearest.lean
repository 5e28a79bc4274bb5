import StackScript.Number.Double

/-! Rounding of exact ratios. A quotient of natural numbers rounds to the nearest whole number, a
half to the even neighbour; a ratio rounds to the nearest double by choosing the spacing of the
doubles around it first, so that each number is rounded once. -/
namespace StackScript

/-- The whole number nearest to a quotient; a half goes to the even neighbour. -/
def halfEven (num den : Nat) : Nat :=
  let q := num / den
  let r := num % den
  if 2 * r < den ∨ (2 * r = den ∧ q % 2 = 0) then q else q + 1

namespace Double

/-- Compares a ratio with a power of two. -/
def twoPowLe (e : Int) (num den : Nat) : Bool :=
  match e with
  | .ofNat k => den * Nat.pow 2 k ≤ num
  | .negSucc k => den ≤ num * Nat.pow 2 (k + 1)

/-- The exponent of the largest power of two that is not above a positive ratio. -/
def floorLog2 (num den : Nat) : Int :=
  let l : Int := (num.log2 : Int) - den.log2
  if twoPowLe l num den then l else l - 1

/-- How many steps of `2 ^ q` make up a ratio, to the nearest. -/
def stepsOf (q : Int) (num den : Nat) : Nat :=
  match q with
  | .ofNat k => halfEven num (den * Nat.pow 2 k)
  | .negSucc k => halfEven (num * Nat.pow 2 (k + 1)) den

/-- The bits of positive infinity. -/
def infinityBits : Nat := 0x7ff0000000000000

/-- The bits of the double nearest to a ratio. Doubles are counted by their bits, so a significand
that rounds up to the next power of two carries into the exponent by itself. -/
def nearestBits (num den : Nat) : Nat :=
  if num = 0 then 0 else
    let q := max (floorLog2 num den - 52) (-1074)
    min ((q + 1074).toNat * Nat.pow 2 52 + stepsOf q num den) infinityBits

/-- Puts a sign on a double that has none. -/
def withSign (negative : Bool) (x : Double) : Double := if negative then x.neg else x

def infinity : Double := ⟨UInt64.ofNat infinityBits⟩
def nan : Double := ⟨0x7ff8000000000000⟩

/-- The double nearest to a ratio, with the given sign. -/
def ofRatio (negative : Bool) (num den : Nat) : Double :=
  let bits := UInt64.ofNat (nearestBits num den)
  ⟨if negative then bits ||| signBit else bits⟩

end Double
end StackScript
