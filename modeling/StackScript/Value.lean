import StackScript.Number.Double
import StackScript.Store.Symbols

/-! Values: null, booleans, numbers, single bytes, and references to what the store holds. Equality
of references is identity. -/
namespace StackScript

/-- The place of a compiled function in the store. -/
structure FunctionRef where
  index : Nat
  deriving DecidableEq, Repr, Inhabited

/-- The place of a host function in the store. -/
structure NativeRef where
  index : Nat
  deriving DecidableEq, Repr, Inhabited

inductive Value
  | null
  | bool (b : Bool)
  | number (x : Double)
  | char (byte : UInt8)
  | string (text : Symbol)
  | function (ref : FunctionRef)
  | native (ref : NativeRef)
  deriving DecidableEq, Repr, Inhabited

namespace Value

/-- The operands that a sum may join: characters and strings. -/
def isTextual : Value → Bool
  | char _ | string _ => true
  | _ => false

/-- Only `fawse` and zero count as false. -/
def isFalsey : Value → Bool
  | bool b => !b
  | number x => x.isZero
  | _ => false

/-- Sameness: numbers by their value, so that a NaN is not the same as itself, and all else by what
it is. -/
def same : Value → Value → Bool
  | number x, number y => x.equals y
  | number _, _ | _, number _ => false
  | v, w => v = w

/-- What the language compares: as sameness, but null equals nothing. -/
def equals : Value → Value → Bool
  | null, _ | _, null => false
  | v, w => v.same w

end Value
end StackScript
