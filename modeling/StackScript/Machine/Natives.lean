import StackScript.Number.Power
import StackScript.Value

/-! The functions of the host that every machine starts with. They give null where they cannot
answer. -/
namespace StackScript

/-- A host function before it is known to a machine. -/
structure NativeSpec where
  name : String
  arity : UInt8
  call : List Value → Value

namespace Native

def abs : List Value → Value
  | [.number x] => .number x.abs
  | _ => .null

/-- The whole part of the exponent counts. -/
def pow : List Value → Value
  | [.number base, .number exponent] => .number (base.pow exponent)
  | _ => .null

/-- Only numbers from zero on have a root. -/
def sqrt : List Value → Value
  | [.number x] => if Double.zero.lessEqual x then .number x.sqrt else .null
  | _ => .null

def floor : List Value → Value
  | [.number x] => .number x.floor
  | _ => .null

end Native

/-- The mathematical functions, in the order in which a machine gets them. -/
def mathNatives : List NativeSpec :=
  [⟨"abs", 1, Native.abs⟩, ⟨"pow", 2, Native.pow⟩, ⟨"sqrt", 1, Native.sqrt⟩,
    ⟨"floor", 1, Native.floor⟩]

end StackScript
