import ComponentGraph.ConfigValue

/-!
# Numbers in documents

A number of a document is an integer that fits a signed or an unsigned word of 64 bits, or a
double. An integer beyond the signed words becomes a double in a configuration.
-/

set_option autoImplicit false

namespace ComponentGraph

inductive Number
  | integer (value : Int) (lower : -0x8000000000000000 ≤ value)
      (upper : value < 0x10000000000000000)
  | double (value : Float)
  deriving DecidableEq

namespace Number

def ofInt? (value : Int) : Option Number :=
  if h : -0x8000000000000000 ≤ value ∧ value < 0x10000000000000000 then
    some (.integer value h.1 h.2)
  else none

def toConfig : Number → ConfigValue
  | integer value _ _ =>
    if value < 0x8000000000000000 then .int (.ofInt value) else .float (.ofInt value)
  | double value => .float value

/-- Equality of numbers as keys of a mapping: an integer equals no double, a NaN equals a NaN. -/
def same : Number → Number → Bool
  | integer a _ _, integer b _ _ => a == b
  | double a, double b => a == b || (a.isNaN && b.isNaN)
  | _, _ => false

end Number

end ComponentGraph
