/-!
# Hexadecimal numerals

Numerals of a fixed number of hexadecimal digits, in either case.
-/

set_option autoImplicit false

namespace ComponentGraph

def hexValue? (c : Char) : Option Nat :=
  if c.isDigit then some (c.toNat - '0'.toNat)
  else if 'a' ≤ c ∧ c ≤ 'f' then some (c.toNat - 'a'.toNat + 10)
  else if 'A' ≤ c ∧ c ≤ 'F' then some (c.toNat - 'A'.toNat + 10)
  else none

def hexNumber? (n : Nat) (text : List Char) : Option Nat :=
  if text.length < n then none
  else (text.take n).foldlM (fun value c => (hexValue? c).map fun d => 16 * value + d) 0

end ComponentGraph
