/-!
# Decimal numerals

A numeral is an optional sign, digits with an optional point among or around them, and an optional
exponent; at least one digit stands beside the point. It is read as the nearest double.
-/

set_option autoImplicit false

namespace ComponentGraph

/-- The number `±digits · 10 ^ exponent`. -/
structure Decimal where
  negative : Bool
  digits : List Char
  exponent : Int
  deriving Repr

namespace Decimal

def digitValue (c : Char) : Nat := c.toNat - '0'.toNat

def natOfDigits (digits : List Char) : Nat := digits.foldl (fun n c => 10 * n + digitValue c) 0

/-- Takes a sign off the text; the flag tells whether it was a minus. -/
def sign : List Char → Bool × List Char
  | '-' :: text => (true, text)
  | '+' :: text => (false, text)
  | text => (false, text)

/-- The exponent that ends a numeral: nothing, or `e` or `E` and a number. -/
def exponent? : List Char → Option Int
  | [] => some 0
  | c :: text =>
    let (negative, digits) := sign text
    if (c = 'e' ∨ c = 'E') ∧ digits ≠ [] ∧ digits.all Char.isDigit then
      some (if negative then -natOfDigits digits else natOfDigits digits)
    else none

def ofText? (text : List Char) : Option Decimal :=
  let (negative, text) := sign text
  let whole := text.takeWhile Char.isDigit
  let text := text.dropWhile Char.isDigit
  let (fraction, text) :=
    match text with
    | '.' :: text => (text.takeWhile Char.isDigit, text.dropWhile Char.isDigit)
    | _ => ([], text)
  if whole ++ fraction = [] then none
  else (exponent? text).map fun e => ⟨negative, whole ++ fraction, e - fraction.length⟩

/-- The nearest double. A numeral beyond all doubles is an infinity. -/
def toFloat (d : Decimal) : Float :=
  let magnitude : Int := d.digits.length + d.exponent
  let n := natOfDigits d.digits
  let x :=
    if n = 0 ∨ magnitude < -400 then 0.0
    else if 400 < d.exponent then 1.0 / 0.0
    else if 0 ≤ d.exponent then Float.ofScientific n false d.exponent.toNat
    else Float.ofScientific n true (-d.exponent).toNat
  if d.negative then -x else x

end Decimal

end ComponentGraph
