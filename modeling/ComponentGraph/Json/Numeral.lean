import ComponentGraph.Decimal
import ComponentGraph.Document.Number

/-!
# JSON numerals

A numeral without fraction and exponent is an integer as long as it fits 64 bits. Every other
numeral becomes a double in two steps: its leading digits are gathered in a word of 64 bits, as
many as fit, and the word is scaled by powers of ten. The result is rounded twice, so it need not
be the nearest double.
-/

set_option autoImplicit false

namespace ComponentGraph.Json

/-- Appends decimal digits to a word as long as it fits 64 bits; gives back those that do not. -/
def gather (word : Nat) : List Char → Nat × List Char
  | [] => (word, [])
  | c :: digits =>
    let next := 10 * word + Decimal.digitValue c
    if next < 0x10000000000000000 then gather next digits else (word, c :: digits)

def powerOfTen (n : Nat) : Float := Float.ofScientific 1 false n

/-- Multiplies by a power of ten. Nothing if the result is beyond all doubles. -/
def scale (x : Float) (exponent : Int) : Option Float :=
  if exponent.natAbs ≤ 308 then
    if 0 ≤ exponent then
      let y := x * powerOfTen exponent.natAbs
      if y.isInf then none else some y
    else some (x / powerOfTen exponent.natAbs)
  else if x == 0 then some x
  else if 0 ≤ exponent then none
  else scale (x / powerOfTen 308) (exponent + 308)
termination_by exponent.natAbs

structure Numeral where
  negative : Bool
  whole : List Char
  fraction : Option (List Char)
  exponent : Option Int

namespace Numeral

def exponent? : List Char → Option (Option Int)
  | [] => some none
  | text => (Decimal.exponent? text).map some

def ofText? (text : List Char) : Option Numeral :=
  let (negative, text) :=
    match text with
    | '-' :: text => (true, text)
    | _ => (false, text)
  let whole := text.takeWhile Char.isDigit
  let text := text.dropWhile Char.isDigit
  if whole = [] ∨ (whole.head? = some '0' ∧ whole ≠ ['0']) then none
  else
    match text with
    | '.' :: text =>
      let fraction := text.takeWhile Char.isDigit
      if fraction = [] then none
      else (exponent? (text.dropWhile Char.isDigit)).map fun e =>
        ⟨negative, whole, some fraction, e⟩
    | _ => (exponent? text).map fun e => ⟨negative, whole, none, e⟩

def toDouble? (n : Numeral) : Option Float :=
  let (word, left) := gather 0 n.whole
  let fraction := n.fraction.getD []
  let (word, dropped) := gather word fraction
  let shift : Int := left.length + dropped.length - fraction.length
  let exponent := n.exponent.getD 0
  let x :=
    if 0x80000000 ≤ exponent.natAbs then if word ≠ 0 ∧ 0 < exponent then none else some 0.0
    else scale (Float.ofNat word) (shift + exponent)
  x.map fun x => if n.negative then -x else x

/-- An integral zero with a minus sign is a double, since no integer keeps the sign. -/
def toNumber? (n : Numeral) : Option Number :=
  let magnitude : Int := Decimal.natOfDigits n.whole
  let value := if n.negative then -magnitude else magnitude
  let integer :=
    if n.fraction.isSome ∨ n.exponent.isSome ∨ (n.negative ∧ magnitude = 0) then none
    else Number.ofInt? value
  match integer with
  | some i => some i
  | none => n.toDouble?.map .double

end Numeral

end ComponentGraph.Json
