import ComponentGraph.Decimal
import ComponentGraph.Hex
import ComponentGraph.Yaml.Token
import ComponentGraph.Yaml.Tree

/-!
# Values of scalars

A plain scalar without a tag is null, a boolean or a number if its text is the text of one, and a
string otherwise; a quoted or a block scalar is a string. The tags of the core schema ask for a
value of one kind. Digits after a leading zero are a string, since they might be octal.
-/

set_option autoImplicit false

namespace ComponentGraph.Yaml.Scalar

def isNull (text : String) : Bool := ["~", "null", "Null", "NULL"].contains text

def bool? (text : String) : Option Bool :=
  if ["true", "True", "TRUE"].contains text then some true
  else if ["false", "False", "FALSE"].contains text then some false
  else none

/-- Whether a sign may be followed by digits with a leading zero, and by nothing else. -/
def hasLeadingZero (text : List Char) : Bool :=
  let digits := (Decimal.sign text).2
  1 < digits.length && digits.head? = some '0' && digits.all Char.isDigit

/-- The number that digits of a base write. There has to be one. -/
def digits? (base : Nat) (text : List Char) : Option Nat :=
  if text = [] then none
  else
    text.foldlM (fun n c => ((hexValue? c).filter (· < base)).map fun d => base * n + d) 0

/-- The magnitude of an integer, written in hexadecimal, octal, binary or decimal digits. -/
def magnitude? (text : List Char) : Option Nat :=
  match text with
  | '0' :: 'x' :: digits => digits? 16 digits
  | '0' :: 'o' :: digits => digits? 8 digits
  | '0' :: 'b' :: digits => digits? 2 digits
  | _ => if hasLeadingZero text then none else digits? 10 text

def int? (text : List Char) : Option Int :=
  let (negative, digits) := Decimal.sign text
  (magnitude? digits).map fun n => if negative then -n else n

/-- A finite double from its decimal text, or one of the words for infinities and NaN. -/
def double? (text : List Char) : Option Float :=
  let (negative, magnitude) := Decimal.sign text
  let word := String.ofList magnitude
  if [".inf", ".Inf", ".INF"].contains word then
    some (if negative then -1.0 / 0.0 else 1.0 / 0.0)
  else if [".nan", ".NaN", ".NAN"].contains (String.ofList text) then some (0.0 / 0.0)
  else ((Decimal.ofText? text).map Decimal.toFloat).filter Float.isFinite

/-- The largest magnitudes of integers that count as integers at all: words of 128 bits. -/
def fits128 (i : Int) : Bool :=
  -0x80000000000000000000000000000000 ≤ i && i < 0x100000000000000000000000000000000

/-- The number of an integer. An integer of up to 128 bits that does not fit 64 is refused, and a
longer one is no integer. -/
inductive Whole
  | number (n : Number)
  | refused
  | none

def whole (text : List Char) : Whole :=
  match int? text with
  | none => .none
  | some i =>
    match Number.ofInt? i with
    | some n => .number n
    | none => if fits128 i then .refused else .none

/-- The value of a plain scalar without a tag; nothing if it is an integer that is refused. -/
def plain? (text : String) : Option Tree :=
  if text = "" ∨ isNull text then some .null
  else
    match bool? text with
    | some b => some (.bool b)
    | none =>
      match whole text.toList with
      | .number n => some (.number n)
      | .refused => none
      | .none =>
        if hasLeadingZero text.toList then some (.string text)
        else
          match double? text.toList with
          | some x => some (.number (.double x))
          | none => some (.string text)

def coreTag (name : String) : TagText := ("tag:yaml.org,2002:" ++ name).toUTF8.toList

/-- The value of a scalar with a tag that is not its own: of a core tag, or a string. -/
def tagged? (tag : TagText) (text : String) : Option Tree :=
  if tag = coreTag "bool" then (bool? text).map .bool
  else if tag = coreTag "int" then
    match whole text.toList with
    | .number n => some (.number n)
    | _ => none
  else if tag = coreTag "float" then (double? text.toList).map fun x => .number (.double x)
  else if tag = coreTag "null" then if isNull text then some .null else none
  else some (.string text)

end ComponentGraph.Yaml.Scalar
