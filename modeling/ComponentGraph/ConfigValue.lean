import ComponentGraph.NameMap

/-!
# Configuration values

Configuration is carried along and not interpreted. Integers are signed words of 64 bits. The
entries of a mapping keep their order, and any value may be a key.

Two values can be compared in two ways. As values of this type they are equal when they are built
alike, so that a NaN equals itself and the two zeros differ. `same` compares numbers as numbers.
-/

set_option autoImplicit false

namespace ComponentGraph

inductive ConfigValue
  | null
  | bool (value : Bool)
  | int (value : Int64)
  | float (value : Float)
  | string (value : String)
  | sequence (items : List ConfigValue)
  | mapping (entries : List (ConfigValue × ConfigValue))

abbrev Configuration : Type := NameMap ConfigValue

namespace ConfigValue

instance : Inhabited ConfigValue := ⟨.null⟩

def isNull : ConfigValue → Bool
  | null => true
  | _ => false

def bool? : ConfigValue → Option Bool
  | bool b => some b
  | _ => none

def int? : ConfigValue → Option Int64
  | int i => some i
  | _ => none

/-- The number as a double; an integer is rounded to the nearest one. -/
def float? : ConfigValue → Option Float
  | float x => some x
  | int i => some i.toFloat
  | _ => none

def string? : ConfigValue → Option String
  | string s => some s
  | _ => none

def items? : ConfigValue → Option (List ConfigValue)
  | sequence items => some items
  | _ => none

def entries? : ConfigValue → Option (List (ConfigValue × ConfigValue))
  | mapping entries => some entries
  | _ => none

/-- The value of the first entry of a mapping whose key is this string. -/
def get? (v : ConfigValue) (key : String) : Option ConfigValue :=
  v.entries?.bind fun entries =>
  (entries.find? fun e => e.1.string? == some key).map Prod.snd

/-- Equality of values, with doubles compared as numbers. An integer equals no double. -/
def same : ConfigValue → ConfigValue → Bool
  | null, null => true
  | bool a, bool b => a == b
  | int a, int b => a == b
  | float a, float b => a == b
  | string a, string b => a == b
  | sequence xs, sequence ys => sameItems xs ys
  | mapping xs, mapping ys => sameEntries xs ys
  | _, _ => false
where
  sameItems : List ConfigValue → List ConfigValue → Bool
    | [], [] => true
    | x :: xs, y :: ys => x.same y && sameItems xs ys
    | _, _ => false
  sameEntries : List (ConfigValue × ConfigValue) → List (ConfigValue × ConfigValue) → Bool
    | [], [] => true
    | (k, x) :: xs, (k', y) :: ys => k.same k' && x.same y && sameEntries xs ys
    | _, _ => false

instance : BEq ConfigValue := ⟨same⟩

end ConfigValue

end ComponentGraph
