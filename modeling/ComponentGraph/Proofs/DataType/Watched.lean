import ComponentGraph.DataType.Parser
import ComponentGraph.Proofs.Token.PutBack
import ComponentGraph.Proofs.Token.Reading

/-!
# Parsing under watch

The parser of data types again, with two bounds and a record of what it does. It recurses on the
levels of containers that may still be opened, and the loop over the fields of a record repeats no
more often than there are tokens left. Each token that is taken is written down, and with how many
containers around it each type is asked for. Where a bound is used up, or a character is put back in
the place of another, there is no result at all.
-/

set_option autoImplicit false

namespace ComponentGraph

structure Watch where
  scanner : Scanner
  taken : List Token := []
  depths : List Nat := []

/-- A computation on a watched scanner. A fault leaves the scanner where it stands. -/
abbrev Watched (α : Type) : Type := ExceptT Fault (StateT Watch Option) α

namespace Watched

variable {α β : Type}

def exhausted : Watched α := ExceptT.mk fun _ => none

def take : Watched Token := ExceptT.mk fun w =>
  w.scanner.read?.map fun (t, s) => (.ok t, { w with scanner := s, taken := w.taken ++ [t] })

def expect (kinds : List TokenKind) : Watched Token := do
  let t ← take
  if t.kind ∈ kinds then return t else throw t.unexpected

/-- The first token of a type that stands inside of `depth` containers. -/
def ask (depth : Nat) : Watched Token := do
  modify fun w => { w with depths := w.depths ++ [depth] }
  take

def remaining : Watched Nat := return (← get).scanner.tokens.1.length

end Watched

namespace DataType

open Watched

/-- One turn of the loop over the fields of a record, and `next` after a comma. -/
def fieldWithin (element : Token → Watched DataType) (depth : Nat)
    (next : Fields → Watched Fields) (known : Fields) (first : Bool) : Watched Fields := do
  let t ← ask depth
  if first && t.kind == .closeAngle then return known
  else
    let type ← element t
    let name ← expect [.identifier]
    if known.contains name.text then throw ⟨.duplicateField name.text, some name.position⟩
    else
      let separator ← expect [.comma, .closeAngle]
      if separator.kind = .closeAngle then return known.insert name.text type
      else next (known.insert name.text type)

/-- The fields of a record after those in `known`, with as many repetitions of the loop at most. -/
def fieldsWithin (element : Token → Watched DataType) (depth : Nat) :
    (repetitions : Nat) → (known : Fields) → (first : Bool) → Watched Fields
  | 0 => fieldWithin element depth fun _ => exhausted
  | repetitions + 1 =>
    fieldWithin element depth fun known => fieldsWithin element depth repetitions known false

/-- The type whose first token is `first`, inside of `depth` containers, with as many levels of
containers at most. -/
def typeWithin (levels : Nat) (first : Token) (depth : Nat) : Watched DataType :=
  if first.kind ≠ .identifier then throw first.unexpected
  else
    match TypeWord.ofText? first.text with
    | none => throw ⟨.unknownType first.text, some first.position⟩
    | some word =>
      if word.isContainer && maxDepth ≤ depth then
        throw ⟨.nestedTooDeep maxDepth, some first.position⟩
      else
        match word, levels with
        | .string, _ => return string
        | .int, _ => return int
        | .bool, _ => return bool
        | _, 0 => exhausted
        | .list, levels + 1 => do
          let _ ← expect [.openAngle]
          let t ← ask (depth + 1)
          let element ← typeWithin levels t (depth + 1)
          let _ ← expect [.closeAngle]
          return list element
        | .map, levels + 1 => do
          let _ ← expect [.openAngle]
          let t ← ask (depth + 1)
          let key ← typeWithin levels t (depth + 1)
          let _ ← expect [.comma]
          let t' ← ask (depth + 1)
          let value ← typeWithin levels t' (depth + 1)
          let _ ← expect [.closeAngle]
          return map key value
        | .record, levels + 1 => do
          let _ ← expect [.openAngle]
          let repetitions ← remaining
          record <$> fieldsWithin (fun t => typeWithin levels t (depth + 1)) (depth + 1)
            repetitions ∅ true

def readWatched : Watched DataType := do
  let t ← ask 0
  typeWithin maxDepth t 0

def parseWatched : Watched DataType := do
  let type ← readWatched
  let _ ← expect [.endOfInput]
  return type

end DataType

end ComponentGraph
