import ComponentGraph.Token.Reading
import ComponentGraph.DataType.Text

/-!
# Parsing data types

One token decides how a type goes on, so the parser never goes back. Containers may be nested up
to `maxDepth` deep. A failed parse leaves the scanner behind the token that it blames.
-/

set_option autoImplicit false

namespace ComponentGraph

namespace DataType

def maxDepth : Nat := 128

mutual

/-- The type whose first token is `first`, inside of `depth` containers. -/
def startingWith (first : Token) (depth : Nat) (s : Scanner) : Reading s DataType :=
  if first.kind ≠ .identifier then .fail s first.unexpected
  else
    match TypeWord.ofText? first.text with
    | none => .fail s ⟨.unknownType first.text, some first.position⟩
    | some word =>
      if word.isContainer && maxDepth ≤ depth then
        .fail s ⟨.nestedTooDeep maxDepth, some first.position⟩
      else ofWord word depth s
termination_by 3 * s.unread.length + 1

/-- The type that goes on after its word, inside of `depth` containers. -/
def ofWord (word : TypeWord) (depth : Nat) (s : Scanner) : Reading s DataType :=
  match word with
  | .string => .done s string
  | .int => .done s int
  | .bool => .done s bool
  | .list =>
    s.expecting [.openAngle] (by decide) fun _ s₁ h₁ =>
    s₁.taking fun t s₂ h₂ =>
    (startingWith t (depth + 1) s₂).andThen fun element s₃ _ =>
    s₃.expecting [.closeAngle] (by decide) fun _ s₄ _ => .done s₄ (list element)
  | .map =>
    s.expecting [.openAngle] (by decide) fun _ s₁ h₁ =>
    s₁.taking fun t s₂ h₂ =>
    (startingWith t (depth + 1) s₂).andThen fun key s₃ h₃ =>
    s₃.expecting [.comma] (by decide) fun _ s₄ h₄ =>
    s₄.taking fun t' s₅ h₅ =>
    (startingWith t' (depth + 1) s₅).andThen fun value s₆ _ =>
    s₆.expecting [.closeAngle] (by decide) fun _ s₇ _ => .done s₇ (map key value)
  | .record =>
    s.expecting [.openAngle] (by decide) fun _ s₁ h₁ =>
    (fieldsAfter ∅ true (depth + 1) s₁).map record
termination_by 3 * s.unread.length

/-- The fields of a record after those in `known`. A `>` may stand in place of the first field. -/
def fieldsAfter (known : Fields) (first : Bool) (depth : Nat) (s : Scanner) :
    Reading s Fields :=
  s.taking fun t s₁ h₁ =>
  if first && t.kind == .closeAngle then .done s₁ known
  else
    (startingWith t depth s₁).andThen fun type s₂ h₂ =>
    s₂.expecting [.identifier] (by decide) fun name s₃ h₃ =>
    if known.contains name.text then
      .fail s₃ ⟨.duplicateField name.text, some name.position⟩
    else
      s₃.expecting [.comma, .closeAngle] (by decide) fun separator s₄ h₄ =>
      if separator.kind = .closeAngle then .done s₄ (known.insert name.text type)
      else fieldsAfter (known.insert name.text type) false depth s₄
termination_by 3 * s.unread.length + 2

end

/-- The type that comes next; what follows it stays unread. -/
def read (s : Scanner) : Reading s DataType := s.taking fun t s' _ => startingWith t 0 s'

/-- The type that the whole text is. -/
def parse (text : String) : Except Fault DataType :=
  let r := read (.ofString text)
  r.result.bind fun type => (r.stop.expect [.endOfInput]).1.map fun _ => type

end DataType

end ComponentGraph
