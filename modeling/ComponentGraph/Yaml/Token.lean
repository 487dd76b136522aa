import ComponentGraph.Yaml.Cursor

/-!
# YAML tokens

Besides the indicators that stand in the text there are tokens that indentation stands for: the
starts and the ends of block collections, and the key indicator before a simple key.
-/

set_option autoImplicit false

namespace ComponentGraph.Yaml

/-- A tag as it is written, or the expansion of a handle. Escaped octets need not be UTF-8. -/
abbrev TagText : Type := List UInt8

def TagText.ofChars (chars : List Char) : TagText := (String.ofList chars).toUTF8.toList

inductive Token
  | version (major minor : Nat)
  | tagHandle (handle expansion : TagText)
  | documentStart
  | documentEnd
  | blockSequenceStart
  | blockMappingStart
  | blockEnd
  | flowSequenceStart
  | flowSequenceEnd
  | flowMappingStart
  | flowMappingEnd
  | blockEntry
  | flowEntry
  | key
  | value
  | alias (name : String)
  | anchor (name : String)
  | tag (handle suffix : TagText)
  | scalar (text : String) (plain : Bool)
  | streamEnd
  deriving DecidableEq

structure PlacedToken where
  token : Token
  position : Position

end ComponentGraph.Yaml
