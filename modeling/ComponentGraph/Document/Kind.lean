/-!
# Kinds of document nodes

The six kinds that a manifest tells apart. Numbers of every form are one kind.
-/

set_option autoImplicit false

namespace ComponentGraph

inductive Kind
  | null
  | bool
  | number
  | string
  | sequence
  | mapping
  deriving DecidableEq, Repr

def Kind.word : Kind → String
  | .null => "null"
  | .bool => "bool"
  | .number => "number"
  | .string => "string"
  | .sequence => "sequence"
  | .mapping => "mapping"

end ComponentGraph
