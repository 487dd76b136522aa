import ComponentGraph.Separated

/-!
# Component ids

The id of a component is the list of names on the way to it, through the composites that hold it.
Its text joins the names with dots. Every text is the text of an id, and empty names are kept.
-/

set_option autoImplicit false

namespace ComponentGraph

structure ComponentId where
  segments : List String
  deriving DecidableEq, Repr

namespace ComponentId

def ofText (text : String) : ComponentId :=
  ⟨(Separated.pieces '.' text.toList).map String.ofList⟩

def text (id : ComponentId) : String := String.intercalate "." id.segments

end ComponentId

end ComponentGraph
