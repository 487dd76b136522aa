import ComponentGraph.DataType

/-!
# The text of a data type

A record is written with its fields in increasing order of their names.
-/

set_option autoImplicit false

namespace ComponentGraph

inductive TypeWord
  | string
  | int
  | bool
  | list
  | map
  | record
  deriving DecidableEq, Repr

namespace TypeWord

def text : TypeWord → String
  | string => "string"
  | int => "int"
  | bool => "bool"
  | list => "list"
  | map => "map"
  | record => "record"

def all : List TypeWord := [string, int, bool, list, map, record]

def ofText? (text : String) : Option TypeWord := all.find? fun w => w.text = text

def isContainer : TypeWord → Bool
  | string | int | bool => false
  | list | map | record => true

end TypeWord

namespace DataType

def render : DataType → String
  | string => TypeWord.string.text
  | int => TypeWord.int.text
  | bool => TypeWord.bool.text
  | list element => TypeWord.list.text ++ "<" ++ element.render ++ ">"
  | map key value => TypeWord.map.text ++ "<" ++ key.render ++ ", " ++ value.render ++ ">"
  | record fields =>
    TypeWord.record.text ++ "<" ++ String.intercalate ", " (renderFields fields) ++ ">"
where
  renderFields {low : Option String} : SortedEntries DataType low → List String
    | .nil => []
    | .cons name _ type rest => (type.render ++ " " ++ name) :: renderFields rest

instance : ToString DataType := ⟨render⟩

end DataType

end ComponentGraph
