import ComponentGraph.Document

/-!
# JSON values

The members of an object are a map: their names are strings, they are kept in increasing order,
and no name occurs twice.
-/

set_option autoImplicit false

namespace ComponentGraph.Json

inductive Value
  | null
  | bool (value : Bool)
  | number (value : Number)
  | string (text : String)
  | array (items : List Value)
  | object (members : SortedEntries Value none)

namespace Value

instance : Inhabited Value := ⟨.null⟩

def shape : Value → Shape Value
  | null => .null
  | bool _ => .bool
  | number _ => .number
  | string text => .string text
  | array items => .sequence items
  | object members => .mapping members.toList

def copy : Value → ConfigValue
  | null => .null
  | bool value => .bool value
  | number value => value.toConfig
  | string text => .string text
  | array items => .sequence (copyItems items)
  | object members => .mapping (copyMembers members)
where
  copyItems : List Value → List ConfigValue
    | [] => []
    | v :: items => v.copy :: copyItems items
  copyMembers {low : Option String} :
      SortedEntries Value low → List (ConfigValue × ConfigValue)
    | .nil => []
    | .cons name _ v rest => (.string name, v.copy) :: copyMembers rest

def size : Value → Nat
  | null | bool _ | number _ | string _ => 1
  | array items => sizeItems items + 1
  | object members => sizeMembers members + 1
where
  sizeItems : List Value → Nat
    | [] => 0
    | v :: items => v.size + sizeItems items
  sizeMembers {low : Option String} : SortedEntries Value low → Nat
    | .nil => 0
    | .cons _ _ v rest => v.size + sizeMembers rest

theorem size_le_sizeItems {items : List Value} {v : Value} (h : v ∈ items) :
    v.size ≤ size.sizeItems items := by
  induction items with
  | nil => cases h
  | cons x items ih =>
    rw [size.sizeItems]
    rcases List.mem_cons.mp h with rfl | h
    · exact Nat.le_add_right _ _
    · exact Nat.le_trans (ih h) (Nat.le_add_left _ _)

theorem size_le_sizeMembers {low : Option String} {members : SortedEntries Value low}
    {e : String × Value} (h : e ∈ members.toList) : e.2.size ≤ size.sizeMembers members := by
  induction members with
  | nil => cases h
  | cons n hn v rest ih =>
    rw [size.sizeMembers]
    rcases List.mem_cons.mp h with rfl | h
    · exact Nat.le_add_right _ _
    · exact Nat.le_trans (ih h) (Nat.le_add_left _ _)

instance : Document Value where
  shape := shape
  copy := copy
  size := size
  size_item {d items} h x hx := by
    cases d <;> cases h
    exact Nat.lt_succ_of_le (size_le_sizeItems hx)
  size_entry {d entries} h e he := by
    cases d <;> cases h
    exact Nat.lt_succ_of_le (size_le_sizeMembers he)

end Value

end ComponentGraph.Json
