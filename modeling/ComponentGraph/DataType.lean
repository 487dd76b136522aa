import ComponentGraph.NameMap

/-!
# Data types of pins

Scalars, lists, maps from keys to values, and records. The fields of a record form a map from
names to types, so two records are equal when they have the same fields, whatever their order.
-/

set_option autoImplicit false

namespace ComponentGraph

inductive DataType
  | string
  | int
  | bool
  | list (element : DataType)
  | map (key value : DataType)
  | record (fields : SortedEntries DataType none)

abbrev Fields : Type := NameMap DataType

namespace DataType

instance : Inhabited DataType := ⟨.string⟩

def ofFields (fields : List (String × DataType)) : DataType := .record (.ofList fields)

def isScalar : DataType → Bool
  | string | int | bool => true
  | list _ | map _ _ | record _ => false

/-- How many lists, maps and records are nested around the innermost point. -/
def depth : DataType → Nat
  | string | int | bool => 0
  | list element => element.depth + 1
  | map key value => max key.depth value.depth + 1
  | record fields => deepest fields + 1
where
  deepest {low : Option String} : SortedEntries DataType low → Nat
    | .nil => 0
    | .cons _ _ type rest => max type.depth (deepest rest)

def same : DataType → DataType → Bool
  | string, string | int, int | bool, bool => true
  | list a, list b => a.same b
  | map k v, map k' v' => k.same k' && v.same v'
  | record fs, record fs' => sameFields fs fs'
  | _, _ => false
where
  sameFields {l l' : Option String} : SortedEntries DataType l → SortedEntries DataType l' → Bool
    | .nil, .nil => true
    | .cons n _ t r, .cons n' _ t' r' => n == n' && t.same t' && sameFields r r'
    | _, _ => false

mutual
theorem same_iff : ∀ a b : DataType, a.same b = true ↔ a = b
  | string, b => by cases b <;> simp [same]
  | int, b => by cases b <;> simp [same]
  | bool, b => by cases b <;> simp [same]
  | list a, b => by
    cases b with
    | list b => simp only [same, same_iff a b, list.injEq]
    | _ => simp [same]
  | map k v, b => by
    cases b with
    | map k' v' => simp only [same, Bool.and_eq_true, same_iff k k', same_iff v v', map.injEq]
    | _ => simp [same]
  | record fs, b => by
    cases b with
    | record fs' => simp only [same, sameFields_iff fs fs', record.injEq]
    | _ => simp [same]

theorem sameFields_iff {low : Option String} :
    ∀ a b : SortedEntries DataType low, same.sameFields a b = true ↔ a = b
  | .nil, .nil => by simp [same.sameFields]
  | .nil, .cons .. => by simp [same.sameFields]
  | .cons .., .nil => by simp [same.sameFields]
  | .cons n h t r, .cons n' h' t' r' => by
    by_cases hn : n = n'
    · subst hn
      simp [same.sameFields, same_iff t t', sameFields_iff r r']
    · simp [same.sameFields, hn]
end

instance : DecidableEq DataType := fun a b => decidable_of_iff _ (same_iff a b)

end DataType

end ComponentGraph
