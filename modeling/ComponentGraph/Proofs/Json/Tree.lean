import ComponentGraph.Json.Value
import ComponentGraph.Proofs.Manifest.Mirror
import ComponentGraph.Yaml.Tree

/-!
# JSON values as YAML trees

The tree of a value is built alike: arrays are sequences, and objects are mappings with the same
names as keys, in the same order. It mirrors the value, and so a manifest means the same in the two
formats, down to the faults.
-/

set_option autoImplicit false

namespace ComponentGraph.Json.Value

open Document Yaml

def tree : Value → Tree
  | null => .null
  | bool value => .bool value
  | number value => .number value
  | string text => .string text
  | array items => .sequence (treeItems items)
  | object members => .mapping (treeMembers members)
where
  treeItems : List Value → List Tree
    | [] => []
    | v :: items => v.tree :: treeItems items
  treeMembers {low : Option String} : SortedEntries Value low → List (Tree × Tree)
    | .nil => []
    | .cons name _ v rest => (.string name, v.tree) :: treeMembers rest

theorem treeItems_eq_map (items : List Value) : tree.treeItems items = items.map tree := by
  induction items with
  | nil => rfl
  | cons v items ih => rw [tree.treeItems, ih, List.map_cons]

theorem named_treeMembers {low : Option String} (members : SortedEntries Value low) :
    Tree.named (tree.treeMembers members) = members.toList.map fun e => (e.1, e.2.tree) := by
  induction members with
  | nil => rfl
  | cons name _ v rest ih =>
    rw [tree.treeMembers, SortedEntries.toList, List.map_cons, ← ih]
    rfl

theorem shape_tree (v : Value) : v.tree.shape = v.shape.map tree := by
  cases v with
  | null | bool | number | string => rfl
  | array items => exact congrArg Shape.sequence (treeItems_eq_map items)
  | object members => exact congrArg Shape.mapping (named_treeMembers members)

mutual

theorem copy_tree (v : Value) : v.tree.copy = v.copy := by
  cases v with
  | null | bool | number | string => rfl
  | array items => rw [tree, Tree.copy, copy, copyItems_tree items]
  | object members => rw [tree, Tree.copy, copy, copyMembers_tree members]

theorem copyItems_tree (items : List Value) :
    Tree.copy.copyItems (tree.treeItems items) = copy.copyItems items := by
  cases items with
  | nil => rfl
  | cons v items =>
    rw [tree.treeItems, Tree.copy.copyItems, copy.copyItems, copy_tree v, copyItems_tree items]

theorem copyMembers_tree {low : Option String} (members : SortedEntries Value low) :
    Tree.copy.copyEntries (tree.treeMembers members) = copy.copyMembers members := by
  cases members with
  | nil => rfl
  | cons name _ v rest =>
    rw [tree.treeMembers, Tree.copy.copyEntries, copy.copyMembers, copy_tree v,
      copyMembers_tree rest, Tree.copy]

end

theorem mirrors_tree : Mirrors tree := ⟨shape_tree, copy_tree⟩

/-- A value and its tree decode to the same application or fail with the same fault, and their
nodes answer alike. -/
theorem decode_tree (document : Value) :
    Manifest.decode document.tree = Manifest.decode document ∧ ∀ node : Value, Alike tree node :=
  ⟨Manifest.decode_mirror mirrors_tree document, mirrors_tree.alike⟩

end ComponentGraph.Json.Value
