import ComponentGraph.Document

/-!
# YAML trees

A tree keeps the entries of a mapping in their order, and any tree may be a key. A node with a
tag of its own is a node around the untagged one; decoding looks through it.
-/

set_option autoImplicit false

namespace ComponentGraph.Yaml

inductive Tree
  | null
  | bool (value : Bool)
  | number (value : Number)
  | string (text : String)
  | sequence (items : List Tree)
  | mapping (entries : List (Tree × Tree))
  | tagged (tag : String) (node : Tree)

namespace Tree

instance : Inhabited Tree := ⟨.null⟩

def untag : Tree → Tree
  | tagged _ node => node.untag
  | node => node

def text? (t : Tree) : Option String :=
  match t.untag with
  | string text => some text
  | _ => none

def named (entries : List (Tree × Tree)) : List (String × Tree) :=
  entries.filterMap fun e => e.1.text?.map fun key => (key, e.2)

def shape (t : Tree) : Shape Tree :=
  match t.untag with
  | null | tagged .. => .null
  | bool _ => .bool
  | number _ => .number
  | string text => .string text
  | sequence items => .sequence items
  | mapping entries => .mapping (named entries)

/-- The tree as a configuration value, without tags. -/
def copy : Tree → ConfigValue
  | null => .null
  | bool value => .bool value
  | number value => value.toConfig
  | string text => .string text
  | sequence items => .sequence (copyItems items)
  | mapping entries => .mapping (copyEntries entries)
  | tagged _ node => node.copy
where
  copyItems : List Tree → List ConfigValue
    | [] => []
    | t :: items => t.copy :: copyItems items
  copyEntries : List (Tree × Tree) → List (ConfigValue × ConfigValue)
    | [] => []
    | (k, t) :: entries => (k.copy, t.copy) :: copyEntries entries

/-- How many nodes there are, keys not counted. -/
def size : Tree → Nat
  | null | bool _ | number _ | string _ => 1
  | sequence items => sizeItems items + 1
  | mapping entries => sizeEntries entries + 1
  | tagged _ node => node.size + 1
where
  sizeItems : List Tree → Nat
    | [] => 0
    | t :: items => t.size + sizeItems items
  sizeEntries : List (Tree × Tree) → Nat
    | [] => 0
    | (_, t) :: entries => t.size + sizeEntries entries

/-- Equality of trees as keys of a mapping. The order of entries does not count, but tags do. -/
def sameKey : Tree → Tree → Bool
  | null, null => true
  | bool a, bool b => a == b
  | number a, number b => a.same b
  | string a, string b => a == b
  | sequence xs, sequence ys => sameItems xs ys
  | mapping xs, mapping ys => xs.length == ys.length && allAmong xs ys
  | tagged tag a, tagged tag' b => tag == tag' && a.sameKey b
  | _, _ => false
where
  sameItems : List Tree → List Tree → Bool
    | [], [] => true
    | x :: xs, y :: ys => x.sameKey y && sameItems xs ys
    | _, _ => false
  allAmong : List (Tree × Tree) → List (Tree × Tree) → Bool
    | [], _ => true
    | (k, x) :: xs, ys => (ys.any fun y => k.sameKey y.1 && x.sameKey y.2) && allAmong xs ys

theorem untag_ne_tagged (t : Tree) (tag : String) (node : Tree) : t.untag ≠ tagged tag node := by
  fun_induction untag t with
  | case1 _ _ ih => exact ih
  | case2 t h => exact h tag node

theorem size_untag_le (t : Tree) : t.untag.size ≤ t.size := by
  fun_induction untag t with
  | case1 _ _ ih => exact Nat.le_succ_of_le ih
  | case2 => exact Nat.le_refl _

theorem size_le_sizeItems {items : List Tree} {t : Tree} (h : t ∈ items) :
    t.size ≤ size.sizeItems items := by
  induction items with
  | nil => cases h
  | cons x items ih =>
    rw [size.sizeItems]
    rcases List.mem_cons.mp h with rfl | h
    · exact Nat.le_add_right _ _
    · exact Nat.le_trans (ih h) (Nat.le_add_left _ _)

theorem size_le_sizeEntries {entries : List (Tree × Tree)} {e : Tree × Tree} (h : e ∈ entries) :
    e.2.size ≤ size.sizeEntries entries := by
  induction entries with
  | nil => cases h
  | cons x entries ih =>
    rw [size.sizeEntries]
    rcases List.mem_cons.mp h with rfl | h
    · exact Nat.le_add_right _ _
    · exact Nat.le_trans (ih h) (Nat.le_add_left _ _)

theorem size_item {d : Tree} {items : List Tree} (h : d.shape = .sequence items) :
    ∀ x ∈ items, x.size < d.size := by
  intro x hx
  refine Nat.lt_of_lt_of_le ?_ d.size_untag_le
  unfold shape at h
  split at h <;> cases h
  rename_i hd
  rw [hd, size]
  exact Nat.lt_succ_of_le (size_le_sizeItems hx)

theorem size_entry {d : Tree} {entries : List (String × Tree)} (h : d.shape = .mapping entries) :
    ∀ e ∈ entries, e.2.size < d.size := by
  intro e he
  refine Nat.lt_of_lt_of_le ?_ d.size_untag_le
  unfold shape at h
  split at h <;> cases h
  rename_i hd
  obtain ⟨x, hx, hxe⟩ := List.mem_filterMap.mp he
  obtain ⟨key, _, rfl⟩ := Option.map_eq_some_iff.mp hxe
  rw [hd, size]
  exact Nat.lt_succ_of_le (size_le_sizeEntries hx)

instance : Document Tree where
  shape := shape
  copy := copy
  size := size
  size_item := size_item
  size_entry := size_entry

end Tree

end ComponentGraph.Yaml
