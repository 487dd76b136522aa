import ComponentGraph.Document

/-!
# Documents that look alike

A mirror takes the nodes of one kind of document to nodes of another, so that each image has the
shape of its node, with the images of the parts for the parts, and the same copy. Nothing that
decoding asks of a node tells the two apart.
-/

set_option autoImplicit false

namespace ComponentGraph

variable {δ ε : Type}

namespace Shape

def map (f : δ → ε) : Shape δ → Shape ε
  | null => null
  | bool => bool
  | number => number
  | string text => string text
  | sequence items => sequence (items.map f)
  | mapping entries => mapping (entries.map fun e => (e.1, f e.2))

end Shape

namespace Document

variable [Document δ]

theorem describe_eq (d : δ) :
    describe d =
      match string? d, items? d with
      | some text, _ => text
      | none, some items => "[" ++ String.intercalate ", " (items.map describe) ++ "]"
      | none, none => "<" ++ (kind d).word ++ ">" := by
  rw [describe]
  cases string? d with
  | some text => rfl
  | none =>
    dsimp only
    split
    · rename_i items hitems
      rw [hitems]
      dsimp only
      rw [List.attach_map_val]
    · rename_i hitems
      rw [hitems]

variable [Document ε] {f : δ → ε}

structure Mirrors (f : δ → ε) : Prop where
  shape_eq : ∀ d, shape (f d) = (shape d).map f
  copy_eq : ∀ d, copy (f d) = copy d

/-- A node and its image answer alike, and their parts correspond. -/
structure Alike (f : δ → ε) (d : δ) : Prop where
  kind_eq : kind (f d) = kind d
  isNull_eq : isNull (f d) = isNull d
  string?_eq : string? (f d) = string? d
  items?_eq : items? (f d) = (items? d).map (List.map f)
  entries?_eq : entries? (f d) = (entries? d).map (List.map fun e => (e.1, f e.2))
  get?_eq : ∀ key, get? (f d) key = (get? d key).map f
  copy_eq : copy (f d) = copy d

namespace Mirrors

section Views

variable (h : Mirrors f) (d : δ)

include h

theorem kind_eq : kind (f d) = kind d := by
  rw [kind, kind, h.shape_eq]
  cases shape d <;> rfl

theorem isNull_eq : isNull (f d) = isNull d := by
  rw [isNull, isNull, h.kind_eq]

theorem string?_eq : string? (f d) = string? d := by
  rw [string?, string?, h.shape_eq]
  cases shape d <;> rfl

theorem items?_eq : items? (f d) = (items? d).map (List.map f) := by
  rw [items?, items?, h.shape_eq]
  cases shape d <;> rfl

theorem entries?_eq : entries? (f d) = (entries? d).map (List.map fun e => (e.1, f e.2)) := by
  rw [entries?, entries?, h.shape_eq]
  cases shape d <;> rfl

theorem get?_eq (key : String) : get? (f d) key = (get? d key).map f := by
  rw [get?, get?, h.entries?_eq]
  cases entries? d with
  | none => rfl
  | some entries =>
    simp only [Option.map_some, Option.bind_some, List.find?_map, Option.map_map]
    rfl

theorem present?_eq (key : String) : present? (f d) key = (present? d key).map f := by
  rw [present?, present?, h.get?_eq, Option.filter_map]
  congr 2
  funext v
  exact congrArg not (h.isNull_eq v)

theorem alike : Alike f d :=
  ⟨h.kind_eq d, h.isNull_eq d, h.string?_eq d, h.items?_eq d, h.entries?_eq d, h.get?_eq d,
    h.copy_eq d⟩

end Views

theorem describe_eq (h : Mirrors f) (d : δ) : describe (f d) = describe d := by
  rw [Document.describe_eq, Document.describe_eq d, h.string?_eq, h.items?_eq, h.kind_eq]
  cases string? d with
  | some text => rfl
  | none =>
    cases hitems : items? d with
    | none => rfl
    | some items =>
      have hparts : items.map (describe ∘ f) = items.map describe := by
        refine List.map_congr_left fun x hx => ?_
        have := size_of_items? hitems x hx
        exact h.describe_eq x
      simp only [Option.map_some, List.map_map, hparts]
termination_by size d

end Mirrors

end Document

end ComponentGraph
