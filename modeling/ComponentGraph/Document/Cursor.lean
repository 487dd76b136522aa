import ComponentGraph.Document

/-!
# Walking a document

A cursor is a node together with the nodes above it, the nearest first.
-/

set_option autoImplicit false

namespace ComponentGraph.Document

structure Cursor (δ : Type) where
  node : δ
  above : List δ

namespace Cursor

variable {δ : Type}

def root (d : δ) : Cursor δ := ⟨d, []⟩

def down (c : Cursor δ) (node : δ) : Cursor δ := ⟨node, c.node :: c.above⟩

/-- The parent; the root stays where it is. -/
def up (c : Cursor δ) : Cursor δ :=
  match c.above with
  | [] => c
  | parent :: above => ⟨parent, above⟩

variable [Document δ]

def get? (c : Cursor δ) (key : String) : Option (Cursor δ) :=
  (Document.get? c.node key).map c.down

def item? (c : Cursor δ) (i : Nat) : Option (Cursor δ) :=
  (Document.items? c.node).bind fun items => items[i]?.map c.down

/-- The value of the entry at a place among the entries with string keys. -/
def entry? (c : Cursor δ) (i : Nat) : Option (Cursor δ) :=
  (Document.entries? c.node).bind fun entries => entries[i]?.map fun e => c.down e.2

end Cursor

end ComponentGraph.Document
