import ComponentGraph.Component

/-!
# Properties of all components

A property of leaves and a property of composites, asked of a component and of everything in it.
-/

set_option autoImplicit false

namespace ComponentGraph

theorem SortedEntries.sizeOf_lt_of_get? {α : Type} [SizeOf α] {low : Option String}
    {m : SortedEntries α low} {name : String} {value : α} (h : m.get? name = some value) :
    sizeOf value < sizeOf m := by
  induction m with
  | nil => cases h
  | cons n _ v rest ih =>
    rw [SortedEntries.cons.sizeOf_spec]
    rw [get?_cons] at h
    split at h
    · cases h
      omega
    · have := ih h
      omega

theorem Composite.sizeOf_child_lt {c : Composite} {name : String} {child : Component}
    (h : c.components.get? name = some child) : sizeOf child < sizeOf c := by
  have := SortedEntries.sizeOf_lt_of_get? h
  cases c
  rw [Composite.mk.sizeOf_spec]
  dsimp only at this
  omega

mutual

/-- All leaves in the component and all composites in it, itself among them, are as said. -/
inductive Component.Each (P : Leaf → Prop) (Q : Composite → Prop) : Component → Prop
  | leaf {l : Leaf} : P l → Component.Each P Q (.leaf l)
  | composite {c : Composite} : Composite.Each P Q c → Component.Each P Q (.composite c)

inductive Composite.Each (P : Leaf → Prop) (Q : Composite → Prop) : Composite → Prop
  | intro {c : Composite} :
    Q c → (∀ name child, c.components.get? name = some child → Component.Each P Q child) →
    Composite.Each P Q c

end

def Leaf.EachPin (P : Pin → Prop) (l : Leaf) : Prop :=
  ∀ name i, l.interfaces.get? name = some i → ∀ pin p, i.pins.get? pin = some p → P p

structure Composite.EachText (P : PinBinding → Prop) (Q : BindingTarget → Prop) (c : Composite) :
    Prop where
  pins : ∀ name i, c.interfaces.get? name = some i → ∀ pin p, i.pins.get? pin = some p → P p
  bindings : ∀ b ∈ c.bindings, Q b.left ∧ Q b.right

end ComponentGraph
