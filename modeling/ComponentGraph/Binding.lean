import ComponentGraph.Fault
import ComponentGraph.ComponentId

/-!
# Bindings

A binding connects two targets; each is a component or one interface of it, written
`component` or `component#interface`. A composite hands on a pin of a child by a pin binding,
written `component#interface.pin`.
-/

set_option autoImplicit false

namespace ComponentGraph

/-- One side of a binding: a component, or one of its interfaces. -/
structure BindingTarget where
  component : ComponentId
  interface : Option String := none
  deriving DecidableEq, Repr

namespace BindingTarget

def ofText (text : String) : Except Fault BindingTarget :=
  match Separated.pieces '#' text.toList with
  | [component] => .ok ⟨.ofText (.ofList component), none⟩
  | [component, interface] => .ok ⟨.ofText (.ofList component), some (.ofList interface)⟩
  | _ => .error ⟨.unexpectedBindingTarget text, none⟩

def text (target : BindingTarget) : String :=
  match target.interface with
  | none => target.component.text
  | some interface => target.component.text ++ "#" ++ interface

end BindingTarget

/-- A connection of two targets. The sides are not interchangeable. -/
structure Binding where
  left : BindingTarget
  right : BindingTarget
  deriving DecidableEq, Repr

/-- Reads the left side first, so its error is the one that is reported. -/
def Binding.ofTexts (left right : String) : Except Fault Binding := do
  let left ← BindingTarget.ofText left
  let right ← BindingTarget.ofText right
  return ⟨left, right⟩

/-- A pin of a child component, by the names of the child, its interface and the pin. -/
structure PinBinding where
  component : String
  interface : String
  pin : String
  deriving DecidableEq, Repr

namespace PinBinding

/-- Cuts at the first `#`, and what follows at its first dot. -/
def ofText (text : String) : Except Fault PinBinding :=
  match Separated.cut? '#' text.toList with
  | none => .error ⟨.unexpectedPinBinding text, none⟩
  | some (component, pinRef) =>
    match Separated.cut? '.' pinRef with
    | none => .error ⟨.unexpectedPinBinding text, none⟩
    | some (interface, pin) =>
      if component = [] ∨ interface = [] ∨ pin = [] ∨ '.' ∈ pin ∨ '#' ∈ pin then
        .error ⟨.unexpectedPinBinding text, none⟩
      else .ok ⟨.ofList component, .ofList interface, .ofList pin⟩

def text (p : PinBinding) : String := p.component ++ "#" ++ p.interface ++ "." ++ p.pin

end PinBinding

end ComponentGraph
