import ComponentGraph.Application

/-!
# Editing applications

Edits work on the components and the bindings of the root. An edit that needs a component gives
nothing when there is no such component.
-/

set_option autoImplicit false

namespace ComponentGraph.Application

def modifyComponents (a : Application) (f : NameMap Component → NameMap Component) :
    Application :=
  ⟨{ a.root with components := f a.root.components }⟩

def setComponent (a : Application) (name : String) (c : Component) : Application :=
  a.modifyComponents fun components => components.insert name c

/-- A new application that holds the root of the old one as its only component. -/
def mount (a : Application) (name : String) : Application :=
  empty.setComponent name (.composite a.root)

/-- Puts the component with the id `source` under a name of the root as well. The flag tells
whether it takes the place of another one. -/
def copy? (a : Application) (source : ComponentId) (name : String) :
    Option (Bool × Application) :=
  (a.find? source).map fun c => (a.components.contains name, a.setComponent name c)

/-- Removes a component of the root. The flag tells whether there was one. -/
def remove (a : Application) (name : String) : Bool × Application :=
  (a.components.contains name, a.modifyComponents fun components => components.erase name)

def bind (a : Application) (b : Binding) : Application :=
  ⟨{ a.root with bindings := a.root.bindings ++ [b] }⟩

/-- The types of the components on the two sides of each binding. -/
def boundTypes (a : Application) : List (Option TypeName × Option TypeName) :=
  a.bindings.map fun b =>
    ((a.find? b.left.component).map Component.type, (a.find? b.right.component).map Component.type)

def leaf? (a : Application) (name : String) : Option Leaf :=
  (a.components.get? name).bind Component.leaf?

/-- Marks an interface of a leaf as required, and makes it when it is missing. -/
def require? (a : Application) (component interface : String) :
    Option (Leaf × Application) :=
  (a.leaf? component).map fun c =>
    let i := (c.interfaces.get? interface).getD {}
    let c := { c with interfaces := c.interfaces.insert interface { i with required := true } }
    (c, a.setComponent component (.leaf c))

/-- Puts a pin into an interface of a leaf, and makes the interface when it is missing. The flag
tells whether the pin takes the place of another one. -/
def setPin? (a : Application) (component interface name : String) (pin : Pin) :
    Option (Bool × Application) :=
  (a.leaf? component).map fun c =>
    let i := (c.interfaces.get? interface).getD {}
    let j := { i with pins := i.pins.insert name pin }
    (i.pins.contains name,
      a.setComponent component (.leaf { c with interfaces := c.interfaces.insert interface j }))

end ComponentGraph.Application
