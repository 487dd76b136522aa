import ComponentGraph.Component

/-!
# Applications

An application is the composite that a manifest describes. `==` compares applications as values
except that doubles in configurations are compared as numbers.
-/

set_option autoImplicit false

namespace ComponentGraph

structure Application where
  root : Composite

namespace Application

def empty : Application := ⟨∅⟩

instance : Inhabited Application := ⟨empty⟩

instance : BEq Application := ⟨fun a b => a.root.same b.root⟩

def components (a : Application) : NameMap Component := a.root.components

def bindings (a : Application) : List Binding := a.root.bindings

def find? (a : Application) (id : ComponentId) : Option Component := a.root.find? id

def isEmpty (a : Application) : Bool := a.components.isEmpty && a.bindings.isEmpty

end Application

end ComponentGraph
