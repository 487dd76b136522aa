import ComponentGraph.Binding
import ComponentGraph.ConfigValue
import ComponentGraph.Pin

/-!
# Components

A leaf component has interfaces with pins of its own. A composite holds other components and the
bindings between them, and its interfaces hand on pins of its children.
-/

set_option autoImplicit false

namespace ComponentGraph

structure TypeName where
  text : String := ""
  deriving DecidableEq, Repr

namespace TypeName

/-- The type of a composite that names no other. -/
def composite : TypeName := ⟨"core.Composite"⟩

def isComposite (t : TypeName) : Bool := t == composite

end TypeName

structure LeafInterface where
  pins : NameMap Pin := ∅
  required : Bool := false
  deriving DecidableEq

structure Leaf where
  type : TypeName := {}
  configuration : Configuration := ∅
  interfaces : NameMap LeafInterface := ∅

structure CompositeInterface where
  pins : NameMap PinBinding := ∅
  deriving DecidableEq

mutual

inductive Component
  | leaf (c : Leaf)
  | composite (c : Composite)

structure Composite where
  type : TypeName
  configuration : SortedEntries ConfigValue none
  components : SortedEntries Component none
  interfaces : SortedEntries CompositeInterface none
  bindings : List Binding

end

namespace Composite

def empty : Composite := ⟨.composite, ∅, ∅, ∅, []⟩

instance : EmptyCollection Composite := ⟨empty⟩

end Composite

namespace Component

def type : Component → TypeName
  | leaf c => c.type
  | composite c => c.type

def configuration : Component → Configuration
  | leaf c => c.configuration
  | composite c => c.configuration

def leaf? : Component → Option Leaf
  | leaf c => some c
  | composite _ => none

def composite? : Component → Option Composite
  | leaf _ => none
  | composite c => some c

/-- The component that is reached from this one along names of children. -/
def descend : Component → List String → Option Component
  | c, [] => some c
  | leaf _, _ :: _ => none
  | composite c, name :: names => (c.components.get? name).bind fun child => child.descend names

end Component

/-- The component with this id. No component has the empty id. -/
def Composite.find? (c : Composite) (id : ComponentId) : Option Component :=
  match id.segments with
  | [] => none
  | name :: names => (c.components.get? name).bind fun child => child.descend names

def Leaf.same (a b : Leaf) : Bool :=
  a.type == b.type && a.configuration.matchWith ConfigValue.same b.configuration &&
    a.interfaces == b.interfaces

mutual

/-- Equality of components, with doubles compared as numbers. -/
def Component.same : Component → Component → Bool
  | .leaf a, .leaf b => a.same b
  | .composite a, .composite b => a.same b
  | _, _ => false

def Composite.same : Composite → Composite → Bool
  | ⟨type, configuration, components, interfaces, bindings⟩,
    ⟨type', configuration', components', interfaces', bindings'⟩ =>
    type == type' && configuration.matchWith ConfigValue.same configuration' &&
      Composite.sameChildren components components' && interfaces == interfaces' &&
      bindings == bindings'

def Composite.sameChildren {l l' : Option String} :
    SortedEntries Component l → SortedEntries Component l' → Bool
  | .nil, .nil => true
  | .cons n _ c r, .cons n' _ c' r' => n == n' && c.same c' && Composite.sameChildren r r'
  | _, _ => false

end

end ComponentGraph
