import ComponentGraph.Yaml.Event
import ComponentGraph.Yaml.Scalar

/-!
# YAML nodes

The nodes of a document as they are written, with aliases still in place. Where the text stops
making sense, the collections around that place end with a broken node.

Anchors are numbered by the count of different names before them. When a name is used again, the
next anchor may therefore get the same number, and then takes its place for all aliases.
-/

set_option autoImplicit false

namespace ComponentGraph.Yaml

/-- The tag of a node, and where the node starts. -/
structure NodeInfo where
  tag : Option TagText
  position : Position

inductive Node
  | alias (anchor : Nat)
  | scalar (info : NodeInfo) (text : String) (plain : Bool)
  | sequence (info : NodeInfo) (items : List Node)
  | mapping (info : NodeInfo) (entries : List (Node × Node))
  | broken (position : Position)

structure Composition where
  root : Node
  /-- The nodes with anchors, by the places where they start. -/
  anchored : List (Nat × Node)
  /-- The place of the last node with each anchor number. -/
  anchors : List (Nat × Nat)
  /-- How many events the document has. -/
  size : Nat

namespace Composition

/-- A collection with its contents so far, last first. -/
inductive Frame
  | sequence (info : NodeInfo) (place : Option Nat) (items : List Node)
  | mapping (info : NodeInfo) (place : Option Nat) (key : Option Node)
      (entries : List (Node × Node))

structure Builder where
  frames : List Frame := []
  root : Option Node := none
  /-- The numbers of the anchor names. -/
  names : List (String × Nat) := []
  anchored : List (Nat × Node) := []
  anchors : List (Nat × Nat) := []
  size : Nat := 0

namespace Builder

/-- Takes a complete node into the innermost open collection. -/
def add (b : Builder) (node : Node) : Builder :=
  match b.frames with
  | [] => { b with root := some node }
  | .sequence info place items :: frames =>
    { b with frames := .sequence info place (node :: items) :: frames }
  | .mapping info place none entries :: frames =>
    { b with frames := .mapping info place (some node) entries :: frames }
  | .mapping info place (some key) entries :: frames =>
    { b with frames := .mapping info place none ((key, node) :: entries) :: frames }

def anchorAt (b : Builder) (place : Option Nat) (node : Node) : Builder :=
  match place with
  | none => b
  | some place => { b with anchored := (place, node) :: b.anchored }

/-- Numbers an anchor whose node starts here. -/
def name (b : Builder) (properties : Properties) : Option Nat × Builder :=
  match properties.anchor with
  | none => (none, b)
  | some name =>
    let number := b.names.length
    let others := b.names.filter fun n => n.1 ≠ name
    (some b.size,
      { b with names := (name, number) :: others, anchors := (number, b.size) :: b.anchors })

def closeFrame (b : Builder) : Builder :=
  match b.frames with
  | [] => b
  | .sequence info place items :: frames =>
    let node := Node.sequence info items.reverse
    ({ b with frames }.anchorAt place node).add node
  | .mapping info place key entries :: frames =>
    let broken := key.toList.map fun k => (k, Node.broken info.position)
    let node := Node.mapping info (entries.reverse ++ broken)
    ({ b with frames }.anchorAt place node).add node

def count (b : Builder) : Builder := { b with size := b.size + 1 }

/-- Takes an event of a document, which stands at this position. An alias needs an anchor before
it. -/
def step (b : Builder) (position : Position) : Event → Option Builder
  | .documentStart | .documentEnd | .streamEnd => some b
  | .alias name =>
    (b.names.find? fun n => n.1 = name).map fun n => (b.add (.alias n.2)).count
  | .scalar properties text plain =>
    let (place, b) := b.name properties
    let node := Node.scalar ⟨properties.tag, position⟩ text plain
    some ((b.anchorAt place node).add node).count
  | .sequenceStart properties =>
    let (place, b) := b.name properties
    some { b with frames := .sequence ⟨properties.tag, position⟩ place [] :: b.frames }.count
  | .mappingStart properties =>
    let (place, b) := b.name properties
    some { b with frames := .mapping ⟨properties.tag, position⟩ place none [] :: b.frames }.count
  | .sequenceEnd | .mappingEnd => some b.closeFrame.count

/-- Ends a document at a place where it stops making sense. A complete root stays as it is. -/
def breakOff (b : Builder) (position : Position) : Builder :=
  if b.root.isSome then b else close b.frames.length (b.add (.broken position))
where
  close : Nat → Builder → Builder
    | 0, b => b
    | n + 1, b => close n b.closeFrame

def finish (b : Builder) : Composition :=
  ⟨b.root.getD (.scalar ⟨none, .start⟩ "" true), b.anchored, b.anchors, b.size⟩

end Builder

/-- The first document of a text and what follows it, or where the document breaks off. -/
def first : Nat → Grammar → Builder → Composition × Except Position Grammar
  | 0, g, b => ((b.breakOff g.failure).finish, .error g.failure)
  | fuel + 1, g, b =>
    let position := g.position
    match g.step with
    | .error position => ((b.breakOff position).finish, .error position)
    | .ok (.documentEnd, g') | .ok (.streamEnd, g') => (b.finish, .ok g')
    | .ok (event, g') =>
      match b.step position event with
      | some b => first fuel g' b
      | none => ((b.breakOff position).finish, .error position)

def resolve (c : Composition) (anchor : Nat) : Node :=
  let place := (c.anchors.find? fun a => a.1 = anchor).map Prod.snd
  let node := place.bind fun p => (c.anchored.find? fun n => n.1 = p).map Prod.snd
  node.getD (.broken .start)

end Composition

end ComponentGraph.Yaml
