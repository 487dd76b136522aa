import ComponentGraph.Fault
import ComponentGraph.Yaml.Node

/-!
# Reading YAML

The nodes of a document become a tree: aliases are replaced by what they stand for, scalars get
their values, and equal keys of a mapping are refused. Nesting is bounded, and so is the number of
aliases that are followed; a node inside of itself breaks one of the bounds. A text is one
document.
-/

set_option autoImplicit false

namespace ComponentGraph.Yaml

def maxDepth : Nat := 128

/-- How many aliases may be followed for each event of a document. -/
def aliasesPerEvent : Nat := 100

/-- Making a tree counts the aliases that it follows. It fails at a position, or as a whole. -/
abbrev Expansion : Type → Type := StateT Nat (Except (Option Position))

/-- The name of a tag that is no tag of the core schema: what follows the `!`. -/
def localTag? (tag : TagText) : Option String :=
  match tag with
  | 33 :: name => String.fromUTF8? ⟨(if name.isEmpty then tag else name).toArray⟩
  | _ => none

/-- Wraps a value in the tag of its node, if it has one of its own. -/
def withTag (tag : Option TagText) (t : Tree) : Tree :=
  match tag.bind localTag? with
  | some name => .tagged name t
  | none => t

def scalarValue (tag : Option TagText) (text : String) (plain : Bool) : Option Tree :=
  let untagged := if plain then Scalar.plain? text else some (.string text)
  match tag with
  | none => untagged
  | some t =>
    if (localTag? t).isSome ∨ (plain ∧ t.head? = some 33) then untagged
    else Scalar.tagged? t text

namespace Composition

/-- The node that is meant by a node: an alias is followed. -/
def follow (c : Composition) (node : Node) : Expansion Node := do
  match node with
  | .alias anchor =>
    modify (· + 1)
    if c.size * aliasesPerEvent < (← get) then throw none
    return c.resolve anchor
  | node => return node

/-- The entries of a mapping, in which no key may come twice. -/
def entries (expand : Node → Expansion Tree) (position : Position) :
    List (Node × Node) → List (Tree × Tree) → Expansion (List (Tree × Tree))
  | [], done => return done.reverse
  | (key, value) :: rest, done => do
    let k ← expand key
    if done.any fun e => k.sameKey e.1 then throw (some position)
    let v ← expand value
    entries expand position rest ((k, v) :: done)

/-- The tree of a node, by way of the trees of the nodes in it if these may be nested so deep. -/
def treeBy (c : Composition) (expand : Option (Node → Expansion Tree)) (node : Node) :
    Expansion Tree := do
  match ← c.follow node, expand with
  | .scalar info text plain, _ =>
    match scalarValue info.tag text plain with
    | some t => return withTag info.tag t
    | none => throw (some info.position)
  | .sequence info items, some expand => do
    let items ← items.mapM expand
    return withTag info.tag (.sequence items)
  | .mapping info es, some expand => do
    let es ← entries expand info.position es []
    return withTag info.tag (.mapping es)
  | .sequence info _, none | .mapping info _, none => throw (some info.position)
  | .broken position, _ => throw (some position)
  | .alias _, _ => throw none

/-- The tree of a node, with at most `depth` collections nested in it. -/
def tree (c : Composition) : Nat → Node → Expansion Tree
  | 0, node => c.treeBy none node
  | depth + 1, node => c.treeBy (some (c.tree depth)) node

end Composition

def readAt (text : String) : Except (Option Position) Tree := do
  let stream := TokenStream.ofText text.toList
  let failure := stream.failure.getD .start
  let fuel := 8 * stream.tokens.length + 8
  let (c, after) := Composition.first fuel { tokens := stream.tokens, failure } {}
  let (t, _) ← (c.tree maxDepth c.root).run 0
  match after with
  | .error position => throw (some position)
  | .ok g =>
    match g.step with
    | .ok (.streamEnd, _) => return t
    | _ => throw none

def read (text : String) : Except Fault Tree :=
  (readAt text).mapError fun position => ⟨.invalidDocument .yaml, position⟩

end ComponentGraph.Yaml
