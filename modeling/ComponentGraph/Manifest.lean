import ComponentGraph.Application
import ComponentGraph.Document
import ComponentGraph.Pin.Spec

/-!
# Decoding manifests

A manifest describes an application under the key `application`. A node with a section of
`components` is a composite, any other a leaf. Sections are decoded in a fixed order, and the
first fault ends decoding; faults of shape name the path of the node. A section that is null
counts as absent, unknown keys are not looked at, and of two entries with one name the later
counts.
-/

set_option autoImplicit false

namespace ComponentGraph.Manifest

open Document

variable {δ α β : Type} [Document δ]

/-- The node in the form that is expected, or a fault that says what it is instead. -/
def expect (form : δ → Option α) (expected : Kind) (node : δ) (path : Path) : Except Fault α :=
  match form node with
  | some a => .ok a
  | none => .error ⟨.wrongKind expected path (kind node), none⟩

abbrev expectMapping (node : δ) (path : Path) : Except Fault (List (String × δ)) :=
  expect entries? .mapping node path

abbrev expectSequence (node : δ) (path : Path) : Except Fault (List δ) :=
  expect items? .sequence node path

abbrev expectString (node : δ) (path : Path) : Except Fault String :=
  expect string? .string node path

theorem expect_eq_ok_iff {form : δ → Option α} {expected : Kind} {node : δ} {path : Path} {a : α} :
    expect form expected node path = .ok a ↔ form node = some a := by
  rw [expect]
  cases form node <;> simp

def typeName? (node : δ) (path : Path) : Except Fault (Option TypeName) :=
  match present? node "type" with
  | none => .ok none
  | some type => (expectString type (path.key "type")).map fun text => some ⟨text⟩

def configuration (node : δ) (path : Path) : Except Fault Configuration :=
  match present? node "configuration" with
  | none => .ok ∅
  | some values =>
    (expectMapping values (path.key "configuration")).map fun entries =>
      .ofList (entries.map fun e => (e.1, copy e.2))

def pins (read : String → Except Fault α) (node : δ) (path : Path) :
    Except Fault (NameMap α) :=
  if isNull node then .ok ∅
  else do
    let entries ← expectMapping node path
    let pins ← entries.mapM fun e => do
      let text ← expectString e.2 (path.key e.1)
      let pin ← read text
      return (e.1, pin)
    return .ofList pins

def interfaces (read : String → Except Fault α) (make : NameMap α → β) (node : δ)
    (path : Path) : Except Fault (NameMap β) :=
  match present? node "interfaces" with
  | none => .ok ∅
  | some part => do
    let path := path.key "interfaces"
    let entries ← expectMapping part path
    let interfaces ← entries.mapM fun e => do
      let pins ← pins read e.2 (path.key e.1)
      return (e.1, make pins)
    return .ofList interfaces

/-- The interface names that a leaf lists as required. Items that are no strings do not count. -/
def requiredNames (node : δ) (path : Path) : Except Fault (List String) :=
  match present? node "required" with
  | none => .ok []
  | some names =>
    (expectSequence names (path.key "required")).map fun items => items.filterMap string?

/-- Marks an interface as required. One that was not declared is made, without pins. -/
def requireInterface (interfaces : NameMap LeafInterface) (name : String) :
    NameMap LeafInterface :=
  interfaces.insert name { (interfaces.get? name).getD {} with required := true }

def leaf (node : δ) (path : Path) : Except Fault Leaf := do
  let type ← typeName? node path
  let configuration ← configuration node path
  let interfaces ← interfaces Pin.ofSpec (fun pins => { pins }) node path
  let required ← requiredNames node path
  return ⟨type.getD {}, configuration, required.foldl requireInterface interfaces⟩

def binding (node : δ) (path : Path) : Except Fault Binding :=
  match items? node with
  | some [left, right] => do
    let left ← expectString left (path.index 0)
    let right ← expectString right (path.index 1)
    Binding.ofTexts left right
  | _ => .error ⟨.notAPair (describe node), none⟩

def bindings (node : δ) (path : Path) : Except Fault (List Binding) :=
  match present? node "bindings" with
  | none => .ok []
  | some part => do
    let path := path.key "bindings"
    let items ← expectSequence part path
    items.zipIdx.mapM fun item => binding item.1 (path.index item.2)

mutual

def component (node : δ) (path : Path) : Except Fault Component :=
  if isNull node then .ok (.leaf {})
  else do
    let _ ← expectMapping node path
    if (present? node "components").isSome then
      let c ← composite node path
      return .composite c
    else
      let c ← leaf node path
      return .leaf c
termination_by 2 * size node + 2

def composite (node : δ) (path : Path) : Except Fault Composite := do
  let _ ← expectMapping node path
  let type ← typeName? node path
  let configuration ← configuration node path
  let components ← components node path
  let interfaces ← interfaces PinBinding.ofText (fun pins => { pins }) node path
  let bindings ← bindings node path
  return ⟨type.getD .composite, configuration, components, interfaces, bindings⟩
termination_by 2 * size node + 1

def components (node : δ) (path : Path) : Except Fault (NameMap Component) :=
  match _h : present? node "components" with
  | none => .ok ∅
  | some part =>
    let path := path.key "components"
    match _he : expectMapping part path with
    | .error e => .error e
    | .ok entries => do
      let components ← entries.attach.mapM fun e => do
        let c ← component e.1.2 (path.key e.1.1)
        return (e.1.1, c)
      return .ofList components
termination_by 2 * size node
decreasing_by
  have := size_of_present? _h
  have := size_of_entries? (expect_eq_ok_iff.mp _he) _ e.2
  omega

end

/-- The application that a document describes. Without a description it is the empty one, and
its root is always a plain composite. -/
def decode (document : δ) : Except Fault Application :=
  if isNull document then .ok .empty
  else do
    let _ ← expectMapping document .root
    match present? document "application" with
    | none => return .empty
    | some application =>
      let root ← composite application (Path.root.key "application")
      return ⟨{ root with type := .composite }⟩

end ComponentGraph.Manifest
