import ComponentGraph.Proofs.Binding
import ComponentGraph.Proofs.Component
import ComponentGraph.Proofs.Manifest.Decoded
import ComponentGraph.Proofs.Pin
import ComponentGraph.Yaml.Tree

/-!
# Decoded applications can be written out

Everything in a decoded application that was a text has a text that gives it back: the types of
signals, both sides of bindings, and the pins that composites hand on. This holds at every depth.
-/

set_option autoImplicit false

namespace ComponentGraph

namespace Manifest

open Document

variable {δ α β : Type} [Document δ]

theorem size_of_child? {d child : δ} {name : String} (h : child? d name = some child) :
    size child < size d := by
  obtain ⟨part, hpart, hlast⟩ := Option.bind_eq_some_iff.mp h
  obtain ⟨entries, hentries, hnamed⟩ := Option.bind_eq_some_iff.mp hlast
  have hchild := size_of_entries? hentries _ (SortedEntries.mem_of_lastNamed? hnamed)
  exact Nat.lt_trans hchild (size_of_present? hpart)

section Each

variable {P : Leaf → Prop} {Q : Composite → Prop}
  (hempty : P {}) (hleaf : ∀ (d : δ) path l, leaf d path = .ok l → P l)
  (hcomposite : ∀ (d : δ) path c, composite d path = .ok c → Q c)

include hempty hleaf hcomposite

/-- What holds of every leaf and of every composite when it is decoded holds at every depth. -/
theorem each_of_composite (d : δ) {path : Path} {c : Composite} (h : composite d path = .ok c) :
    c.Each P Q := by
  obtain ⟨-, -, -, hcomponents, -, -⟩ := composite_eq_ok_iff.mp h
  refine .intro (hcomposite d path c h) ?_
  -- A child of the composite comes from a node inside this one.
  intro name child hchild
  have hrel := rel_components hcomponents name
  rw [hchild] at hrel
  obtain ⟨node, hnode, path, hdecoded⟩ := exists_of_rel_some hrel
  have := size_of_child? hnode
  rcases component_cases hdecoded with ⟨g, hg, rfl, -⟩ | ⟨l, ⟨-, rfl⟩ | hl, rfl, -⟩
  · exact .composite (each_of_composite node hg)
  · exact .leaf hempty
  · exact .leaf (hleaf node path l hl)
termination_by size d

end Each

theorem foldl_requireInterface_pins {P : Pin → Prop} (names : List String)
    {is : NameMap LeafInterface}
    (h : ∀ name i, is.get? name = some i → ∀ pin p, i.pins.get? pin = some p → P p) :
    ∀ name i, (names.foldl requireInterface is).get? name = some i →
      ∀ pin p, i.pins.get? pin = some p → P p := by
  intro name i hi
  rw [get?_foldl_requireInterface] at hi
  split at hi
  · cases hi
    cases hget : is.get? name with
    | none => intro pin p hp; cases hp
    | some i => exact h name i hget
  · exact h name i hi

theorem readable_of_interfaces {read : String → Except Fault α} {make : NameMap α → β}
    {pinsOf : β → NameMap α} (hmake : ∀ ps, pinsOf (make ps) = ps) {P : α → Prop}
    (hread : ∀ text a, read text = .ok a → P a) {d : δ} {path : Path} {m : NameMap β}
    (h : interfaces read make d path = .ok m) :
    ∀ name i, m.get? name = some i → ∀ pin p, (pinsOf i).get? pin = some p → P p := by
  intro name i hi pin p hp
  have hrel := rel_interfaces h name
  rw [hi] at hrel
  obtain ⟨node, -, path, ps, hps, rfl⟩ := exists_of_rel_some hrel
  have hrel := rel_pins hps pin
  rw [hmake] at hp
  rw [hp] at hrel
  obtain ⟨_, -, text, -, hread'⟩ := exists_of_rel_some hrel
  exact hread text p hread'

theorem readable_of_leaf {d : δ} {path : Path} {l : Leaf} (h : leaf d path = .ok l) :
    l.EachPin Pin.Readable := by
  obtain ⟨-, -, is, his, names, -, hnames⟩ := leaf_eq_ok_iff.mp h
  rw [Leaf.EachPin, ← hnames]
  exact foldl_requireInterface_pins names
    (readable_of_interfaces (fun _ => rfl) (fun _ _ => Pin.readable_of_ofSpec) his)

theorem readable_of_bindings {d : δ} {path : Path} {bs : List Binding}
    (h : bindings d path = .ok bs) :
    ∀ b ∈ bs, b.left.Readable ∧ b.right.Readable := by
  obtain ⟨items, -, hpairs⟩ := bindings_forall₂ h
  refine forall_mem_of_forall₂ ?_ hpairs
  rintro item b ⟨path, hb⟩
  obtain ⟨_, _, text, text', -, -, -, hleft, hright⟩ := binding_eq_ok_iff.mp hb
  exact ⟨BindingTarget.readable_of_ofText hleft, BindingTarget.readable_of_ofText hright⟩

theorem readable_of_composite {d : δ} {path : Path} {c : Composite}
    (h : composite d path = .ok c) :
    c.EachText PinBinding.Readable BindingTarget.Readable := by
  obtain ⟨-, -, -, -, hinterfaces, hbindings⟩ := composite_eq_ok_iff.mp h
  constructor
  · exact readable_of_interfaces (fun _ => rfl) (fun _ _ => PinBinding.readable_of_ofText)
      hinterfaces
  · exact readable_of_bindings hbindings

/-- Whatever the document says of its type, the root is a plain composite, and at every depth
every text of a decoded pin or binding reads back to it. -/
theorem decode_readable {document : δ} {app : Application} (h : decode document = .ok app) :
    app.root.type = ⟨"core.Composite"⟩ ∧
      app.root.Each (Leaf.EachPin Pin.Readable)
        (Composite.EachText PinBinding.Readable BindingTarget.Readable) := by
  rcases decode_cases h with ⟨rfl, -⟩ | ⟨node, g, -, hg, rfl⟩
  · exact ⟨rfl, .intro ⟨nofun, nofun⟩ nofun⟩
  · have heach := each_of_composite (P := Leaf.EachPin Pin.Readable) nofun
      (fun _ _ _ => readable_of_leaf) (fun _ _ _ => readable_of_composite) node hg
    obtain ⟨htext, hchildren⟩ := heach
    exact ⟨rfl, .intro ⟨htext.pins, htext.bindings⟩ hchildren⟩

/-- A group in a group, with a signal, a command, a pin that is handed on and a binding. -/
def plant : Yaml.Tree := .mapping [(.string "application", .mapping
  [(.string "type", .string "Plant"), (.string "components", .mapping [(.string "group", .mapping
    [(.string "components", .mapping [(.string "tank", .mapping [(.string "interfaces", .mapping
      [(.string "level", .mapping
        [(.string "samples", .string "publish-signal(record<list<int> at, bool ok>)"),
          (.string "reset", .string "receive-command(now)")])])])]),
    (.string "interfaces", .mapping [(.string "out", .mapping
      [(.string "level", .string "tank#level.samples")])]),
    (.string "bindings", .sequence [.sequence [.string "tank#level", .string "tank.gauge"]])])])])]

def plantPins : NameMap Pin := .ofList
  [("reset", ⟨.receives, .emptyCommand⟩),
    ("samples", ⟨.sends, .signal (.ofFields [("at", .list .int), ("ok", .bool)])⟩)]

def plantGroup : Composite :=
  { (∅ : Composite) with
    components := .ofList
      [("tank", .leaf { interfaces := .ofList [("level", { pins := plantPins })] })]
    interfaces := .ofList [("out", { pins := .ofList [("level", ⟨"tank", "level", "samples"⟩)] })]
    bindings := [⟨⟨⟨["tank"]⟩, some "level"⟩, ⟨⟨["tank", "gauge"]⟩, none⟩⟩] }

theorem decode_readable_plant :
    ∃ app, decode plant = .ok app ∧ app.find? ⟨["group"]⟩ = some (.composite plantGroup) ∧
      app.root.type = ⟨"core.Composite"⟩ ∧
      app.root.Each (Leaf.EachPin Pin.Readable)
        (Composite.EachText PinBinding.Readable BindingTarget.Readable) := by
  have hdecode : decode plant = .ok ⟨{ (∅ : Composite) with
      components := .ofList [("group", .composite plantGroup)] }⟩ := by
    with_unfolding_all rfl
  exact ⟨_, hdecode, rfl, decode_readable hdecode⟩

end Manifest

end ComponentGraph
