import ComponentGraph.Proofs.Manifest.Lookup

/-!
# The wiring of a composite

A composite has one binding for each item of its list, in the order of the list, and hands on the
pins that its interfaces name. Neither has anything else: no binding is left out or joined with
another one, and a pin that is named again is read from its last text alone.
-/

set_option autoImplicit false

namespace ComponentGraph

/-- The pin of a child that the composite hands on under the name of one of its interfaces and the
name of a pin. -/
def Composite.handedOn? (c : Composite) (interface pin : String) : Option PinBinding :=
  (c.interfaces.get? interface).bind fun i => i.pins.get? pin

namespace Manifest

open Document

variable {δ : Type} [Document δ]

/-- The node is a pair of texts, and the sides of the binding are read from them in this order. -/
def Connects (node : δ) (b : Binding) : Prop :=
  ∃ left right text text', items? node = some [left, right] ∧
    string? left = some text ∧ string? right = some text' ∧
    BindingTarget.ofText text = .ok b.left ∧ BindingTarget.ofText text' = .ok b.right

/-- The bindings and the interfaces of the composite are those of the node. -/
structure Wired (d : δ) (c : Composite) : Prop where
  bindings : ∃ nodes, bindingNodes? d = some nodes ∧ c.bindings.length = nodes.length ∧
    ∀ i (hi : i < nodes.length) (hi' : i < c.bindings.length), Connects nodes[i] c.bindings[i]
  declared : ∀ interface, (∃ i, c.interfaces.get? interface = some i) ↔
    ∃ pins, named? d "interfaces" interface = some pins
  null : ∀ interface pins, named? d "interfaces" interface = some pins → isNull pins = true →
    c.interfaces.get? interface = some {}
  named : ∀ interface pin, (∃ b, c.handedOn? interface pin = some b) ↔
    ∃ pins node, named? d "interfaces" interface = some pins ∧ last? pins pin = some node
  value : ∀ interface pin b, c.handedOn? interface pin = some b ↔
    ∃ pins node text, named? d "interfaces" interface = some pins ∧ last? pins pin = some node ∧
      string? node = some text ∧ PinBinding.ofText text = .ok b

theorem connects_of_bindings {d : δ} {path : Path} {bs : List Binding}
    (h : bindings d path = .ok bs) :
    ∃ nodes, bindingNodes? d = some nodes ∧ List.Forall₂ Connects nodes bs := by
  obtain ⟨nodes, hnodes, hall⟩ := bindings_forall₂ h
  refine ⟨nodes, hnodes, hall.imp ?_⟩
  rintro node b ⟨path, hb⟩
  exact binding_eq_ok_iff.mp hb

theorem rel_handedOn? {d : δ} {path : Path} {c : Composite}
    (h : interfaces PinBinding.ofText (fun pins => { pins }) d path = .ok c.interfaces)
    (interface pin : String) :
    Option.Rel (ReadFrom PinBinding.ofText)
      ((named? d "interfaces" interface).bind fun pins => last? pins pin)
      (c.handedOn? interface pin) := by
  refine rel_bind (rel_interfaces h interface) ?_
  rintro node _ ⟨path, ps, hps, rfl⟩
  exact rel_pins hps pin

theorem pins_of_isNull {α : Type} {read : String → Except Fault α} {d : δ}
    (h : isNull d = true) (path : Path) : pins read d path = .ok ∅ := by
  rw [pins, if_pos h]

theorem wired_of_composite {d : δ} {path : Path} {c : Composite} (h : composite d path = .ok c) :
    Wired d c := by
  obtain ⟨-, -, -, -, hinterfaces, hbindings⟩ := composite_eq_ok_iff.mp h
  have hdeclared := rel_interfaces hinterfaces
  have hpins := rel_handedOn? hinterfaces
  refine ⟨?_, fun interface => exists_eq_some_iff_of_rel (hdeclared interface), ?_, ?_, ?_⟩
  · obtain ⟨nodes, hnodes, hall⟩ := connects_of_bindings hbindings
    exact ⟨nodes, hnodes, hall.length_eq.symm, fun i hi hi' => hall.get hi hi'⟩
  · intro interface pins hnode hnull
    have hrel := hdeclared interface
    rw [hnode] at hrel
    generalize c.interfaces.get? interface = found at hrel
    cases hrel with
    | some hfound =>
      obtain ⟨path, ps, hps, rfl⟩ := hfound
      rw [pins_of_isNull hnull] at hps
      cases hps
      rfl
  · intro interface pin
    rw [exists_eq_some_iff_of_rel (hpins interface pin), exists_comm]
    simp only [Option.bind_eq_some_iff]
  · intro interface pin b
    rw [eq_some_iff_of_rel readFrom_unique (hpins interface pin) b]
    simp only [Option.bind_eq_some_iff, ReadFrom]
    constructor
    · rintro ⟨node, ⟨pins, hp, hn⟩, text, htext, hb⟩
      exact ⟨pins, node, text, hp, hn, htext, hb⟩
    · rintro ⟨pins, node, text, hp, hn, htext, hb⟩
      exact ⟨node, ⟨pins, hp, hn⟩, text, htext, hb⟩

theorem Wired.withType {d : δ} {c : Composite} (h : Wired d c) (type : TypeName) :
    Wired d { c with type } := ⟨h.bindings, h.declared, h.null, h.named, h.value⟩

/-- The composite that is reached from the root of a decoded application along names is wired like
the node that is reached along these names; without any name it is the root. -/
theorem wired_of_descend {document application : δ} {app : Application}
    (hdecode : decode document = .ok app)
    (hpresent : present? document "application" = some application) {names : List String}
    {c : Composite} (h : (Component.composite app.root).descend names = some (.composite c)) :
    ∃ node, walk application names = some node ∧ Wired node c := by
  cases names with
  | nil =>
    obtain rfl : app.root = c := Component.composite.inj (Option.some.inj h)
    rcases decode_cases hdecode with ⟨-, hnone⟩ | ⟨node, g, hnode, hg, rfl⟩
    · cases hpresent.symm.trans hnone
    · obtain rfl := Option.some.inj (hpresent.symm.trans hnode)
      exact ⟨application, rfl, (wired_of_composite hg).withType _⟩
  | cons name names =>
    have hfind : app.find? ⟨name :: names⟩ = some (.composite c) := h
    have hrel := rel_find? hdecode hpresent name names
    rw [hfind] at hrel
    obtain ⟨node, hnode, hdecodes⟩ := exists_of_rel_some hrel
    rcases component_cases (hdecodes .root) with ⟨g, hg, hc, -⟩ | ⟨l, -, hc, -⟩
    · obtain rfl := Component.composite.inj hc
      exact ⟨node, hnode, wired_of_composite hg⟩
    · cases hc

/-- A composite keeps the bindings and the pins that it hands on. This holds of any node that is
decoded as one, and at every depth of an application, the root included. -/
theorem composite_wired :
    (∀ (node : δ) path c, composite node path = .ok c → Wired node c) ∧
    ∀ (document application : δ) app, decode document = .ok app →
      get? document "application" = some application → isNull application = false →
      ∀ names c, (Component.composite app.root).descend names = some (.composite c) →
        ∃ node, walk application names = some node ∧ Wired node c := by
  refine ⟨fun node path c => wired_of_composite, ?_⟩
  intro document application app hdecode happlication hnull names c
  have hpresent : present? document "application" = some application :=
    Option.filter_eq_some_iff.mpr ⟨happlication, by simpa using hnull⟩
  exact wired_of_descend hdecode hpresent

/-- A group with the same binding twice. The interface `out` and its pin `level` come twice, with an
entry between that has no name, and `spare` is null. -/
def yard : Yaml.Tree := .mapping [(.string "components", .mapping [(.string "group", .mapping
  [(.string "components", .mapping [(.string "tank", .null)]),
    (.string "interfaces", .mapping
      [(.string "out", .mapping [(.string "old", .string "tank#gauge.old")]),
        (.tagged "late" (.string "out"), .mapping [(.string "level", .string "tank#gauge.low"),
          (.bool true, .string "tank#gauge.none"), (.string "level", .string "tank#gauge.high")]),
        (.string "spare", .null)]),
    (.string "bindings", .sequence [.sequence [.string "tank#gauge", .string "valve"],
      .sequence [.string "tank#gauge", .string "valve"]])])])]

def yardGroup : Composite :=
  { (∅ : Composite) with
    components := .ofList [("tank", .leaf {})]
    interfaces := .ofList
      [("out", { pins := .ofList [("level", ⟨"tank", "gauge", "high"⟩)] }), ("spare", {})]
    bindings := [⟨⟨⟨["tank"]⟩, some "gauge"⟩, ⟨⟨["valve"]⟩, none⟩⟩,
      ⟨⟨⟨["tank"]⟩, some "gauge"⟩, ⟨⟨["valve"]⟩, none⟩⟩] }

theorem composite_wired_yard :
    ∃ app, decode (.mapping [(.string "application", yard)] : Yaml.Tree) = .ok app ∧
      composite yard .root = .ok app.root ∧ Wired yard app.root ∧
      app.find? ⟨["group"]⟩ = some (.composite yardGroup) ∧
      ∃ node, walk yard ["group"] = some node ∧ Wired node yardGroup := by
  have hdecode : decode (.mapping [(.string "application", yard)] : Yaml.Tree) =
      .ok ⟨{ (∅ : Composite) with
        components := .ofList [("group", .composite yardGroup)] }⟩ := by cbv
  have hyard : composite yard .root = .ok
      { (∅ : Composite) with components := .ofList [("group", .composite yardGroup)] } := by cbv
  obtain ⟨hnode, happlication⟩ := composite_wired (δ := Yaml.Tree)
  refine ⟨_, hdecode, hyard, hnode yard _ _ hyard, rfl, ?_⟩
  exact happlication _ yard _ hdecode rfl rfl ["group"] yardGroup rfl

end Manifest

end ComponentGraph
