import ComponentGraph.Proofs.Manifest.Lookup

/-!
# Required interfaces

The interfaces of a leaf are those that it declares and those that it lists as required. The list
sets the flags and touches no pins, and the declarations set the pins and touch no flags; so of the
list nothing counts but which names are in it.
-/

set_option autoImplicit false

namespace ComponentGraph

namespace Manifest

open Document SortedEntries

variable {δ : Type} [Document δ]

/-- The name is an item of the list of required interfaces. -/
def Requires (d : δ) (name : String) : Prop :=
  ∃ part items, present? d "required" = some part ∧ items? part = some items ∧
    ∃ item ∈ items, string? item = some name

/-- The spec of a pin: the last entry with its name in the last interface with the other name. -/
def specNode? (d : δ) (interface pin : String) : Option δ :=
  (named? d "interfaces" interface).bind fun pins => last? pins pin

/-- The pins of the interface with this name, each read from its spec. -/
structure PinsOf (d : δ) (name : String) (pins : NameMap Pin) : Prop where
  named : ∀ pin, (∃ p, pins.get? pin = some p) ↔ ∃ node, specNode? d name pin = some node
  value : ∀ pin p, pins.get? pin = some p ↔ ∃ node text, specNode? d name pin = some node ∧
    string? node = some text ∧ Pin.ofSpec text = .ok p

/-- The other node has the same sections but for the list of required interfaces, and there it has
the same names, in any order and number and among any other items. -/
structure SameButListed (d d' : δ) : Prop where
  mapping : IsMapping d'
  sections : ∀ key ∈ ["type", "configuration", "components", "interfaces"],
    present? d' key = present? d key
  list : Section d' "required" IsSequence
  listed : ∀ name, Requires d' name ↔ Requires d name

/-- The interfaces of the leaf are those of the node. -/
structure InterfacesExact (d : δ) (l : Leaf) : Prop where
  named : ∀ name, (∃ i, l.interfaces.get? name = some i) ↔
    (∃ node, named? d "interfaces" name = some node) ∨ Requires d name
  required : ∀ name i, l.interfaces.get? name = some i → (i.required = true ↔ Requires d name)
  pins : ∀ name i, l.interfaces.get? name = some i → PinsOf d name i.pins
  unordered : ∀ d', SameButListed d d' → ∀ path, component d' path = .ok (.leaf l)

theorem mem_requiredNames_iff {d : δ} {path : Path} {names : List String}
    (h : requiredNames d path = .ok names) {name : String} : name ∈ names ↔ Requires d name := by
  unfold requiredNames at h
  unfold Requires
  cases hpart : present? d "required" with
  | none =>
    rw [hpart] at h
    cases h
    simp
  | some part =>
    rw [hpart] at h
    obtain ⟨items, hitems, rfl⟩ := map_eq_ok_iff.mp h
    rw [expect_eq_ok_iff] at hitems
    simp [hitems]

/-- Only the names in the list count. -/
theorem foldl_requireInterface_congr {names names' : List String}
    (h : ∀ name, name ∈ names' ↔ name ∈ names) (is : NameMap LeafInterface) :
    names'.foldl requireInterface is = names.foldl requireInterface is := by
  apply ext
  intro name
  simp only [get?_foldl_requireInterface, h]

theorem leaf_of_isNull {d : δ} (h : isNull d = true) (path : Path) : leaf d path = .ok {} := by
  simp only [leaf, typeName?, configuration, interfaces, requiredNames, present?_of_isNull h]
  rfl

theorem leaf_of_component {d : δ} {path : Path} {l : Leaf}
    (h : component d path = .ok (.leaf l)) :
    leaf d path = .ok l ∧ present? d "components" = none := by
  rcases component_cases h with ⟨g, -, hg, -⟩ | ⟨l', ⟨hnull, rfl⟩ | hl, heq, hpart⟩
  · cases hg
  · cases heq
    exact ⟨leaf_of_isNull hnull path, hpart⟩
  · cases heq
    exact ⟨hl, hpart⟩

theorem pinsOf_of_rel {d : δ} {name : String} {pins : NameMap Pin}
    (h : ∀ pin, Option.Rel (ReadFrom Pin.ofSpec) (specNode? d name pin) (pins.get? pin)) :
    PinsOf d name pins where
  named pin := exists_eq_some_iff_of_rel (h pin)
  value pin p := by
    rw [eq_some_iff_of_rel readFrom_unique (h pin) p]
    simp only [ReadFrom, exists_and_left]

/-- What is declared has its pins and no flag. What is not declared has neither. -/
theorem interfaces_declared {d : δ} {path : Path} {is : NameMap LeafInterface}
    (h : interfaces Pin.ofSpec (fun pins => { pins }) d path = .ok is) (name : String) :
    ((∃ i, is.get? name = some i) ↔ ∃ node, named? d "interfaces" name = some node) ∧
    ((is.get? name).getD {}).required = false ∧
      PinsOf d name ((is.get? name).getD {}).pins := by
  have hrel := rel_interfaces h name
  have hspec : ∀ pin, specNode? d name pin =
      (named? d "interfaces" name).bind fun pins => last? pins pin := fun _ => rfl
  generalize named? d "interfaces" name = node?, is.get? name = i? at hrel hspec
  cases hrel with
  | none =>
    refine ⟨iff_of_false nofun nofun, rfl, pinsOf_of_rel fun pin => ?_⟩
    rw [hspec]
    exact .none
  | some hi =>
    obtain ⟨path, ps, hps, rfl⟩ := hi
    refine ⟨iff_of_true ⟨_, rfl⟩ ⟨_, rfl⟩, rfl, pinsOf_of_rel fun pin => ?_⟩
    rw [hspec]
    exact rel_pins hps pin

theorem SameButListed.component {d d' : δ} (h : SameButListed d d') {path : Path} {l : Leaf}
    (hl : component d path = .ok (.leaf l)) : component d' path = .ok (.leaf l) := by
  obtain ⟨hleaf, hpart⟩ := leaf_of_component hl
  obtain ⟨htype, hconfiguration, is, his, names, hnames, hinterfaces⟩ := leaf_eq_ok_iff.mp hleaf
  obtain ⟨names', hnames'⟩ : Succeeds (requiredNames d' path) := succeeds_requiredNames.mpr h.list
  have hsame : ∀ name, name ∈ names' ↔ name ∈ names := fun name => by
    rw [mem_requiredNames_iff hnames', mem_requiredNames_iff hnames, h.listed]
  refine component_of_leaf h.mapping ((h.sections _ (by decide)).trans hpart) ?_
  refine leaf_eq_ok_iff.mpr ⟨?_, ?_, is, ?_, names', hnames', ?_⟩
  · rwa [typeName?, h.sections _ (by decide)]
  · rwa [Manifest.configuration, h.sections _ (by decide)]
  · rwa [interfaces, h.sections _ (by decide)]
  · rw [foldl_requireInterface_congr hsame, hinterfaces]

/-- A leaf has an interface if it declares or requires it, requires what it lists and nothing else,
and has the pins that it declares. How the required interfaces are listed makes no difference. -/
theorem interfacesExact_of_component {d : δ} {path : Path} {l : Leaf}
    (h : component d path = .ok (.leaf l)) : InterfacesExact d l := by
  obtain ⟨-, -, is, his, names, hnames, hinterfaces⟩ := leaf_eq_ok_iff.mp (leaf_of_component h).1
  have hget : ∀ name, l.interfaces.get? name =
      if name ∈ names then some { (is.get? name).getD {} with required := true }
      else is.get? name := fun name => by
    rw [← hinterfaces, get?_foldl_requireInterface]
  refine ⟨fun name => ?_, fun name i hi => ?_, fun name i hi => ?_, fun d' hd' path' => ?_⟩
  · rw [hget, ← mem_requiredNames_iff hnames, ← (interfaces_declared his name).1]
    by_cases hmem : name ∈ names
    · simp [hmem]
    · simp [hmem]
  · rw [hget] at hi
    rw [← mem_requiredNames_iff hnames]
    obtain ⟨-, hflag, -⟩ := interfaces_declared his name
    split at hi
    · rename_i hmem
      cases hi
      exact iff_of_true rfl hmem
    · rename_i hmem
      rw [hi, Option.getD_some] at hflag
      exact iff_of_false (by simp [hflag]) hmem
  · rw [hget] at hi
    obtain ⟨-, -, hpins⟩ := interfaces_declared his name
    split at hi
    · cases hi
      exact hpins
    · rwa [hi, Option.getD_some] at hpins
  · exact decodes_of_ok (hd'.component h) path'

/-- `level` is required twice and declared twice, with one of its pins twice; `spare` is declared as
null, and `power` only required, with an item between that is no name. -/
def gauge : Yaml.Tree := .mapping
  [(.string "required", .sequence [.string "level", .number (.integer 3 (by decide) (by decide)),
    .string "power", .string "level"]),
  (.string "interfaces", .mapping
    [(.string "level", .mapping [(.string "old", .string "send-command()")]),
    (.tagged "late" (.string "level"), .mapping
      [(.string "reset", .string "send-command()"), (.string "adjust", .string "send-command()"),
        (.string "reset", .string "receive-command(now)")]),
    (.string "spare", .null)])]

def gaugePins : NameMap Pin := .ofList
  [("adjust", ⟨.sends, .emptyCommand⟩), ("reset", ⟨.receives, .emptyCommand⟩)]

def gaugeLeaf : Leaf where
  interfaces := .ofList [("level", { pins := gaugePins, required := true }),
    ("power", { required := true }), ("spare", {})]

theorem interfacesExact_of_component_gauge :
    component gauge .root = .ok (.leaf gaugeLeaf) ∧ InterfacesExact gauge gaugeLeaf := by
  have hgauge : component gauge .root = .ok (.leaf gaugeLeaf) := by cbv
  exact ⟨hgauge, interfacesExact_of_component hgauge⟩

end Manifest

end ComponentGraph
