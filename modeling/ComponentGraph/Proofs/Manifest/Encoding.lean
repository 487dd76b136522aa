import ComponentGraph.Proofs.Binding
import ComponentGraph.Proofs.Component
import ComponentGraph.Proofs.Manifest.Decoded
import ComponentGraph.Proofs.Pin
import ComponentGraph.Proofs.Yaml.Tree

/-!
# Applications as documents

The document of an application has every section of every component, empty ones too: a composite
without components would be a leaf if its section were left out. It decodes to the application as
long as the pins and bindings have texts.
-/

set_option autoImplicit false

namespace ComponentGraph

/-- All pins and bindings in the component have texts. -/
def Component.Expressible : Component → Prop :=
  Component.Each (Leaf.EachPin Pin.Expressible)
    (Composite.EachText PinBinding.Expressible BindingTarget.Expressible)

def Composite.Expressible : Composite → Prop :=
  Composite.Each (Leaf.EachPin Pin.Expressible)
    (Composite.EachText PinBinding.Expressible BindingTarget.Expressible)

namespace Manifest

open Document Yaml Yaml.Tree

variable {α β : Type}

def encodeInterfaces (text : α → String) (pinsOf : β → NameMap α) (is : NameMap β) : Tree :=
  ofMap (fun i => ofMap (fun p => .string (text p)) (pinsOf i)) is

def encodeBinding (b : Binding) : Tree := .sequence [.string b.left.text, .string b.right.text]

def required (is : NameMap LeafInterface) : List String :=
  (is.toList.filter fun e => e.2.required).map Prod.fst

def encodeLeaf (l : Leaf) : Tree := object
  [("type", .string l.type.text), ("configuration", ofMap ofConfig l.configuration),
    ("interfaces", encodeInterfaces Pin.spec LeafInterface.pins l.interfaces),
    ("required", .sequence ((required l.interfaces).map .string))]

mutual

def encodeComponent : Component → Tree
  | .leaf l => encodeLeaf l
  | .composite c => encodeComposite c

def encodeComposite : Composite → Tree
  | ⟨type, configuration, components, interfaces, bindings⟩ => object
    [("type", .string type.text), ("configuration", ofMap ofConfig configuration),
      ("components", object (encodeChildren components)),
      ("interfaces", encodeInterfaces PinBinding.text CompositeInterface.pins interfaces),
      ("bindings", .sequence (bindings.map encodeBinding))]

def encodeChildren {low : Option String} : SortedEntries Component low → List (String × Tree)
  | .nil => []
  | .cons name _ c rest => (name, encodeComponent c) :: encodeChildren rest

end

theorem encodeChildren_eq {low : Option String} (m : SortedEntries Component low) :
    encodeChildren m = m.toList.map fun e => (e.1, encodeComponent e.2) := by
  induction m with
  | nil => rfl
  | cons name _ c rest ih => rw [encodeChildren, ih, SortedEntries.toList, List.map_cons]

theorem encodeComposite_eq (c : Composite) : encodeComposite c = object
    [("type", .string c.type.text), ("configuration", ofMap ofConfig c.configuration),
      ("components", ofMap encodeComponent c.components),
      ("interfaces", encodeInterfaces PinBinding.text CompositeInterface.pins c.interfaces),
      ("bindings", .sequence (c.bindings.map encodeBinding))] := by
  cases c
  rw [encodeComposite, encodeChildren_eq]
  rfl

theorem mapping_ofMap {m : NameMap α} {encode : α → Tree}
    {f : String × Tree → Except Fault (String × β)} {g : α → β}
    (h : ∀ name a, m.get? name = some a → f (name, encode a) = .ok (name, g a)) (path : Path) :
    (do
      let entries ← expectMapping (ofMap encode m) path
      let values ← entries.mapM f
      return SortedEntries.ofList values) = .ok (m.mapValues g) := by
  simp only [bind_eq_ok_iff, pure_eq_ok_iff, expect_eq_ok_iff]
  refine ⟨_, entries?_object _, m.toList.map fun e => (e.1, g e.2), ?_, rfl⟩
  rw [List.mapM_map]
  apply mapM_eq_ok_map
  exact SortedEntries.forall_get?_iff.mp h

theorem configuration_ofMap {d : Tree} {m : Configuration}
    (hpart : present? d "configuration" = some (ofMap ofConfig m)) (path : Path) :
    configuration d path = .ok m := by
  have hcopy : (m.toList.map fun e => (e.1, ofConfig e.2)).map
      (fun e => (e.1, Document.copy e.2)) = m.toList := by
    rw [List.map_map]
    refine List.map_id'' ?_ _
    intro e
    exact Prod.ext rfl (copy_ofConfig e.2)
  rw [configuration, hpart]
  refine map_eq_ok_iff.mpr ⟨_, expect_eq_ok_iff.mpr (entries?_object _), ?_⟩
  exact SortedEntries.ofList_of_perm (.of_eq hcopy)

theorem pins_ofMap {read : String → Except Fault α} {text : α → String} {ps : NameMap α}
    (h : ∀ name p, ps.get? name = some p → read (text p) = .ok p) (path : Path) :
    pins read (ofMap (fun p => .string (text p)) ps) path = .ok ps := by
  have hnull : ¬ isNull (ofMap (fun p => Tree.string (text p)) ps) = true := nofun
  rw [pins, if_neg hnull, mapping_ofMap (g := id) ?_, SortedEntries.mapValues_id]
  intro name p hp
  simp only [bind_eq_ok_iff, pure_eq_ok_iff, expect_eq_ok_iff]
  exact ⟨text p, rfl, p, h name p hp, rfl⟩

theorem interfaces_encodeInterfaces {read : String → Except Fault α} {make : NameMap α → β}
    {text : α → String} {pinsOf : β → NameMap α} {d : Tree} {is : NameMap β}
    (hpart : present? d "interfaces" = some (encodeInterfaces text pinsOf is))
    (h : ∀ name i, is.get? name = some i → ∀ pin p, (pinsOf i).get? pin = some p →
      read (text p) = .ok p) (path : Path) :
    interfaces read make d path = .ok (is.mapValues fun i => make (pinsOf i)) := by
  rw [interfaces, hpart]
  apply mapping_ofMap
  intro name i hi
  exact bind_eq_ok_iff.mpr ⟨pinsOf i, pins_ofMap (h name i hi) _, rfl⟩

theorem mem_required_iff {is : NameMap LeafInterface} {name : String} :
    name ∈ required is ↔ ∃ i, is.get? name = some i ∧ i.required = true := by
  simp [required, SortedEntries.mem_toList_iff]

theorem foldl_required (is : NameMap LeafInterface) :
    (required is).foldl requireInterface (is.mapValues fun i => { pins := i.pins }) = is := by
  apply SortedEntries.ext
  intro name
  simp only [get?_foldl_requireInterface, SortedEntries.get?_mapValues, mem_required_iff]
  -- Decoding the pins alone loses the flag; the list of names sets it where it was set.
  cases is.get? name with
  | none => simp
  | some i =>
    obtain ⟨pins, required⟩ := i
    cases required <;> simp

theorem requiredNames_of_present {d : Tree} {names : List String}
    (hpart : present? d "required" = some (.sequence (names.map .string))) (path : Path) :
    requiredNames d path = .ok names := by
  have hnames : (names.map Tree.string).filterMap Document.string? = names := by
    rw [List.filterMap_map]
    exact List.filterMap_some
  rw [requiredNames, hpart]
  exact map_eq_ok_iff.mpr ⟨_, rfl, hnames⟩

theorem leaf_encodeLeaf {l : Leaf} (h : l.EachPin Pin.Expressible) (path : Path) :
    leaf (encodeLeaf l) path = .ok l := by
  have hinterfaces : interfaces Pin.ofSpec (fun pins => { pins }) (encodeLeaf l) path =
      .ok (l.interfaces.mapValues fun i => ({ pins := i.pins } : LeafInterface)) := by
    apply interfaces_encodeInterfaces rfl
    intro name i hi pin p hp
    exact (h name i hi pin p hp).ofSpec_spec
  exact leaf_eq_ok_iff.mpr ⟨⟨some l.type, rfl, rfl⟩, configuration_ofMap rfl path, _, hinterfaces,
    required l.interfaces, requiredNames_of_present rfl path, foldl_required l.interfaces⟩

theorem binding_encodeBinding {b : Binding} (hleft : b.left.Readable) (hright : b.right.Readable)
    (path : Path) : binding (encodeBinding b) path = .ok b :=
  binding_eq_ok_iff.mpr ⟨_, _, b.left.text, b.right.text, rfl, rfl, rfl, hleft, hright⟩

theorem bindings_encodeBinding {d : Tree} {bs : List Binding}
    (hpart : present? d "bindings" = some (.sequence (bs.map encodeBinding)))
    (h : ∀ b ∈ bs, b.left.Readable ∧ b.right.Readable) (path : Path) :
    bindings d path = .ok bs := by
  rw [bindings, hpart]
  refine bind_eq_ok_iff.mpr ⟨bs.map encodeBinding, rfl, ?_⟩
  rw [List.zipIdx_map, List.mapM_map]
  have hall : ∀ x ∈ bs.zipIdx, binding (encodeBinding x.1) ((path.key "bindings").index x.2) =
      .ok x.1 := by
    intro x hx
    have hx := h x.1 (List.fst_mem_of_mem_zipIdx hx)
    exact binding_encodeBinding hx.1 hx.2 _
  exact (mapM_eq_ok_map hall).trans (congrArg Except.ok (List.zipIdx_map_fst 0 bs))

theorem components_ofMap {d : Tree} {m : NameMap Component}
    (hpart : present? d "components" = some (ofMap encodeComponent m))
    (h : ∀ name c, m.get? name = some c → ∀ path, component (encodeComponent c) path = .ok c)
    (path : Path) : components d path = .ok m := by
  rw [components_of_present hpart, mapping_ofMap (g := id) ?_, SortedEntries.mapValues_id]
  intro name c hc
  exact bind_eq_ok_iff.mpr ⟨c, h name c hc _, rfl⟩

mutual

theorem component_encodeComponent {c : Component} (h : c.Expressible) (path : Path) :
    component (encodeComponent c) path = .ok c := by
  cases h with
  | leaf hl => exact component_of_leaf ⟨_, entries?_object _⟩ rfl (leaf_encodeLeaf hl path)
  | @composite c hc =>
    -- The section of components is there even if it is empty.
    have hpart : (present? (encodeComposite c) "components").isSome = true := by
      rw [encodeComposite_eq]
      rfl
    exact component_of_composite hpart (composite_encodeComposite hc path)
termination_by sizeOf c

theorem composite_encodeComposite {c : Composite} (h : c.Expressible) (path : Path) :
    composite (encodeComposite c) path = .ok c := by
  obtain ⟨htext, hchildren⟩ := h
  rw [encodeComposite_eq]
  refine composite_eq_ok_iff.mpr ⟨⟨_, entries?_object _⟩, ⟨some c.type, rfl, rfl⟩,
    configuration_ofMap rfl path, components_ofMap rfl ?_ path, ?_,
    bindings_encodeBinding rfl ?_ path⟩
  · -- The recursion goes down with the size of the component, not with the derivation of `h`.
    intro name child hchild
    have := Composite.sizeOf_child_lt hchild
    exact component_encodeComponent (hchildren name child hchild)
  · rw [interfaces_encodeInterfaces rfl fun name i hi pin p hp =>
      (htext.pins name i hi pin p hp).readable]
    exact congrArg Except.ok (SortedEntries.mapValues_id _)
  · intro b hb
    obtain ⟨hleft, hright⟩ := htext.bindings b hb
    exact ⟨hleft.readable, hright.readable⟩
termination_by sizeOf c

end

theorem distinctKeys_encodeInterfaces (text : α → String) (pinsOf : β → NameMap α)
    (is : NameMap β) : (encodeInterfaces text pinsOf is).DistinctKeys :=
  distinctKeys_ofMap fun _ _ _ => distinctKeys_ofMap fun _ p _ => .string (text p)

theorem distinctKeys_ofConfiguration (m : Configuration) : (ofMap ofConfig m).DistinctKeys :=
  distinctKeys_ofMap fun _ v _ => distinctKeys_ofConfig v

theorem distinctKeys_encodeLeaf (l : Leaf) : (encodeLeaf l).DistinctKeys := by
  apply distinctKeys_object
  · simp
  · simp only [List.forall_mem_cons]
    refine ⟨.string _, distinctKeys_ofConfiguration _, distinctKeys_encodeInterfaces _ _ _,
      .sequence ?_, nofun⟩
    exact List.forall_mem_map.mpr fun name _ => .string name

theorem distinctKeys_encodeBinding (b : Binding) : (encodeBinding b).DistinctKeys := by
  apply DistinctKeys.sequence
  simp only [List.forall_mem_cons]
  exact ⟨.string _, .string _, nofun⟩

mutual

theorem distinctKeys_encodeComponent (c : Component) : (encodeComponent c).DistinctKeys := by
  cases c with
  | leaf l => exact distinctKeys_encodeLeaf l
  | composite c => exact distinctKeys_encodeComposite c
termination_by sizeOf c

theorem distinctKeys_encodeComposite (c : Composite) : (encodeComposite c).DistinctKeys := by
  rw [encodeComposite_eq]
  apply distinctKeys_object
  · simp
  · simp only [List.forall_mem_cons]
    refine ⟨.string _, distinctKeys_ofConfiguration _, distinctKeys_ofMap ?_,
      distinctKeys_encodeInterfaces _ _ _, .sequence ?_, nofun⟩
    · intro name child hchild
      have := Composite.sizeOf_child_lt hchild
      exact distinctKeys_encodeComponent child
    · exact List.forall_mem_map.mpr fun b _ => distinctKeys_encodeBinding b
termination_by sizeOf c

end

def encode (app : Application) : Tree := object [("application", encodeComposite app.root)]

theorem distinctKeys_encode (app : Application) : (encode app).DistinctKeys := by
  apply distinctKeys_object
  · simp
  · exact List.forall_mem_cons.mpr ⟨distinctKeys_encodeComposite app.root, nofun⟩

theorem decode_encode {app : Application} (htype : app.root.type = .composite)
    (h : app.root.Expressible) : decode (encode app) = .ok app := by
  have hpart : present? (encode app) "application" = some (encodeComposite app.root) := by
    rw [encode, encodeComposite_eq]
    rfl
  rw [decode_of_present hpart (composite_encodeComposite h _), ← htype]
  obtain ⟨⟨⟩⟩ := app
  rfl

/-- Every application whose pins and bindings have texts is described by a document, whatever its
names, types and configurations are. -/
theorem exists_decode_eq {app : Application} (htype : app.root.type = ⟨"core.Composite"⟩)
    (h : app.root.Expressible) :
    ∃ document : Tree, document.DistinctKeys ∧ decode document = .ok app :=
  ⟨encode app, distinctKeys_encode app, decode_encode htype h⟩

def samples : Pin := ⟨.sends, .signal (.ofFields [("at", .list .int)])⟩

/-- One interface is required and has no pins. -/
def tank : Leaf :=
  { interfaces := .ofList
      [("door", { required := true }), ("level", { pins := .ofList [("out", samples)] })] }

/-- The group has no components, and two keys of the rates are equal as numbers. -/
def emptyGroup : Application :=
  ⟨{ (∅ : Composite) with
    configuration := .ofList [("rates", .mapping [(.float 0.0, .null), (.float (-0.0), .int 7)])]
    components := .ofList [("group", .composite ∅), ("tank", .leaf tank)]
    interfaces := .ofList [("out", { pins := .ofList [("level", ⟨"tank", "level", "out"⟩)] })]
    bindings := [⟨⟨⟨["tank"]⟩, some ""⟩, ⟨⟨["group", ""]⟩, none⟩⟩] }⟩

theorem exists_decode_eq_emptyGroup :
    emptyGroup.root.type = ⟨"core.Composite"⟩ ∧ emptyGroup.root.Expressible ∧
      ∃ document : Tree, document.DistinctKeys ∧ decode document = .ok emptyGroup := by
  have hsamples : samples.Expressible := by
    refine .inl ⟨_, rfl, ⟨?_, trivial, trivial⟩, by decide⟩
    exact ⟨_, _, rfl, by decide, List.all_eq_true.mp (by decide)⟩
  have htank : tank.EachPin Pin.Expressible := by
    rw [Leaf.EachPin, SortedEntries.forall_get?_iff]
    refine List.forall_mem_cons.mpr ⟨nofun, List.forall_mem_cons.mpr ⟨?_, nofun⟩⟩
    exact SortedEntries.forall_get?_iff.mpr (List.forall_mem_cons.mpr ⟨hsamples, nofun⟩)
  have htexts : emptyGroup.root.EachText PinBinding.Expressible BindingTarget.Expressible := by
    constructor
    · rw [SortedEntries.forall_get?_iff]
      refine List.forall_mem_cons.mpr ⟨?_, nofun⟩
      rw [SortedEntries.forall_get?_iff]
      exact List.forall_mem_cons.mpr ⟨⟨by decide, by decide, by decide⟩, nofun⟩
    · exact List.forall_mem_cons.mpr
        ⟨⟨⟨by decide, by decide, by decide⟩, ⟨by decide, by decide, by decide⟩⟩, nofun⟩
  have hroot : emptyGroup.root.Expressible := by
    refine .intro htexts (SortedEntries.forall_get?_iff.mpr ?_)
    refine List.forall_mem_cons.mpr ⟨?_, List.forall_mem_cons.mpr ⟨.leaf htank, nofun⟩⟩
    exact .composite (.intro ⟨nofun, nofun⟩ nofun)
  exact ⟨rfl, hroot, exists_decode_eq rfl hroot⟩

end Manifest

end ComponentGraph
