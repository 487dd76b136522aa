import ComponentGraph.Manifest
import ComponentGraph.Proofs.Succeeds

/-!
# Well-formed manifests

The shape that a document has to have for decoding to succeed. A section may be left out or be
null; of two entries with one key the first is the section, but all entries of a mapping of
components, interfaces or pins have to be well formed. What a well-formed document decodes to is
not said here.
-/

set_option autoImplicit false

namespace ComponentGraph

namespace Document

variable {δ α : Type} [Document δ]

def IsString (d : δ) : Prop := ∃ text, string? d = some text

def IsSequence (d : δ) : Prop := ∃ items, items? d = some items

def IsMapping (d : δ) : Prop := ∃ entries, entries? d = some entries

def SequenceOf (P : δ → Prop) (d : δ) : Prop := ∃ items, items? d = some items ∧ ∀ x ∈ items, P x

def PairOf (P : δ → Prop) (d : δ) : Prop := ∃ a b, items? d = some [a, b] ∧ P a ∧ P b

/-- A mapping with such values, as far as its keys are strings. -/
def MappingOf (P : δ → Prop) (d : δ) : Prop :=
  ∃ entries, entries? d = some entries ∧ ∀ e ∈ entries, P e.2

/-- A string that is read without an error. -/
def TextOf (read : String → Except Fault α) (d : δ) : Prop :=
  ∃ text, string? d = some text ∧ Succeeds (read text)

/-- The first entry with the key, if there is one, is null or as said. -/
def Section (d : δ) (key : String) (P : δ → Prop) : Prop :=
  ∀ v, get? d key = some v → isNull v = true ∨ P v

end Document

namespace Manifest

open Document

variable {δ α β : Type} [Document δ]

/-- Interfaces by their names, each null or a mapping of pins that are read from texts. -/
def InterfacesOf (read : String → Except Fault α) : δ → Prop :=
  MappingOf fun pins => isNull pins = true ∨ MappingOf (TextOf read) pins

structure LeafSections (d : δ) : Prop where
  type : Section d "type" IsString
  configuration : Section d "configuration" IsMapping
  interfaces : Section d "interfaces" (InterfacesOf Pin.ofSpec)
  required : Section d "required" IsSequence

structure CompositeSections (d : δ) : Prop where
  type : Section d "type" IsString
  configuration : Section d "configuration" IsMapping
  interfaces : Section d "interfaces" (InterfacesOf PinBinding.ofText)
  bindings : Section d "bindings" (SequenceOf (PairOf (TextOf BindingTarget.ofText)))

mutual

inductive WellFormedComponent : δ → Prop
  | null {d : δ} : isNull d = true → WellFormedComponent d
  | composite {d part : δ} :
    get? d "components" = some part → isNull part = false → WellFormedComposite d →
    WellFormedComponent d
  | leaf {d : δ} :
    IsMapping d → Section d "components" (fun _ => False) → LeafSections d →
    WellFormedComponent d

inductive WellFormedComposite : δ → Prop
  | intro {d : δ} :
    IsMapping d → CompositeSections d → Section d "components" IsMapping →
    (∀ part entries, get? d "components" = some part → entries? part = some entries →
      ∀ e ∈ entries, WellFormedComponent e.2) →
    WellFormedComposite d

end

/-- A document that is null, or a mapping whose application is a composite. -/
def WellFormed (d : δ) : Prop :=
  isNull d = true ∨ IsMapping d ∧ Section d "application" WellFormedComposite

theorem components_of_absent {d : δ} (h : present? d "components" = none) (path : Path) :
    components d path = .ok ∅ := by
  rw [components]
  split
  · rfl
  · rename_i part hpart
    cases h.symm.trans hpart

theorem components_of_present {d part : δ} (h : present? d "components" = some part)
    (path : Path) :
    components d path = (do
      let entries ← expectMapping part (path.key "components")
      let components ← entries.mapM fun e => do
        let c ← component e.2 ((path.key "components").key e.1)
        return (e.1, c)
      return .ofList components) := by
  rw [components]
  split
  · rename_i hpart
    cases h.symm.trans hpart
  · rename_i part' hpart
    obtain rfl := Option.some.inj (h.symm.trans hpart)
    dsimp only
    split
    · rename_i e he
      rw [he]
      rfl
    · rename_i entries hentries
      have hattach := mapM_attach (fun e : String × δ => do
        let c ← component e.2 ((path.key "components").key e.1)
        return (e.1, c)) entries
      rw [hentries, hattach]
      rfl

theorem section_iff {d : δ} {key : String} {P : δ → Prop} :
    Section d key P ↔ ∀ v, present? d key = some v → P v := by
  constructor
  · intro h v hv
    obtain ⟨hget, hnull⟩ := Option.filter_eq_some_iff.mp hv
    refine (h v hget).resolve_left ?_
    simpa using hnull
  · intro h v hget
    refine Classical.or_iff_not_imp_left.mpr fun hnull => h v ?_
    exact Option.filter_eq_some_iff.mpr ⟨hget, by simpa using hnull⟩

theorem succeeds_section {d : δ} {key : String} {a : α} {f : δ → Except Fault α} {P : δ → Prop}
    (h : ∀ v, Succeeds (f v) ↔ P v) :
    Succeeds (match present? d key with
      | none => .ok a
      | some v => f v) ↔ Section d key P := by
  rw [section_iff]
  cases present? d key with
  | none => simp
  | some v => simp [h]

theorem succeeds_expect {form : δ → Option α} {expected : Kind} {d : δ} {path : Path} :
    Succeeds (expect form expected d path) ↔ ∃ a, form d = some a :=
  exists_congr fun _ => expect_eq_ok_iff

theorem succeeds_expectMapping {d : δ} {path : Path} :
    Succeeds (expectMapping d path) ↔ IsMapping d := succeeds_expect

/-- What is done for each entry of a mapping has to succeed. -/
theorem succeeds_mapping {d : δ} {path : Path} {f : String × δ → Except Fault β}
    {make : List β → α} {P : δ → Prop} (h : ∀ e, Succeeds (f e) ↔ P e.2) :
    Succeeds (do
      let entries ← expectMapping d path
      let values ← entries.mapM f
      return make values) ↔ MappingOf P d := by
  rw [succeeds_bind]
  simp only [succeeds_bind_pure, expect_eq_ok_iff, succeeds_mapM, h]
  rfl

theorem succeeds_text {d : δ} {path : Path} {read : String → Except Fault β} {make : β → α} :
    Succeeds (do
      let text ← expectString d path
      let value ← read text
      return make value) ↔ TextOf read d := by
  rw [succeeds_bind]
  simp only [succeeds_bind_pure, expect_eq_ok_iff]
  rfl

theorem succeeds_typeName? {d : δ} {path : Path} :
    Succeeds (typeName? d path) ↔ Section d "type" IsString := by
  rw [typeName?]
  exact succeeds_section fun _ => succeeds_map.trans succeeds_expect

theorem succeeds_configuration {d : δ} {path : Path} :
    Succeeds (configuration d path) ↔ Section d "configuration" IsMapping := by
  rw [configuration]
  exact succeeds_section fun _ => succeeds_map.trans succeeds_expect

theorem succeeds_pins {read : String → Except Fault α} {d : δ} {path : Path} :
    Succeeds (pins read d path) ↔ isNull d = true ∨ MappingOf (TextOf read) d := by
  rw [pins]
  split
  · rename_i hnull
    simp [hnull]
  · rename_i hnull
    rw [succeeds_mapping fun e => succeeds_text, or_iff_right hnull]

theorem succeeds_interfaces {read : String → Except Fault α} {make : NameMap α → β} {d : δ}
    {path : Path} :
    Succeeds (interfaces read make d path) ↔ Section d "interfaces" (InterfacesOf read) := by
  rw [interfaces]
  refine succeeds_section fun v => ?_
  exact succeeds_mapping fun e => by rw [succeeds_bind_pure, succeeds_pins]

theorem succeeds_requiredNames {d : δ} {path : Path} :
    Succeeds (requiredNames d path) ↔ Section d "required" IsSequence := by
  rw [requiredNames]
  exact succeeds_section fun _ => succeeds_map.trans succeeds_expect

theorem succeeds_leaf {d : δ} {path : Path} : Succeeds (leaf d path) ↔ LeafSections d := by
  rw [leaf, succeeds_bind_iff fun _ => succeeds_bind_iff fun _ => succeeds_bind_iff fun _ =>
    succeeds_bind_pure, succeeds_typeName?, succeeds_configuration, succeeds_interfaces,
    succeeds_requiredNames]
  constructor
  · rintro ⟨htype, hconfiguration, hinterfaces, hrequired⟩
    exact ⟨htype, hconfiguration, hinterfaces, hrequired⟩
  · rintro ⟨htype, hconfiguration, hinterfaces, hrequired⟩
    exact ⟨htype, hconfiguration, hinterfaces, hrequired⟩

theorem succeeds_ofTexts {left right : String} :
    Succeeds (Binding.ofTexts left right) ↔
      Succeeds (BindingTarget.ofText left) ∧ Succeeds (BindingTarget.ofText right) := by
  rw [Binding.ofTexts, succeeds_bind_iff fun _ => succeeds_bind_pure]

theorem succeeds_binding {d : δ} {path : Path} :
    Succeeds (binding d path) ↔ PairOf (TextOf BindingTarget.ofText) d := by
  rw [binding, PairOf]
  split
  · rename_i left right hitems
    rw [succeeds_bind]
    simp only [succeeds_bind, expect_eq_ok_iff, succeeds_ofTexts, hitems]
    constructor
    · rintro ⟨text, htext, text', htext', hread, hread'⟩
      exact ⟨left, right, rfl, ⟨text, htext, hread⟩, text', htext', hread'⟩
    · rintro ⟨_, _, ⟨⟩, ⟨text, htext, hread⟩, text', htext', hread'⟩
      exact ⟨text, htext, text', htext', hread, hread'⟩
  · rename_i hitems
    refine iff_of_false (not_succeeds_error _) ?_
    rintro ⟨a, b, hab, -⟩
    exact hitems a b hab

theorem succeeds_bindings {d : δ} {path : Path} :
    Succeeds (bindings d path) ↔
      Section d "bindings" (SequenceOf (PairOf (TextOf BindingTarget.ofText))) := by
  rw [bindings]
  refine succeeds_section fun v => ?_
  rw [succeeds_bind, SequenceOf]
  refine exists_congr fun items => and_congr expect_eq_ok_iff ?_
  have hfst : (∀ x ∈ items.zipIdx.map Prod.fst, PairOf (TextOf BindingTarget.ofText) x) ↔ _ :=
    List.forall_mem_map
  rw [List.zipIdx_map_fst] at hfst
  simp only [succeeds_mapM, succeeds_binding, hfst]

theorem wellFormedComposite_iff {d : δ} :
    WellFormedComposite d ↔ IsMapping d ∧ CompositeSections d ∧
      Section d "components" (MappingOf WellFormedComponent) := by
  constructor
  · rintro ⟨hmapping, hsections, hcomponents, hchildren⟩
    refine ⟨hmapping, hsections, fun v hv => (hcomponents v hv).imp_right ?_⟩
    rintro ⟨entries, hentries⟩
    exact ⟨entries, hentries, hchildren v entries hv hentries⟩
  · rintro ⟨hmapping, hsections, hcomponents⟩
    refine ⟨hmapping, hsections, fun v hv => (hcomponents v hv).imp_right ?_, ?_⟩
    · rintro ⟨entries, hentries, -⟩
      exact ⟨entries, hentries⟩
    · intro v entries hv hentries
      rcases hcomponents v hv with hnull | ⟨entries', hentries', hchildren⟩
      · rw [isNull, kind, shape_of_entries? hentries] at hnull
        cases hnull
      · obtain rfl := Option.some.inj (hentries.symm.trans hentries')
        exact hchildren

theorem wellFormedComponent_iff {d : δ} :
    WellFormedComponent d ↔ isNull d = true ∨ IsMapping d ∧
      if (present? d "components").isSome then WellFormedComposite d else LeafSections d := by
  constructor
  · rintro (hnull | ⟨hpart, hnull, hcomposite⟩ | ⟨hmapping, habsent, hleaf⟩)
    · exact .inl hnull
    · have hpresent : present? d "components" = some _ :=
        Option.filter_eq_some_iff.mpr ⟨hpart, by simpa using hnull⟩
      rw [hpresent]
      exact .inr ⟨(wellFormedComposite_iff.mp hcomposite).1, hcomposite⟩
    · have hnone : present? d "components" = none :=
        Option.eq_none_iff_forall_ne_some.mpr fun v hv => section_iff.mp habsent v hv
      rw [hnone]
      exact .inr ⟨hmapping, hleaf⟩
  · rintro (hnull | ⟨hmapping, hrest⟩)
    · exact .null hnull
    · cases hpresent : present? d "components" with
      | none =>
        rw [hpresent] at hrest
        refine .leaf hmapping (section_iff.mpr fun v hv => ?_) hrest
        cases hpresent.symm.trans hv
      | some part =>
        rw [hpresent] at hrest
        obtain ⟨hget, hnull⟩ := Option.filter_eq_some_iff.mp hpresent
        exact .composite hget (by simpa using hnull) hrest

mutual

theorem succeeds_component (d : δ) (path : Path) :
    Succeeds (component d path) ↔ WellFormedComponent d := by
  rw [component, wellFormedComponent_iff]
  split
  · rename_i hnull
    simp [hnull]
  · rename_i hnull
    rw [or_iff_right hnull, succeeds_bind_iff, succeeds_expectMapping]
    intro entries
    split
    · rw [succeeds_bind_pure, succeeds_composite d path]
    · rw [succeeds_bind_pure, succeeds_leaf]
termination_by 2 * size d + 2

theorem succeeds_composite (d : δ) (path : Path) :
    Succeeds (composite d path) ↔ WellFormedComposite d := by
  rw [composite, wellFormedComposite_iff, succeeds_bind_iff fun _ => succeeds_bind_iff fun _ =>
    succeeds_bind_iff fun _ => succeeds_bind_iff fun _ => succeeds_bind_iff fun _ =>
    succeeds_bind_pure, succeeds_expectMapping, succeeds_typeName?, succeeds_configuration,
    succeeds_interfaces, succeeds_bindings, succeeds_components d path]
  constructor
  · rintro ⟨hmapping, htype, hconfiguration, hcomponents, hinterfaces, hbindings⟩
    exact ⟨hmapping, ⟨htype, hconfiguration, hinterfaces, hbindings⟩, hcomponents⟩
  · rintro ⟨hmapping, ⟨htype, hconfiguration, hinterfaces, hbindings⟩, hcomponents⟩
    exact ⟨hmapping, htype, hconfiguration, hcomponents, hinterfaces, hbindings⟩
termination_by 2 * size d + 1

theorem succeeds_components (d : δ) (path : Path) :
    Succeeds (components d path) ↔ Section d "components" (MappingOf WellFormedComponent) := by
  rw [section_iff]
  cases hpresent : present? d "components" with
  | none => simp [components_of_absent hpresent]
  | some part =>
    have hsize := size_of_present? hpresent
    rw [components_of_present hpresent, succeeds_bind]
    simp only [Option.some.injEq, forall_eq', MappingOf]
    refine exists_congr fun entries => ?_
    rw [expect_eq_ok_iff, succeeds_bind_pure, succeeds_mapM]
    refine and_congr_right fun hentries => forall₂_congr fun e he => ?_
    have := size_of_entries? hentries e he
    rw [succeeds_bind_pure, succeeds_component e.2 _]
termination_by 2 * size d

end

theorem decode_ok_iff_wellFormed (document : δ) :
    (∃ app, decode document = .ok app) ↔ WellFormed document := by
  change Succeeds (decode document) ↔ _
  rw [decode, WellFormed]
  split
  · rename_i hnull
    simp [hnull]
  · rename_i hnull
    rw [or_iff_right hnull, succeeds_bind_iff, succeeds_expectMapping]
    intro entries
    rw [section_iff]
    cases present? document "application" with
    | none => simp
    | some application =>
      simp only [Option.some.injEq, forall_eq']
      rw [succeeds_bind_pure, succeeds_composite]

end Manifest

end ComponentGraph
