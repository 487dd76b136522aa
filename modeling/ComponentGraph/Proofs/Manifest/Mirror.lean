import ComponentGraph.Proofs.Document.Mirror
import ComponentGraph.Proofs.Manifest.WellFormed

/-!
# Decoding sees no more than a mirror shows

Each decoder gives for the image of a node what it gives for the node, with the same fault when it
fails. There is one lemma for each decoder; a document is decoded to the same application in any
form that mirrors it.
-/

set_option autoImplicit false

namespace ComponentGraph

namespace Manifest

open Document

variable {δ ε α β : Type} [Document δ] [Document ε] {f : δ → ε}

/-- Nodes of one kind whose forms correspond are expected alike. -/
theorem expect_map {form : δ → Option α} {form' : ε → Option β} {g : α → β} {d : δ} {d' : ε}
    (hform : form' d' = (form d).map g) (hkind : kind d' = kind d) (expected : Kind)
    (path : Path) : expect form' expected d' path = (expect form expected d path).map g := by
  rw [expect, expect, hform, hkind]
  cases form d <;> rfl

/-- What is done for each entry is done for the corresponding entries. -/
theorem mapping_map {entry : String × δ → String × ε} {step : String × δ → Except Fault α}
    {step' : String × ε → Except Fault α} {d : δ} {d' : ε} {path : Path} (make : List α → β)
    (hentries : expectMapping d' path = (expectMapping d path).map (List.map entry))
    (hstep : ∀ entries, entries? d = some entries → ∀ e ∈ entries, step' (entry e) = step e) :
    (do
      let entries ← expectMapping d' path
      let values ← entries.mapM step'
      return make values) = (do
      let entries ← expectMapping d path
      let values ← entries.mapM step
      return make values) := by
  rw [hentries]
  cases hexpect : expectMapping d path with
  | error e => rfl
  | ok entries =>
    have hsteps : (entries.map entry).mapM step' = entries.mapM step := by
      rw [List.mapM_map]
      exact mapM_congr (hstep entries (expect_eq_ok_iff.mp hexpect))
    change ((entries.map entry).mapM step' >>= _) = _
    rw [hsteps]
    rfl

section Parts

variable (h : Mirrors f)

include h

theorem expectString_mirror (d : δ) (path : Path) :
    expectString (f d) path = expectString d path := by
  rw [expectString, expectString, expect, expect, h.string?_eq, h.kind_eq]

theorem expectMapping_mirror (d : δ) (path : Path) :
    expectMapping (f d) path =
      (expectMapping d path).map (List.map fun e => (e.1, f e.2)) :=
  expect_map (h.entries?_eq d) (h.kind_eq d) _ path

theorem expectSequence_mirror (d : δ) (path : Path) :
    expectSequence (f d) path = (expectSequence d path).map (List.map f) :=
  expect_map (h.items?_eq d) (h.kind_eq d) _ path

theorem typeName?_mirror (d : δ) (path : Path) : typeName? (f d) path = typeName? d path := by
  rw [typeName?, typeName?, h.present?_eq]
  cases present? d "type" with
  | none => rfl
  | some type => simp only [Option.map_some, expectString_mirror h]

theorem configuration_mirror (d : δ) (path : Path) :
    configuration (f d) path = configuration d path := by
  rw [configuration, configuration, h.present?_eq]
  cases present? d "configuration" with
  | none => rfl
  | some values =>
    simp only [Option.map_some, expectMapping_mirror h]
    cases expectMapping values (path.key "configuration") with
    | error e => rfl
    | ok entries => simp [Except.map, h.copy_eq, Function.comp_def]

theorem requiredNames_mirror (d : δ) (path : Path) :
    requiredNames (f d) path = requiredNames d path := by
  rw [requiredNames, requiredNames, h.present?_eq]
  cases present? d "required" with
  | none => rfl
  | some names =>
    simp only [Option.map_some, expectSequence_mirror h]
    cases expectSequence names (path.key "required") with
    | error e => rfl
    | ok items => simp [Except.map, List.filterMap_map, h.string?_eq]

theorem pins_mirror (read : String → Except Fault α) (d : δ) (path : Path) :
    pins read (f d) path = pins read d path := by
  rw [pins, pins, h.isNull_eq]
  split
  · rfl
  · refine mapping_map _ (expectMapping_mirror h d path) fun entries _ e _ => ?_
    rw [expectString_mirror h]

theorem interfaces_mirror (read : String → Except Fault α) (make : NameMap α → β) (d : δ)
    (path : Path) : interfaces read make (f d) path = interfaces read make d path := by
  rw [interfaces, interfaces, h.present?_eq]
  cases present? d "interfaces" with
  | none => rfl
  | some part =>
    refine mapping_map _ (expectMapping_mirror h part _) fun entries _ e _ => ?_
    rw [pins_mirror h]

theorem leaf_mirror (d : δ) (path : Path) : leaf (f d) path = leaf d path := by
  rw [leaf, leaf, typeName?_mirror h, configuration_mirror h, interfaces_mirror h,
    requiredNames_mirror h]

theorem binding_mirror (d : δ) (path : Path) : binding (f d) path = binding d path := by
  rw [binding, binding, h.items?_eq, h.describe_eq]
  rcases items? d with _ | _ | ⟨left, _ | ⟨right, _ | ⟨third, items⟩⟩⟩
  case some.cons.cons.nil =>
    simp only [Option.map_some, List.map_cons, List.map_nil, expectString_mirror h]
  all_goals rfl

theorem bindings_mirror (d : δ) (path : Path) : bindings (f d) path = bindings d path := by
  rw [bindings, bindings, h.present?_eq]
  cases present? d "bindings" with
  | none => rfl
  | some part =>
    simp only [Option.map_some, expectSequence_mirror h]
    cases expectSequence part (path.key "bindings") with
    | error e => rfl
    | ok items =>
      change (items.map f).zipIdx.mapM _ = items.zipIdx.mapM _
      rw [List.zipIdx_map, List.mapM_map]
      exact mapM_congr fun item _ => binding_mirror h item.1 _

end Parts

mutual

theorem component_mirror (h : Mirrors f) (d : δ) (path : Path) :
    component (f d) path = component d path := by
  rw [component, component, h.isNull_eq, expectMapping_mirror h, h.present?_eq,
    Option.isSome_map, leaf_mirror h, composite_mirror h d]
  split
  · rfl
  · cases expectMapping d path <;> rfl
termination_by 2 * size d + 2

theorem composite_mirror (h : Mirrors f) (d : δ) (path : Path) :
    composite (f d) path = composite d path := by
  rw [composite, composite, expectMapping_mirror h, typeName?_mirror h, configuration_mirror h,
    components_mirror h d, interfaces_mirror h, bindings_mirror h]
  cases expectMapping d path <;> rfl
termination_by 2 * size d + 1

theorem components_mirror (h : Mirrors f) (d : δ) (path : Path) :
    components (f d) path = components d path := by
  have hpresent' := h.present?_eq d "components"
  cases hpresent : present? d "components" with
  | none =>
    rw [hpresent] at hpresent'
    rw [components_of_absent hpresent, components_of_absent hpresent']
  | some part =>
    rw [hpresent] at hpresent'
    have hsize := size_of_present? hpresent
    rw [components_of_present hpresent, components_of_present hpresent']
    refine mapping_map _ (expectMapping_mirror h part _) fun entries hentries e he => ?_
    have := size_of_entries? hentries e he
    rw [component_mirror h e.2]
termination_by 2 * size d

end

theorem decode_mirror (h : Mirrors f) (document : δ) : decode (f document) = decode document := by
  rw [decode, decode, h.isNull_eq, expectMapping_mirror h, h.present?_eq]
  split
  · rfl
  cases expectMapping document .root with
  | error e => rfl
  | ok entries =>
    cases present? document "application" with
    | none => rfl
    | some application =>
      change (composite (f application) _ >>= _) = _
      rw [composite_mirror h]
      rfl

end Manifest

end ComponentGraph
