import ComponentGraph.Proofs.Manifest.Decoded
import ComponentGraph.Proofs.Manifest.Path
import ComponentGraph.Yaml.Tree
import Mathlib.Data.List.Permutation

/-!
# Looking up components

The names in the id of a component lead from the node of the application down to the node of the
component. What is found under the id is what that node decodes to, at any path; where the way
ends early, nothing is found.
-/

set_option autoImplicit false

namespace ComponentGraph

namespace Manifest

open Document

variable {δ : Type} [Document δ]

/-- The node that is reached from this one along names of children. -/
def walk (node : δ) : List String → Option δ
  | [] => some node
  | name :: names => (child? node name).bind fun child => walk child names

def Decodes (node : δ) (c : Component) : Prop := ∀ path, component node path = .ok c

theorem decodes_of_ok {node : δ} {path : Path} {c : Component} (h : component node path = .ok c) :
    Decodes node c := fun path' => ((relocates_component node).ok_iff_ok path path').mp h

theorem rel_children {node : δ} {path : Path} {g : Composite} (h : composite node path = .ok g)
    (name : String) : Option.Rel Decodes (child? node name) (g.components.get? name) := by
  obtain ⟨-, -, -, hcomponents, -, -⟩ := composite_eq_ok_iff.mp h
  refine rel_imp (rel_components hcomponents name) ?_
  rintro child c ⟨path, hc⟩
  exact decodes_of_ok hc

/-- As long as there are nodes there are components, and a leaf ends the way on both sides. -/
theorem rel_descend {node : δ} {c : Component} (h : Decodes node c) (names : List String) :
    Option.Rel Decodes (walk node names) (c.descend names) := by
  induction names generalizing node c with
  | nil => exact .some h
  | cons name names ih =>
    rcases component_cases (h .root) with ⟨g, hg, rfl, -⟩ | ⟨l, -, rfl, hpart⟩
    · exact rel_bind (rel_children hg name) fun _ _ hc => ih hc
    · rw [walk, child?, named?, hpart]
      exact .none

theorem rel_find? {document application : δ} {app : Application}
    (hdecode : decode document = .ok app)
    (hpresent : present? document "application" = some application) (name : String)
    (names : List String) :
    Option.Rel Decodes (walk application (name :: names)) (app.find? ⟨name :: names⟩) := by
  rcases decode_cases hdecode with ⟨-, hnone⟩ | ⟨node, g, hnode, hg, rfl⟩
  · cases hpresent.symm.trans hnone
  · obtain rfl := Option.some.inj (hpresent.symm.trans hnode)
    exact rel_bind (rel_children hg name) fun _ _ hc => rel_descend hc names

theorem exists_leaf_iff {node : δ} {path : Path} {c : Component} (h : component node path = .ok c) :
    (∃ l, c = .leaf l) ↔ isNull node = true ∨ present? node "components" = none := by
  rcases component_cases h with ⟨g, -, rfl, hpart⟩ | ⟨l, -, rfl, hpart⟩
  · refine iff_of_false nofun ?_
    rintro (hnull | hnone)
    · rw [present?_of_isNull hnull] at hpart
      cases hpart
    · rw [hnone] at hpart
      cases hpart
  · exact iff_of_true ⟨l, rfl⟩ (.inr hpart)

/-- The components of a decoded application are those of its document. What is found under an id
is what the node under these names decodes to; wherever there is a node there is a component, a
leaf or a composite by what the node has. -/
theorem find?_decode_iff {document application : δ} {app : Application}
    (hdecode : decode document = .ok app)
    (happlication : get? document "application" = some application)
    (hnull : isNull application = false) (id : ComponentId) :
    (∀ c, app.find? id = some c ↔ id.segments ≠ [] ∧
      ∃ node, walk application id.segments = some node ∧ ∀ path, component node path = .ok c) ∧
    (∀ node, id.segments ≠ [] → walk application id.segments = some node →
      ∃ c, app.find? id = some c ∧
        ((∃ l, c = .leaf l) ↔ isNull node = true ∨ present? node "components" = none)) := by
  have hpresent : present? document "application" = some application :=
    Option.filter_eq_some_iff.mpr ⟨happlication, by simpa using hnull⟩
  obtain ⟨segments⟩ := id
  cases segments with
  | nil => exact ⟨fun c => iff_of_false nofun fun h => h.1 rfl, fun node h => absurd rfl h⟩
  | cons name names =>
    have hrel := rel_find? hdecode hpresent name names
    dsimp only
    generalize walk application (name :: names) = found, app.find? ⟨name :: names⟩ = c? at hrel
    cases hrel with
    | none => exact ⟨fun c => iff_of_false nofun nofun, nofun⟩
    | @some node c hc =>
      constructor
      · intro c'
        constructor
        · rintro ⟨⟩
          exact ⟨List.cons_ne_nil _ _, node, rfl, hc⟩
        · rintro ⟨-, _, ⟨⟩, hc'⟩
          rw [Except.ok.inj ((hc .root).symm.trans (hc' .root))]
      · rintro _ - ⟨⟩
        exact ⟨c, rfl, exists_leaf_iff (hc .root)⟩

/-- A name comes twice, once with a tag on the key, and one key is no string. -/
def repeatedNames : Yaml.Tree := .mapping [(.string "components", .mapping
  [(.string "pump", .null), (.number (.integer 7 (by decide) (by decide)), .string "valve"),
    (.tagged "late" (.string "pump"), .mapping [(.string "components", .mapping
      [(.string "valve", .null), (.string "valve", .mapping [(.string "type", .string "V")])])])])]

theorem find?_decode_iff_repeatedNames :
    ∃ app, decode (.mapping [(.string "application", repeatedNames)] : Yaml.Tree) = .ok app ∧
      get? (.mapping [(.string "application", repeatedNames)] : Yaml.Tree) "application" =
        some repeatedNames ∧
      isNull repeatedNames = false ∧
      app.find? ⟨["pump", "valve"]⟩ = some (.leaf { type := ⟨"V"⟩ }) ∧
      app.find? ⟨["pump", "valve", "valve"]⟩ = none := by
  have hdecode : decode (.mapping [(.string "application", repeatedNames)] : Yaml.Tree) =
      .ok ⟨{ Composite.empty with components := .ofList [("pump", .composite { Composite.empty with
        components := .ofList [("valve", .leaf { type := ⟨"V"⟩ })] })] }⟩ := by cbv
  refine ⟨_, hdecode, rfl, rfl, ?_, ?_⟩
  · refine ((find?_decode_iff hdecode rfl rfl _).1 _).mpr ⟨List.cons_ne_nil _ _, ?_⟩
    exact ⟨.mapping [(.string "type", .string "V")], by cbv, fun path => by cbv⟩
  · rw [Option.eq_none_iff_forall_ne_some]
    intro c hc
    obtain ⟨-, node, hnode, -⟩ := ((find?_decode_iff hdecode rfl rfl _).1 c).mp hc
    cases hnode

end Manifest

end ComponentGraph
