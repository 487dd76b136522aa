import ComponentGraph.Proofs.Manifest.Decoded
import ComponentGraph.Proofs.Manifest.Path
import ComponentGraph.Yaml.Tree
import Mathlib.Data.List.Permutation

/-!
# One node in two places

Under any path a node decodes to the same component or fails with the same error. Only an error of
shape tells the path, and it begins with it. A composite may also be the application of a document;
there it decodes as it does anywhere else, except that the root is always a plain composite.
-/

set_option autoImplicit false

namespace ComponentGraph

namespace Path

/-- The spelling of steps that follow others. -/
def trail : Path → String
  | [] => ""
  | step :: steps => step.tail ++ trail steps

theorem foldl_tail (steps : Path) (text : String) :
    steps.foldl (fun text s => text ++ s.tail) text = text ++ steps.trail := by
  induction steps generalizing text with
  | nil => rw [List.foldl_nil, trail, String.append_empty]
  | cons step steps ih => rw [List.foldl_cons, ih, trail, String.append_assoc]

theorem spell_append {path : Path} (h : path ≠ []) (steps : Path) :
    (path ++ steps).spell = path.spell ++ steps.trail := by
  cases path with
  | nil => exact absurd rfl h
  | cons first path => rw [List.cons_append, spell, spell, List.foldl_append, foldl_tail steps]

end Path

namespace Fault

/-- An error of shape at a node below the path. Its message spells the path and then the rest of
the way; only the empty path has no spelling of its own to begin with. -/
structure BlamesBelow (path : Path) (expected found : Kind) (steps : Path) (rest : String)
    (e : Fault) : Prop where
  cause : e.cause = .wrongKind expected (path ++ steps) found
  message : path ≠ [] → e.message =
    "Expected " ++ expected.word ++ " for " ++ (path.spell ++ rest) ++ ", got " ++ found.word

/-- The same error under two paths: one that tells no path, or one of shape that begins with the
path and goes on alike. -/
inductive Moved (p q : Path) : Fault → Fault → Prop
  | text {e : Fault} : ¬ e.IsShapeError → Moved p q e e
  | shape {e e' : Fault} (expected found : Kind) (steps : Path) (rest : String) :
    e.position = e'.position → BlamesBelow p expected found steps rest e →
    BlamesBelow q expected found steps rest e' → Moved p q e e'

theorem blamesBelow_under {e : Fault} {expected found : Kind} {steps : Path}
    (h : e.cause = .wrongKind expected steps found) (path : Path) :
    (e.under path).BlamesBelow path expected found steps steps.trail := by
  obtain ⟨cause, position⟩ := e
  obtain rfl : cause = _ := h
  refine ⟨rfl, fun hpath => ?_⟩
  rw [← Path.spell_append hpath]
  rfl

theorem position_under (e : Fault) (path : Path) : (e.under path).position = e.position := by
  unfold under
  split <;> rfl

theorem moved_under (e : Fault) (p q : Path) : Moved p q (e.under p) (e.under q) := by
  by_cases he : e.IsShapeError
  · obtain ⟨expected, steps, found, hcause⟩ := he
    refine .shape expected found steps steps.trail ?_ (blamesBelow_under hcause p)
      (blamesBelow_under hcause q)
    rw [position_under, position_under]
  · rw [under_of_not_isShapeError he, under_of_not_isShapeError he]
    exact .text he

end Fault

/-- The same value, or the same error under two paths. -/
inductive SameUnder {α : Type} (p q : Path) : Except Fault α → Except Fault α → Prop
  | ok (a : α) : SameUnder p q (.ok a) (.ok a)
  | error {e e' : Fault} : Fault.Moved p q e e' → SameUnder p q (.error e) (.error e')

theorem Relocates.sameUnder {α : Type} {f : Path → Except Fault α} (h : Relocates f)
    (p q : Path) : SameUnder p q (f p) (f q) := by
  have hp := h p .root
  have hq := h q .root
  rw [Path.root, List.append_nil] at hp hq
  rw [hp, hq]
  cases f [] with
  | ok a => exact .ok a
  | error e => exact .error (e.moved_under p q)

namespace Manifest

open Document

variable {δ : Type} [Document δ]

/-- The application of the document is the composite that the node is anywhere else, but of the type
`core.Composite`. The document fails just as the node does under the key of the application. -/
structure AtRoot (document node : δ) : Prop where
  succeeds : ∀ path, (∃ app, decode document = .ok app) ↔ ∃ c, component node path = .ok c
  value : ∀ path app, decode document = .ok app ↔
    ∃ g, component node path = .ok (.composite g) ∧ app = ⟨{ g with type := ⟨"core.Composite"⟩ }⟩
  fault : ∀ e, decode document = .error e ↔
    component node (Path.root.key "application") = .error e

theorem atRoot_of_present {document node : δ}
    (happlication : present? document "application" = some node)
    (hpart : (present? node "components").isSome = true) : AtRoot document node := by
  have hroot : decode document = (composite node (Path.root.key "application")).map fun g =>
      ⟨{ g with type := ⟨"core.Composite"⟩ }⟩ := decode_eq_map happlication
  have hnode := component_eq_map hpart
  have hvalue : ∀ path app, decode document = .ok app ↔
      ∃ g, component node path = .ok (.composite g) ∧
        app = ⟨{ g with type := ⟨"core.Composite"⟩ }⟩ := by
    intro path app
    have hplace := fun g => (relocates_composite node).ok_iff_ok (Path.root.key "application") path
      (a := g)
    simp only [hroot, hnode, map_eq_ok_iff, hplace, Component.composite.injEq, exists_eq_right,
      eq_comm (a := app)]
  refine ⟨fun path => ?_, hvalue, fun e => ?_⟩
  · constructor
    · rintro ⟨app, happ⟩
      obtain ⟨g, hg, -⟩ := (hvalue path app).mp happ
      exact ⟨_, hg⟩
    · rintro ⟨c, hc⟩
      rw [hnode] at hc
      obtain ⟨g, hg, rfl⟩ := map_eq_ok_iff.mp hc
      exact ⟨_, (hvalue path _).mpr ⟨g, by rw [hnode, hg]; rfl, rfl⟩⟩
  · rw [hroot, hnode, map_eq_error_iff, map_eq_error_iff]

/-- It makes no difference where a node stands. The path of an error of shape begins with the place
of the node, and a composite that is the application of a document only loses its own type. -/
theorem component_sameUnder (node : δ) :
    (∀ p q, SameUnder p q (component node p) (component node q)) ∧
    ∀ document part, get? document "application" = some node →
      get? node "components" = some part → isNull part = false → AtRoot document node := by
  refine ⟨(relocates_component node).sameUnder, fun document part hnode hpart hnull => ?_⟩
  have hcomponents : present? node "components" = some part :=
    Option.filter_eq_some_iff.mpr ⟨hpart, by simpa using hnull⟩
  have hmapping := isNull_of_isMapping (isMapping_of_get? hpart)
  have happlication : present? document "application" = some node :=
    Option.filter_eq_some_iff.mpr ⟨hnode, by simpa using hmapping⟩
  exact atRoot_of_present happlication (by rw [hcomponents]; rfl)

/-- A composite with a type of its own, a child and a binding. -/
def depot : Yaml.Tree := .mapping [(.string "type", .string "Depot"),
  (.string "components", .mapping [(.string "pump", .null)]),
  (.string "bindings", .sequence [.sequence [.string "pump", .string "valve#in"]])]

def depotComposite : Composite :=
  { (∅ : Composite) with
    type := ⟨"Depot"⟩
    components := .ofList [("pump", .leaf {})]
    bindings := [⟨⟨⟨["pump"]⟩, none⟩, ⟨⟨["valve"]⟩, some "in"⟩⟩] }

theorem component_sameUnder_depot :
    (∀ path, component depot path = .ok (.composite depotComposite)) ∧
      decode (.mapping [(.string "application", depot)] : Yaml.Tree) =
        .ok ⟨{ depotComposite with type := ⟨"core.Composite"⟩ }⟩ := by
  have hdepot : component depot .root = .ok (.composite depotComposite) := by cbv
  obtain ⟨hplaces, hroot⟩ := component_sameUnder depot
  have hroot := hroot (.mapping [(.string "application", depot)]) _ rfl rfl rfl
  refine ⟨fun path => ?_, (hroot.value .root _).mpr ⟨_, hdepot, rfl⟩⟩
  have hplace := hplaces .root path
  rw [hdepot] at hplace
  generalize component depot path = r at hplace
  cases hplace
  rfl

end Manifest

end ComponentGraph
