import ComponentGraph.Proofs.Manifest.Mirror
import ComponentGraph.Proofs.Yaml.Prune

/-!
# Decoding pruned documents

Nothing that pruning deletes is read: each decoder gives for a pruned node what it gives for the
node, with the same fault when it fails. The one section that decides more than itself is that of
the components of a node, and it stays just when it makes the node a composite.
-/

set_option autoImplicit false

namespace ComponentGraph

namespace Manifest

open Document Yaml Yaml.Tree

variable {α β : Type} {t : Tree}

theorem expectMapping_prune_of_free {level : Level} (h : level.sections? = none) (t : Tree)
    (path : Path) :
    expectMapping (t.prune level) path =
      (expectMapping t path).map (List.map fun e => (e.1, pruneNode level e.1 e.2)) :=
  expect_map (entries?_prune_of_free h t) (kind_prune level t) _ path

theorem expectMapping_prune_values (t : Tree) (path : Path) :
    expectMapping (t.prune .values) path = expectMapping t path := by
  rw [expectMapping, expect, entries?_prune_values, kind_prune]
  rfl

theorem expectMapping_prune_bind (level : Level) (t : Tree) (path : Path)
    (next : Except Fault α) :
    (expectMapping (t.prune level) path >>= fun _ => next) =
      expectMapping t path >>= fun _ => next := by
  rw [expectMapping, expectMapping, expect_map (entries?_prune level t) (kind_prune level t)]
  cases expect entries? Kind.mapping t path <;> rfl

theorem pins_prune (read : String → Except Fault α) (t : Tree) (path : Path) :
    pins read (t.prune .values) path = pins read t path := by
  rw [pins, pins, isNull_prune, expectMapping_prune_values]

section Sections

variable (h : t.DistinctNames) (composite : Bool) (path : Path)

include h

theorem present?_prune_common {key : String}
    (hkey : key ∈ ["type", "configuration", "interfaces"]) :
    present? (t.prune (.component composite)) key =
      (present? t key).map (pruneNode (.component composite) key) := by
  cases composite with
  | true => exact h.present?_prune rfl (by revert key; decide)
  | false => exact h.present?_prune rfl (by revert key; decide)

theorem typeName?_prune : typeName? (t.prune (.component composite)) path = typeName? t path := by
  rw [typeName?, typeName?, present?_prune_common h composite (by decide)]
  cases present? t "type" <;> rfl

theorem configuration_prune :
    configuration (t.prune (.component composite)) path = configuration t path := by
  rw [configuration, configuration, present?_prune_common h composite (by decide)]
  cases present? t "configuration" with
  | none => rfl
  | some values =>
    change (expectMapping (values.prune .values) _).map _ = _
    rw [expectMapping_prune_values]

theorem interfaces_prune (read : String → Except Fault α) (make : NameMap α → β) :
    interfaces read make (t.prune (.component composite)) path = interfaces read make t path := by
  rw [interfaces, interfaces, present?_prune_common h composite (by decide)]
  cases present? t "interfaces" with
  | none => rfl
  | some part =>
    refine mapping_map _ (expectMapping_prune_of_free rfl part _) fun entries _ e _ => ?_
    change (pins read (e.2.prune .values) _ >>= _) = _
    rw [pins_prune]

theorem requiredNames_prune :
    requiredNames (t.prune (.component false)) path = requiredNames t path := by
  rw [requiredNames, requiredNames, h.present?_prune rfl (by decide)]
  cases present? t "required" <;> rfl

theorem bindings_prune : bindings (t.prune (.component true)) path = bindings t path := by
  rw [bindings, bindings, h.present?_prune rfl (by decide)]
  cases present? t "bindings" <;> rfl

theorem leaf_prune : leaf (t.prune (.component false)) path = leaf t path := by
  rw [leaf, leaf, typeName?_prune h, configuration_prune h, interfaces_prune h,
    requiredNames_prune h]

theorem isSome_components_prune :
    (present? (t.prune (.ofComponent t)) "components").isSome =
      (present? t "components").isSome := by
  rw [Level.ofComponent]
  cases hpresent : (present? t "components").isSome with
  | true => rw [h.present?_prune rfl (by decide), Option.isSome_map, hpresent]
  | false => rw [h.present?_prune_of_not_mem rfl (by decide), Option.isSome_none]

end Sections

mutual

theorem component_prune (t : Tree) (h : t.DistinctNames) (path : Path) :
    component (t.prune (.ofComponent t)) path = component t path := by
  rw [component, component, isNull_prune, isSome_components_prune h, expectMapping_prune_bind,
    Level.ofComponent]
  cases (present? t "components").isSome with
  | true => rw [if_pos rfl, if_pos rfl, composite_prune t h]
  | false => rw [if_neg Bool.false_ne_true, if_neg Bool.false_ne_true, leaf_prune h]
termination_by 2 * Document.size t + 2

theorem composite_prune (t : Tree) (h : t.DistinctNames) (path : Path) :
    composite (t.prune (.component true)) path = composite t path := by
  rw [composite, composite, expectMapping_prune_bind, typeName?_prune h, configuration_prune h,
    components_prune t h, interfaces_prune h, bindings_prune h]
termination_by 2 * Document.size t + 1

theorem components_prune (t : Tree) (h : t.DistinctNames) (path : Path) :
    components (t.prune (.component true)) path = components t path := by
  have hpresent' : present? (t.prune (.component true)) "components" =
      (present? t "components").map (prune .components) := h.present?_prune rfl (by decide)
  cases hpresent : present? t "components" with
  | none =>
    rw [hpresent] at hpresent'
    rw [components_of_absent hpresent, components_of_absent hpresent']
  | some part =>
    rw [hpresent] at hpresent'
    have hsize := size_of_present? hpresent
    rw [components_of_present hpresent, components_of_present hpresent']
    refine mapping_map _ (expectMapping_prune_of_free rfl part _) fun entries hentries e he => ?_
    have := size_of_entries? hentries e he
    change (component (e.2.prune (.ofComponent e.2)) _ >>= _) = _
    rw [component_prune e.2 (((h.of_present? hpresent).of_entries? hentries).2 e he)]
termination_by 2 * Document.size t

end

theorem decode_prune (document : Tree) (h : document.DistinctNames) :
    decode (document.prune .document) = decode document := by
  rw [decode, decode, isNull_prune, expectMapping_prune_bind, h.present?_prune rfl (by decide)]
  cases hpresent : present? document "application" with
  | none => rfl
  | some application =>
    change (if _ then _ else expectMapping document .root >>= fun _ =>
      composite (application.prune (.component true)) _ >>= _) = _
    rw [composite_prune application (h.of_present? hpresent)]

/-- A composite with a list of required interfaces, with a component that is null and one whose
components are null, and with keys that no manifest reads. -/
def cluttered : Tree :=
  .mapping [(.string "version", .number (.double 1)), (.string "application", .mapping [
    (.bool true, .string "no name"), (.string "bindings", .null),
    (.string "required", .mapping []),
    (.tagged "!part" (.string "components"), .mapping [
      (.string "sink", .null), (.null, .string "no name"),
      (.string "logger", .tagged "!leaf" (.mapping [
        (.string "components", .null), (.string "bindings", .string "not a sequence"),
        (.string "configuration", .mapping [(.string "level", .null)]),
        (.string "interfaces", .mapping [(.string "log", .null)])]))])])]

def tidy : Tree :=
  .mapping [(.string "application", .mapping [
    (.tagged "!part" (.string "components"), .mapping [
      (.string "sink", .null),
      (.string "logger", .tagged "!leaf" (.mapping [
        (.string "configuration", .mapping [(.string "level", .null)]),
        (.string "interfaces", .mapping [(.string "log", .null)])]))])])]

theorem decode_tidy :
    cluttered.DistinctNames ∧ cluttered.prune .document = tidy ∧
      decode tidy = decode cluttered := by
  have hdistinct : cluttered.DistinctNames := by
    simp only [cluttered, DistinctNames, DistinctNames.inEntries]
    decide
  have hprune : cluttered.prune .document = tidy := rfl
  exact ⟨hdistinct, hprune, hprune ▸ decode_prune cluttered hdistinct⟩

end Manifest

end ComponentGraph
