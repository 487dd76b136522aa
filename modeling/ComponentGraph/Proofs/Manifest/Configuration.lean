import ComponentGraph.Proofs.Manifest.Decoded
import ComponentGraph.Proofs.Manifest.Site
import ComponentGraph.Proofs.Yaml.Tree
import Mathlib.Data.List.Permutation

/-!
# The configuration of a component

A configuration has one value for each name in its mapping. The value is that of the last entry with
the name, whereas a document looks up the first; the two are one entry unless the name is repeated.
A mapping without equal keys can still repeat a name, since a name with a tag is another key.
-/

set_option autoImplicit false

namespace ComponentGraph

namespace Manifest

open Document SortedEntries

variable {δ : Type} [Document δ]

/-- The names in a mapping, each as often as it is there. -/
def namesOf (d : δ) : List String := (members d).map Prod.fst

/-- The configuration has the names of the mapping, each with the copy of its last entry. For a name
that is not repeated this is the entry that is looked up; if none is repeated, every entry
counts. -/
structure ConfiguredBy (g : δ) (m : Configuration) : Prop where
  named : ∀ name, m.contains name = true ↔ ∃ v, get? g name = some v
  value : ∀ name, m.get? name = (last? g name).map copy
  size : m.size = (namesOf g).dedup.length
  found : ∀ name, (namesOf g).count name ≤ 1 → m.get? name = (get? g name).map copy
  entries : (namesOf g).Nodup → m.size = (members g).length

theorem configuredBy_of_configuration {d g : δ} {path : Path} {m : Configuration}
    (hg : present? d "configuration" = some g) (h : configuration d path = .ok m) :
    ConfiguredBy g m := by
  rw [configuration, hg] at h
  obtain ⟨entries, hexpect, rfl⟩ := map_eq_ok_iff.mp h
  have hentries : entries? g = some entries := expect_eq_ok_iff.mp hexpect
  have hmembers : members g = entries := members_eq hentries
  have hnames : (entries.map fun e => (e.1, copy e.2)).map Prod.fst = namesOf g := by
    rw [namesOf, hmembers, List.map_map]
    rfl
  have hlast : ∀ name, last? g name = lastNamed? entries name := fun name => by
    rw [last?, hentries, Option.bind_some]
  have hget : ∀ name, get? g name = (entries.find? fun e => e.1 == name).map Prod.snd :=
    fun name => by rw [Document.get?, hentries, Option.bind_some]
  have hvalue : ∀ name, (ofList (entries.map fun e => (e.1, copy e.2))).get? name =
      (last? g name).map copy := fun name => by
    rw [get?_ofList, lastNamed?_map, hlast]
  have hsize : (ofList (entries.map fun e => (e.1, copy e.2))).size =
      (namesOf g).dedup.length := by rw [size_ofList, hnames]
  refine ⟨fun name => ?_, hvalue, hsize, fun name hcount => ?_, fun hnodup => ?_⟩
  · rw [contains_ofList_iff, hnames, hget, exists_find?_iff, namesOf, hmembers]
  · rw [namesOf, hmembers] at hcount
    rw [hvalue, hlast, hget, find?_eq_lastNamed?_of_count hcount]
  · rw [hsize, hnodup.dedup, namesOf, List.length_map]

theorem configuration_of_component {d : δ} {path : Path} {c : Component}
    (h : component d path = .ok c) (hmapping : IsMapping d) :
    configuration d path = .ok c.configuration := by
  rcases component_cases h with ⟨g, hg, rfl, -⟩ | ⟨l, ⟨hnull, -⟩ | hl, rfl, -⟩
  · exact (composite_eq_ok_iff.mp hg).2.2.1
  · exact absurd hnull (isNull_of_isMapping hmapping)
  · exact (leaf_eq_ok_iff.mp hl).2.1

/-- What is configured, for a component of either kind and for the composite at the root. -/
theorem component_configuredBy {d g : δ} (hg : get? d "configuration" = some g)
    (hnull : isNull g = false) (path : Path) :
    (∀ c, component d path = .ok c → ConfiguredBy g c.configuration) ∧
      ∀ c, composite d path = .ok c → ConfiguredBy g c.configuration := by
  have hpresent : present? d "configuration" = some g :=
    Option.filter_eq_some_iff.mpr ⟨hg, by simpa using hnull⟩
  constructor
  · intro c hc
    have hmapping := isMapping_of_get? hg
    exact configuredBy_of_configuration hpresent (configuration_of_component hc hmapping)
  · intro c hc
    exact configuredBy_of_configuration hpresent (composite_eq_ok_iff.mp hc).2.2.1

/-- A configuration with the name `rate` twice, under keys that are not equal. -/
def rates : Yaml.Tree := .mapping
  [(.string "rate", .string "low"), (.tagged "late" (.string "rate"), .string "high")]

def meter : Yaml.Tree := .mapping [(.string "configuration", rates)]

theorem component_configuredBy_meter :
    ∃ c g, component meter .root = .ok c ∧ composite meter .root = .ok g ∧
      get? meter "configuration" = some rates ∧ isNull rates = false ∧
      ConfiguredBy rates c.configuration ∧ ConfiguredBy rates g.configuration := by
  have hcomponent : component meter .root =
      .ok (.leaf { configuration := .ofList [("rate", .string "high")] }) := by cbv
  have hcomposite : composite meter .root = .ok
      { (∅ : Composite) with configuration := .ofList [("rate", .string "high")] } := by cbv
  obtain ⟨hleaf, hroot⟩ := component_configuredBy (d := meter) (g := rates) rfl rfl .root
  exact ⟨_, _, hcomponent, hcomposite, rfl, rfl, hleaf _ hcomponent, hroot _ hcomposite⟩

theorem distinctKeys_meter : meter.DistinctKeys := by
  have hrates : rates.DistinctKeys := by
    refine .mapping (List.pairwise_pair.mpr rfl) ?_ ?_
    · exact List.forall_mem_cons.mpr
        ⟨.string _, List.forall_mem_singleton.mpr (.tagged (.string _))⟩
    · exact List.forall_mem_cons.mpr ⟨.string _, List.forall_mem_singleton.mpr (.string _)⟩
  exact .mapping (List.pairwise_singleton _ _) (List.forall_mem_singleton.mpr (.string _))
    (List.forall_mem_singleton.mpr hrates)

/-- No two keys are equal and yet an entry is lost, the one that is looked up. -/
theorem configuration_meter_ne_found :
    meter.DistinctKeys ∧ ∃ c, component meter .root = .ok c ∧
      get? meter "configuration" = some rates ∧ isNull rates = false ∧
      c.configuration.get? "rate" ≠ (get? rates "rate").map copy ∧
      c.configuration.size ≠ (members rates).length := by
  have hmeter : component meter .root =
      .ok (.leaf { configuration := .ofList [("rate", .string "high")] }) := by cbv
  refine ⟨distinctKeys_meter, _, hmeter, rfl, rfl, ?_, by decide⟩
  intro h
  exact absurd (ConfigValue.string.inj (Option.some.inj h)) (by decide)

end Manifest

end ComponentGraph
