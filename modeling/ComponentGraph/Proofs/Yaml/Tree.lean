import ComponentGraph.Proofs.NameMap
import ComponentGraph.Yaml.Tree

/-!
# Building YAML trees

A tree that YAML can hold has no mapping with two equal keys. The trees that are built here are of
that kind: mappings that are made from fields or from a map of names, and the tree of a
configuration value, which copies back to the value.
-/

set_option autoImplicit false

namespace ComponentGraph

namespace Number

def ofInt64 (i : Int64) : Number :=
  .integer i.toInt i.le_toInt (Int.lt_trans i.toInt_lt (by decide))

theorem toConfig_ofInt64 (i : Int64) : (ofInt64 i).toConfig = .int i := by
  have hupper : i.toInt < 0x8000000000000000 := i.toInt_lt
  rw [ofInt64, toConfig, if_pos hupper, Int64.ofInt_toInt]

end Number

namespace Yaml

namespace Tree

/-- No mapping in the tree, keys included, has two equal keys. -/
inductive DistinctKeys : Tree → Prop
  | null : DistinctKeys null
  | bool (value : Bool) : DistinctKeys (bool value)
  | number (value : Number) : DistinctKeys (number value)
  | string (text : String) : DistinctKeys (string text)
  | sequence {items : List Tree} : (∀ t ∈ items, DistinctKeys t) → DistinctKeys (sequence items)
  | mapping {entries : List (Tree × Tree)} :
    (entries.Pairwise fun a b => b.1.sameKey a.1 = false) →
    (∀ e ∈ entries, DistinctKeys e.1) → (∀ e ∈ entries, DistinctKeys e.2) →
    DistinctKeys (mapping entries)
  | tagged {tag : String} {node : Tree} : DistinctKeys node → DistinctKeys (tagged tag node)

def object (fields : List (String × Tree)) : Tree :=
  .mapping (fields.map fun e => (.string e.1, e.2))

@[simp] theorem entries?_object (fields : List (String × Tree)) :
    Document.entries? (object fields) = some fields := by
  have hnamed : named (fields.map fun e => (.string e.1, e.2)) = fields := by
    rw [named, List.filterMap_map]
    exact List.filterMap_some
  exact congrArg some hnamed

theorem distinctKeys_object {fields : List (String × Tree)}
    (hnames : (fields.map Prod.fst).Nodup) (h : ∀ e ∈ fields, e.2.DistinctKeys) :
    (object fields).DistinctKeys := by
  apply DistinctKeys.mapping
  · -- Strings are the same key only if they are the same string.
    rw [List.pairwise_map]
    refine (List.pairwise_map.mp hnames).imp ?_
    intro a b hab
    simpa [sameKey] using Ne.symm hab
  · exact List.forall_mem_map.mpr fun e _ => .string e.1
  · exact List.forall_mem_map.mpr h

def ofMap {α : Type} (encode : α → Tree) (m : NameMap α) : Tree :=
  object (m.toList.map fun e => (e.1, encode e.2))

theorem distinctKeys_ofMap {α : Type} {encode : α → Tree} {m : NameMap α}
    (h : ∀ name a, m.get? name = some a → (encode a).DistinctKeys) :
    (ofMap encode m).DistinctKeys := by
  apply distinctKeys_object
  · rw [List.map_map]
    exact m.nodup_names
  · refine List.forall_mem_map.mpr ?_
    intro e he
    exact h e.1 e.2 (SortedEntries.mem_toList_iff.mp he)

/-- A tag that no other key of the mapping has. -/
def keyTag (n : Nat) : String := .ofList (List.replicate (n + 1) 'k')

/-- The tree of a configuration value. Keys that differ as values can be the same key for YAML,
such as the two zeros or mappings with their entries in another order, and so every key gets a tag
of its own. -/
def ofConfig : ConfigValue → Tree
  | .null => .null
  | .bool value => .bool value
  | .int value => .number (.ofInt64 value)
  | .float value => .number (.double value)
  | .string text => .string text
  | .sequence items => .sequence (ofItems items)
  | .mapping entries => .mapping (ofEntries entries)
where
  ofItems : List ConfigValue → List Tree
    | [] => []
    | v :: items => ofConfig v :: ofItems items
  ofEntries : List (ConfigValue × ConfigValue) → List (Tree × Tree)
    | [] => []
    | (k, v) :: entries =>
      (.tagged (keyTag entries.length) (ofConfig k), ofConfig v) :: ofEntries entries

mutual

theorem copy_ofConfig (v : ConfigValue) : (ofConfig v).copy = v := by
  cases v with
  | null | bool | float | string => rfl
  | int value => exact Number.toConfig_ofInt64 value
  | sequence items => rw [ofConfig, copy, copyItems_ofItems items]
  | mapping entries => rw [ofConfig, copy, copyEntries_ofEntries entries]

theorem copyItems_ofItems (items : List ConfigValue) :
    copy.copyItems (ofConfig.ofItems items) = items := by
  cases items with
  | nil => rfl
  | cons v items => rw [ofConfig.ofItems, copy.copyItems, copy_ofConfig v, copyItems_ofItems items]

theorem copyEntries_ofEntries (entries : List (ConfigValue × ConfigValue)) :
    copy.copyEntries (ofConfig.ofEntries entries) = entries := by
  cases entries with
  | nil => rfl
  | cons e entries =>
    rw [ofConfig.ofEntries, copy.copyEntries, copy, copy_ofConfig e.1, copy_ofConfig e.2,
      copyEntries_ofEntries entries]

end

theorem keyTag_ne_of_lt {m n : Nat} (h : m < n) : keyTag m ≠ keyTag n := by
  intro he
  have hlength := congrArg (fun s => s.toList.length) he
  simp only [keyTag, String.toList_ofList, List.length_replicate] at hlength
  omega

theorem tagged_of_mem_ofEntries {entries : List (ConfigValue × ConfigValue)} {e : Tree × Tree}
    (h : e ∈ ofConfig.ofEntries entries) :
    ∃ n key, e.1 = tagged (keyTag n) key ∧ n < entries.length := by
  induction entries with
  | nil => cases h
  | cons x entries ih =>
    rcases List.mem_cons.mp h with rfl | h
    · exact ⟨entries.length, _, rfl, Nat.lt_succ_self _⟩
    · obtain ⟨n, key, he, hn⟩ := ih h
      exact ⟨n, key, he, Nat.lt_succ_of_lt hn⟩

/-- The tags get shorter along the entries. -/
theorem pairwise_ofEntries (entries : List (ConfigValue × ConfigValue)) :
    (ofConfig.ofEntries entries).Pairwise fun a b => b.1.sameKey a.1 = false := by
  induction entries with
  | nil => exact .nil
  | cons e entries ih =>
    refine .cons ?_ ih
    intro b hb
    obtain ⟨n, key, hkey, hn⟩ := tagged_of_mem_ofEntries hb
    rw [hkey, sameKey, beq_eq_false_iff_ne.mpr (keyTag_ne_of_lt hn), Bool.false_and]

mutual

theorem distinctKeys_ofConfig (v : ConfigValue) : (ofConfig v).DistinctKeys := by
  cases v with
  | null => exact .null
  | bool value => exact .bool value
  | int value => exact .number _
  | float value => exact .number _
  | string text => exact .string text
  | sequence items => exact .sequence (distinctKeys_ofItems items)
  | mapping entries =>
    have h := distinctKeys_ofEntries entries
    exact .mapping (pairwise_ofEntries entries) (fun e he => (h e he).1) fun e he => (h e he).2

theorem distinctKeys_ofItems (items : List ConfigValue) :
    ∀ t ∈ ofConfig.ofItems items, t.DistinctKeys := by
  cases items with
  | nil => exact nofun
  | cons v items =>
    exact List.forall_mem_cons.mpr ⟨distinctKeys_ofConfig v, distinctKeys_ofItems items⟩

theorem distinctKeys_ofEntries (entries : List (ConfigValue × ConfigValue)) :
    ∀ e ∈ ofConfig.ofEntries entries, e.1.DistinctKeys ∧ e.2.DistinctKeys := by
  cases entries with
  | nil => exact nofun
  | cons e entries =>
    exact List.forall_mem_cons.mpr
      ⟨⟨.tagged (distinctKeys_ofConfig e.1), distinctKeys_ofConfig e.2⟩,
        distinctKeys_ofEntries entries⟩

end

end Tree

end Yaml

end ComponentGraph
