import ComponentGraph.Proofs.Document.Widening
import ComponentGraph.Proofs.Yaml.Strip
import ComponentGraph.Proofs.Yaml.Tree

/-!
# What a copy keeps

The copy of a tree gives back the tree without its tags, with doubles for the integers that a
configuration cannot hold. Two trees have the same copy exactly if they agree up to this. Equality
of trees takes entries in their order, and doubles by their bits, where there is one NaN.
-/

set_option autoImplicit false

namespace ComponentGraph.Yaml.Tree

/-- The tree with its numbers as configurations can hold them, in keys as well. -/
def widen : Tree → Tree
  | null => null
  | bool value => bool value
  | number value => number value.widen
  | string text => string text
  | sequence items => sequence (widenItems items)
  | mapping entries => mapping (widenEntries entries)
  | tagged tag node => tagged tag node.widen
where
  widenItems : List Tree → List Tree
    | [] => []
    | t :: items => t.widen :: widenItems items
  widenEntries : List (Tree × Tree) → List (Tree × Tree)
    | [] => []
    | (k, t) :: entries => (k.widen, t.widen) :: widenEntries entries

theorem ofConfig_toConfig (n : Number) : ofConfig n.toConfig = number n.widen := by
  cases n with
  | integer value lower upper =>
    rw [Number.toConfig, Number.widen]
    split
    · next h =>
      have hvalue : (Int64.ofInt value).toInt = value := Int64.toInt_ofInt_of_le lower h
      simp only [ofConfig, Number.ofInt64, hvalue]
    · rfl
  | double value => rfl

theorem toConfig_widen (n : Number) : n.widen.toConfig = n.toConfig := by
  have h := congrArg copy (ofConfig_toConfig n)
  rwa [copy_ofConfig, copy, eq_comm] at h

mutual

theorem copy_widen (t : Tree) : t.widen.copy = t.copy := by
  cases t with
  | null | bool | string => rfl
  | number value => exact toConfig_widen value
  | sequence items => rw [widen, copy, copy, copyItems_widen items]
  | mapping entries => rw [widen, copy, copy, copyEntries_widen entries]
  | tagged tag node => rw [widen, copy, copy, copy_widen node]

theorem copyItems_widen (items : List Tree) :
    copy.copyItems (widen.widenItems items) = copy.copyItems items := by
  cases items with
  | nil => rfl
  | cons t items =>
    rw [widen.widenItems, copy.copyItems, copy.copyItems, copy_widen t, copyItems_widen items]

theorem copyEntries_widen (entries : List (Tree × Tree)) :
    copy.copyEntries (widen.widenEntries entries) = copy.copyEntries entries := by
  cases entries with
  | nil => rfl
  | cons e entries =>
    rw [widen.widenEntries, copy.copyEntries, copy.copyEntries, copy_widen e.1, copy_widen e.2,
      copyEntries_widen entries]

end

mutual

/-- The tree of a copy has tags on keys only, and none of them is in the tree. -/
theorem strip_ofConfig_copy (t : Tree) : (ofConfig t.copy).strip = t.strip.widen := by
  cases t with
  | null | bool | string => rfl
  | number value => rw [copy, ofConfig_toConfig, strip, strip, widen]
  | sequence items => rw [copy, ofConfig, strip, strip, widen, stripItems_ofItems_copy items]
  | mapping entries => rw [copy, ofConfig, strip, strip, widen, stripEntries_ofEntries_copy entries]
  | tagged tag node => rw [copy, strip, strip_ofConfig_copy node]

theorem stripItems_ofItems_copy (items : List Tree) :
    strip.stripItems (ofConfig.ofItems (copy.copyItems items)) =
      widen.widenItems (strip.stripItems items) := by
  cases items with
  | nil => rfl
  | cons t items =>
    rw [copy.copyItems, ofConfig.ofItems, strip.stripItems, strip.stripItems, widen.widenItems,
      strip_ofConfig_copy t, stripItems_ofItems_copy items]

theorem stripEntries_ofEntries_copy (entries : List (Tree × Tree)) :
    strip.stripEntries (ofConfig.ofEntries (copy.copyEntries entries)) =
      widen.widenEntries (strip.stripEntries entries) := by
  cases entries with
  | nil => rfl
  | cons e entries =>
    rw [copy.copyEntries, ofConfig.ofEntries, strip.stripEntries, strip.stripEntries, strip,
      widen.widenEntries, strip_ofConfig_copy e.1, strip_ofConfig_copy e.2,
      stripEntries_ofEntries_copy entries]

end

/-- A copy loses the tags and which integer from `2 ^ 63` on a double was, and nothing else. -/
theorem copy_eq_copy_iff :
    (∀ a b : Tree, a.copy = b.copy ↔ a.strip.widen = b.strip.widen) ∧
      ∀ n : Number, n.Widens n.widen := by
  refine ⟨fun a b => ⟨?_, ?_⟩, Number.widens_widen⟩
  · intro h
    calc
      a.strip.widen = (ofConfig a.copy).strip := (strip_ofConfig_copy a).symm
      _ = (ofConfig b.copy).strip := by rw [h]
      _ = b.strip.widen := strip_ofConfig_copy b
  · intro h
    calc
      a.copy = a.strip.widen.copy := by rw [copy_widen, copy_strip]
      _ = b.strip.widen.copy := by rw [h]
      _ = b.copy := by rw [copy_widen, copy_strip]

end ComponentGraph.Yaml.Tree
