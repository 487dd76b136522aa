import ComponentGraph.Proofs.Manifest.Mirror
import ComponentGraph.Yaml.Tree

/-!
# Trees without their tags

Stripping takes every tag off a tree, at every depth and from keys as well. Two keys that become
equal are both kept, with their values and in their order. The stripped tree mirrors the tree, so
that no tag makes a difference to what is decoded, or to the fault if decoding fails.
-/

set_option autoImplicit false

namespace ComponentGraph.Yaml.Tree

open Document

def strip : Tree → Tree
  | null => null
  | bool value => bool value
  | number value => number value
  | string text => string text
  | sequence items => sequence (stripItems items)
  | mapping entries => mapping (stripEntries entries)
  | tagged _ node => node.strip
where
  stripItems : List Tree → List Tree
    | [] => []
    | t :: items => t.strip :: stripItems items
  stripEntries : List (Tree × Tree) → List (Tree × Tree)
    | [] => []
    | (k, t) :: entries => (k.strip, t.strip) :: stripEntries entries

/-- No node in the tree has a tag, and no key. -/
inductive Untagged : Tree → Prop
  | null : Untagged null
  | bool (value : Bool) : Untagged (bool value)
  | number (value : Number) : Untagged (number value)
  | string (text : String) : Untagged (string text)
  | sequence {items : List Tree} : (∀ t ∈ items, Untagged t) → Untagged (sequence items)
  | mapping {entries : List (Tree × Tree)} :
    (∀ e ∈ entries, Untagged e.1) → (∀ e ∈ entries, Untagged e.2) → Untagged (mapping entries)

theorem stripItems_eq_map (items : List Tree) : strip.stripItems items = items.map strip := by
  induction items with
  | nil => rfl
  | cons t items ih => rw [strip.stripItems, ih, List.map_cons]

theorem stripEntries_eq_map (entries : List (Tree × Tree)) :
    strip.stripEntries entries = entries.map fun e => (e.1.strip, e.2.strip) := by
  induction entries with
  | nil => rfl
  | cons e entries ih => rw [strip.stripEntries, ih, List.map_cons]

mutual

theorem untagged_strip (t : Tree) : t.strip.Untagged := by
  cases t with
  | null => exact .null
  | bool value => exact .bool value
  | number value => exact .number value
  | string text => exact .string text
  | sequence items => exact .sequence (untagged_stripItems items)
  | mapping entries =>
    have h := untagged_stripEntries entries
    exact .mapping (fun e he => (h e he).1) fun e he => (h e he).2
  | tagged _ node => exact untagged_strip node

theorem untagged_stripItems (items : List Tree) : ∀ t ∈ strip.stripItems items, t.Untagged := by
  cases items with
  | nil => exact nofun
  | cons t items =>
    exact List.forall_mem_cons.mpr ⟨untagged_strip t, untagged_stripItems items⟩

theorem untagged_stripEntries (entries : List (Tree × Tree)) :
    ∀ e ∈ strip.stripEntries entries, e.1.Untagged ∧ e.2.Untagged := by
  cases entries with
  | nil => exact nofun
  | cons e entries =>
    exact List.forall_mem_cons.mpr
      ⟨⟨untagged_strip e.1, untagged_strip e.2⟩, untagged_stripEntries entries⟩

end

/-- Only the tags around the node itself are in front of what it is. -/
theorem strip_untag (t : Tree) : t.untag.strip = t.strip := by
  fun_induction untag t with
  | case1 tag node ih => exact ih
  | case2 => rfl

theorem untag_strip (t : Tree) : t.strip.untag = t.strip := by
  have h := untagged_strip t
  generalize t.strip = s at h
  cases h <;> rfl

theorem text?_strip (t : Tree) : t.strip.text? = t.text? := by
  rw [text?, text?, untag_strip, ← strip_untag]
  cases h : t.untag with
  | tagged tag node => exact absurd h (t.untag_ne_tagged tag node)
  | _ => rfl

theorem named_stripEntries (entries : List (Tree × Tree)) :
    named (strip.stripEntries entries) = (named entries).map fun e => (e.1, e.2.strip) := by
  rw [named, named, stripEntries_eq_map, List.filterMap_map, List.map_filterMap]
  congr 1
  funext e
  rw [Function.comp_apply, text?_strip, Option.map_map]
  rfl

theorem shape_strip (t : Tree) : t.strip.shape = t.shape.map strip := by
  rw [shape, shape, untag_strip, ← strip_untag]
  cases h : t.untag with
  | tagged tag node => exact absurd h (t.untag_ne_tagged tag node)
  | sequence items => exact congrArg Shape.sequence (stripItems_eq_map items)
  | mapping entries => exact congrArg Shape.mapping (named_stripEntries entries)
  | _ => rfl

mutual

theorem copy_strip (t : Tree) : t.strip.copy = t.copy := by
  cases t with
  | null | bool | number | string => rfl
  | sequence items => rw [strip, copy, copy, copyItems_strip items]
  | mapping entries => rw [strip, copy, copy, copyEntries_strip entries]
  | tagged tag node => rw [strip, copy, copy_strip node]

theorem copyItems_strip (items : List Tree) :
    copy.copyItems (strip.stripItems items) = copy.copyItems items := by
  cases items with
  | nil => rfl
  | cons t items =>
    rw [strip.stripItems, copy.copyItems, copy.copyItems, copy_strip t, copyItems_strip items]

theorem copyEntries_strip (entries : List (Tree × Tree)) :
    copy.copyEntries (strip.stripEntries entries) = copy.copyEntries entries := by
  cases entries with
  | nil => rfl
  | cons e entries =>
    rw [strip.stripEntries, copy.copyEntries, copy.copyEntries, copy_strip e.1, copy_strip e.2,
      copyEntries_strip entries]

end

theorem mirrors_strip : Mirrors strip := ⟨shape_strip, copy_strip⟩

/-- Tags make no difference: the tree without them decodes to the same application or fails with
the same fault, and each of its nodes answers like the node with its tags. -/
theorem decode_strip (document : Tree) :
    Manifest.decode document.strip = Manifest.decode document ∧
      ∀ node : Tree, node.strip.Untagged ∧ Alike strip node :=
  ⟨Manifest.decode_mirror mirrors_strip document,
    fun node => ⟨untagged_strip node, mirrors_strip.alike node⟩⟩

end ComponentGraph.Yaml.Tree
