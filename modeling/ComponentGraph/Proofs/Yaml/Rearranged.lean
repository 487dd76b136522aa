import ComponentGraph.Proofs.NameMap
import ComponentGraph.Proofs.Succeeds
import ComponentGraph.Yaml.Tree

/-!
# Trees with their entries in another order

A manifest is walked from the document down to the pins. The part that a mapping plays on the way
says which of its entries are walked further; the nodes of other entries stay as they are. A tree
is rearranged when the mappings that are walked have their entries in another order, each of them
with distinct names.
-/

set_option autoImplicit false

namespace ComponentGraph.Yaml.Tree

open Document

/-- The part of a mapping in a manifest. A configuration and the pins of an interface are `values`,
with which the way ends. -/
inductive Role
  | document
  | component
  | components
  | interfaces
  | values
  deriving DecidableEq, Repr

/-- The part of the node under a name, when this node is walked. The application is a component,
with the same sections. -/
def Role.inner? : Role → String → Option Role
  | document, name => if name = "application" then some component else none
  | component, name =>
    if name = "configuration" then some values
    else if name = "components" then some components
    else if name = "interfaces" then some interfaces
    else none
  | components, _ => some component
  | interfaces, _ => some values
  | values, _ => none

mutual

/-- The second tree has the entries of mappings that are walked in any order. A node without a role
is not walked. -/
inductive Rearranged : Option Role → Tree → Tree → Prop
  | same {role : Option Role} (t : Tree) : Rearranged role t t
  | tagged {role : Option Role} {tag : String} {t t' : Tree} :
    Rearranged role t t' → Rearranged role (tagged tag t) (tagged tag t')
  | mapping {role : Role} {entries between entries' : List (Tree × Tree)} :
    ((named entries).map Prod.fst).Nodup → RearrangedEntries role entries between →
      between.Perm entries' → Rearranged (some role) (mapping entries) (mapping entries')

/-- Each entry has its key and its place, and the node in it may be rearranged. -/
inductive RearrangedEntries : Role → List (Tree × Tree) → List (Tree × Tree) → Prop
  | nil {role : Role} : RearrangedEntries role [] []
  | cons {role : Role} {key t t' : Tree} {entries entries' : List (Tree × Tree)} :
    Rearranged (key.text?.bind role.inner?) t t' → RearrangedEntries role entries entries' →
      RearrangedEntries role ((key, t) :: entries) ((key, t') :: entries')

end

theorem RearrangedEntries.named {role : Role} {entries entries' : List (Tree × Tree)}
    (h : RearrangedEntries role entries entries') :
    List.Forall₂ (fun e e' => e'.1 = e.1 ∧ Rearranged (role.inner? e.1) e.2 e'.2)
      (named entries) (named entries') := by
  induction entries generalizing entries' with
  | nil =>
    cases h
    exact .nil
  | cons e entries ih =>
    cases h with
    | @cons _ key t t' entries entries' ht hentries =>
      cases hkey : key.text? with
      -- A key that is no string is not named on either side.
      | none => simpa [Tree.named, hkey] using ih hentries
      | some name =>
        rw [hkey] at ht
        simpa [Tree.named, hkey] using And.intro ht (ih hentries)

namespace Rearranged

/-- The named entries of a mapping that is walked, with nodes that are rearranged by their names. -/
abbrev Named (role : Role) (entries entries' : List (String × Tree)) : Prop :=
  SortedEntries.Corresponds (fun name => Rearranged (role.inner? name)) entries entries'

/-- Unless nothing is changed, both trees are mappings for decoding. -/
theorem eq_or_named {d d' : Tree} {role : Option Role} (h : Rearranged role d d') :
    d = d' ∨ ∃ role', role = some role' ∧ ∃ entries entries', entries? d = some entries ∧
      entries? d' = some entries' ∧ Named role' entries entries' := by
  match h with
  | .same _ => exact .inl rfl
  | .tagged h =>
    rcases h.eq_or_named with rfl | h
    · exact .inl rfl
    · exact .inr h
  | .mapping hnodup hentries hperm =>
    exact .inr ⟨_, rfl, _, _, rfl, rfl, hnodup, _, hentries.named, hperm.filterMap _⟩
termination_by d.size
decreasing_by exact Nat.lt_succ_self _

theorem eq {d d' : Tree} (h : Rearranged none d d') : d = d' := by
  rcases h.eq_or_named with h | ⟨_, hrole, -⟩
  · exact h
  · cases hrole

theorem kind_eq {role : Option Role} {d d' : Tree} (h : Rearranged role d d') :
    kind d = kind d' := by
  rcases h.eq_or_named with rfl | ⟨_, -, _, _, hentries, hentries', -⟩
  · rfl
  · rw [kind, kind, shape_of_entries? hentries, shape_of_entries? hentries']

theorem isNull_eq {role : Option Role} {d d' : Tree} (h : Rearranged role d d') :
    isNull d = isNull d' := by
  rw [isNull, isNull, h.kind_eq]

theorem rel_get? {role : Role} {d d' : Tree} (h : Rearranged (some role) d d') (key : String) :
    Option.Rel (Rearranged (role.inner? key)) (get? d key) (get? d' key) := by
  rcases h.eq_or_named with rfl | ⟨_, ⟨⟩, entries, entries', hentries, hentries', hrel⟩
  · cases get? d key with
    | none => exact .none
    | some t => exact .some (.same t)
  · rw [get?, get?, hentries, hentries']
    exact hrel.rel_find? key

theorem rel_present? {role : Role} {d d' : Tree} (h : Rearranged (some role) d d')
    (key : String) :
    Option.Rel (Rearranged (role.inner? key)) (present? d key) (present? d' key) := by
  have hrel := h.rel_get? key
  rw [present?, present?]
  generalize get? d key = v, get? d' key = v' at hrel
  cases hrel with
  | none => exact .none
  | some hv =>
    rw [Option.filter_some, Option.filter_some, hv.isNull_eq]
    split
    · exact .some hv
    · exact .none

theorem present?_eq {role : Role} {d d' : Tree} (h : Rearranged (some role) d d') {key : String}
    (hkey : role.inner? key = none) : present? d key = present? d' key := by
  have hrel := h.rel_present? key
  rw [hkey] at hrel
  generalize present? d key = v, present? d' key = v' at hrel
  cases hrel with
  | none => rfl
  | some hv => rw [hv.eq]

end Rearranged

end ComponentGraph.Yaml.Tree
