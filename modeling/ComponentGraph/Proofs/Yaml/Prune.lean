import ComponentGraph.Proofs.NameMap
import ComponentGraph.Yaml.Tree

/-!
# Trees without what is not read

Pruning deletes, from the mappings that a manifest is walked through, the entries whose keys are no
strings, the entries that are not sections of their mapping, and sections that are null. Where any
name may stand, as for components, interfaces, pins and configured values, a null is kept. What is
left is found as before, provided that no name is repeated: a null that is deleted could have stood
in front of a section of the same name.
-/

set_option autoImplicit false

namespace ComponentGraph

section Entries

variable {α β : Type}

theorem find?_filter_map (keep : String → α → Bool) (f : String → α → β)
    {entries : List (String × α)} (hnodup : (entries.map Prod.fst).Nodup) (name : String) :
    (((entries.filter fun e => keep e.1 e.2).map fun e => (e.1, f e.1 e.2)).find?
        fun e => e.1 == name).map Prod.snd =
      (((entries.find? fun e => e.1 == name).map Prod.snd).filter (keep name)).map (f name) := by
  induction entries with
  | nil => rfl
  | cons e entries ih =>
    obtain ⟨hfresh, hnodup⟩ := List.nodup_cons.mp hnodup
    by_cases hname : e.1 = name
    · subst hname
      -- A second entry of the name could be kept where the first one is not.
      have hgone : (entries.find? fun x => x.1 == e.1).map Prod.snd = none := by
        rw [Option.map_eq_none_iff, List.find?_eq_none]
        intro x hx hkey
        exact hfresh (List.mem_map.mpr ⟨x, hx, beq_iff_eq.mp hkey⟩)
      by_cases hkeep : keep e.1 e.2 = true
      · simp [hkeep, Option.filter_some]
      · have htail := ih hnodup
        rw [hgone] at htail
        rw [List.filter_cons, if_neg hkeep, htail]
        simp [hkeep, Option.filter_some]
    · by_cases hkeep : keep e.1 e.2 = true
      · simpa [hkeep, hname, List.find?_cons] using ih hnodup
      · simpa [hkeep, hname, List.find?_cons] using ih hnodup

end Entries

namespace Yaml.Tree

open Document

/-- What the names of a mapping are: its sections, or names that a manifest may choose. Of the
component levels one is that of composites, the other that of leaves. -/
inductive Level
  | document
  | component (composite : Bool)
  | components
  | interfaces
  | values
  deriving DecidableEq, Repr

namespace Level

def ofComponent (t : Tree) : Level := component (present? t "components").isSome

/-- The sections that are read, where the names of entries are not free. -/
def sections? : Level → Option (List String)
  | document => some ["application"]
  | component true => some ["type", "configuration", "components", "interfaces", "bindings"]
  | component false => some ["type", "configuration", "interfaces", "required"]
  | components | interfaces | values => none

def keeps (level : Level) (name : String) (t : Tree) : Bool :=
  match level.sections? with
  | some names => names.contains name && !isNull t
  | none => true

/-- The level of the node in an entry, if it is walked on. The application is a composite. -/
def inner? : Level → String → Tree → Option Level
  | document, _, _ => some (component true)
  | component _, name, _ =>
    if name = "configuration" then some values
    else if name = "components" then some components
    else if name = "interfaces" then some interfaces
    else none
  | components, _, t => some (ofComponent t)
  | interfaces, _, _ => some values
  | values, _, _ => none

end Level

def prune (level : Level) : Tree → Tree
  | mapping entries => mapping (pruneEntries level entries)
  | tagged tag node => tagged tag (prune level node)
  | t => t
where
  pruneEntries (level : Level) : List (Tree × Tree) → List (Tree × Tree)
    | [] => []
    | (key, t) :: entries =>
      match key.text? with
      | none => pruneEntries level entries
      | some name =>
        if level.keeps name t then
          let node := match level.inner? name t with
            | some inner => prune inner t
            | none => t
          (key, node) :: pruneEntries level entries
        else pruneEntries level entries

def pruneNode (level : Level) (name : String) (t : Tree) : Tree :=
  match level.inner? name t with
  | some inner => prune inner t
  | none => t

theorem named_pruneEntries (level : Level) (entries : List (Tree × Tree)) :
    named (prune.pruneEntries level entries) =
      ((named entries).filter fun e => level.keeps e.1 e.2).map fun e =>
        (e.1, pruneNode level e.1 e.2) := by
  induction entries with
  | nil => rfl
  | cons e entries ih =>
    obtain ⟨key, t⟩ := e
    rw [prune.pruneEntries]
    cases hkey : key.text? with
    | none => simpa [named, hkey] using ih
    | some name =>
      by_cases hkeep : level.keeps name t = true
      · simpa [named, hkey, hkeep, pruneNode] using ih
      · simpa [named, hkey, hkeep] using ih

theorem untag_prune (level : Level) (t : Tree) : (t.prune level).untag = t.untag.prune level := by
  fun_induction untag t with
  | case1 tag node ih => exact ih
  | case2 t h =>
    cases t with
    | tagged tag node => exact absurd rfl (h tag node)
    | _ => rfl

theorem shape_prune (level : Level) (t : Tree) :
    (t.prune level).shape =
      match t.shape with
      | .mapping entries =>
        .mapping ((entries.filter fun e => level.keeps e.1 e.2).map fun e =>
          (e.1, pruneNode level e.1 e.2))
      | other => other := by
  rw [shape, shape, untag_prune]
  cases h : t.untag with
  | tagged tag node => exact absurd h (t.untag_ne_tagged tag node)
  | mapping entries => exact congrArg Shape.mapping (named_pruneEntries level entries)
  | _ => rfl

theorem entries?_prune (level : Level) (t : Tree) :
    entries? (t.prune level) = (entries? t).map fun entries =>
      (entries.filter fun e => level.keeps e.1 e.2).map fun e =>
        (e.1, pruneNode level e.1 e.2) := by
  have hshape : Document.shape (t.prune level) = _ := shape_prune level t
  have hshape' : Document.shape t = t.shape := rfl
  rw [entries?, entries?, hshape, hshape']
  cases t.shape <;> rfl

theorem kind_prune (level : Level) (t : Tree) : kind (t.prune level) = kind t := by
  have hshape : Document.shape (t.prune level) = _ := shape_prune level t
  have hshape' : Document.shape t = t.shape := rfl
  rw [kind, kind, hshape, hshape']
  cases t.shape <;> rfl

theorem isNull_prune (level : Level) (t : Tree) : isNull (t.prune level) = isNull t := by
  rw [isNull, isNull, kind_prune]

theorem isNull_pruneNode (level : Level) (name : String) (t : Tree) :
    isNull (pruneNode level name t) = isNull t := by
  rw [pruneNode]
  cases level.inner? name t with
  | none => rfl
  | some inner => exact isNull_prune inner t

theorem entries?_prune_of_free {level : Level} (h : level.sections? = none) (t : Tree) :
    entries? (t.prune level) =
      (entries? t).map (List.map fun e => (e.1, pruneNode level e.1 e.2)) := by
  have hkeeps : ∀ name node, level.keeps name node = true := by
    intro name node
    rw [Level.keeps, h]
  rw [entries?_prune]
  simp [hkeeps]

theorem entries?_prune_values (t : Tree) : entries? (t.prune .values) = entries? t := by
  rw [entries?_prune_of_free rfl]
  simp [pruneNode, Level.inner?]

/-- No mapping in the tree has a name twice. Trees that are keys are not looked into. -/
def DistinctNames : Tree → Prop
  | null | bool _ | number _ | string _ => True
  | sequence items => inItems items
  | mapping entries => ((named entries).map Prod.fst).Nodup ∧ inEntries entries
  | tagged _ node => node.DistinctNames
where
  inItems : List Tree → Prop
    | [] => True
    | t :: items => t.DistinctNames ∧ inItems items
  inEntries : List (Tree × Tree) → Prop
    | [] => True
    | (_, t) :: entries => t.DistinctNames ∧ inEntries entries

theorem distinctNames_untag {t : Tree} (h : t.DistinctNames) : t.untag.DistinctNames := by
  fun_induction untag t with
  | case1 tag node ih => exact ih h
  | case2 => exact h

theorem distinctNames_of_inEntries {entries : List (Tree × Tree)}
    (h : DistinctNames.inEntries entries) {e : String × Tree} (he : e ∈ named entries) :
    e.2.DistinctNames := by
  induction entries with
  | nil => cases he
  | cons x entries ih =>
    obtain ⟨hx, hentries⟩ := h
    obtain ⟨y, hy, hye⟩ := List.mem_filterMap.mp he
    rcases List.mem_cons.mp hy with rfl | hy
    · obtain ⟨name, -, rfl⟩ := Option.map_eq_some_iff.mp hye
      exact hx
    · exact ih hentries (List.mem_filterMap.mpr ⟨y, hy, hye⟩)

namespace DistinctNames

variable {t v : Tree}

theorem of_entries? (h : t.DistinctNames) {entries : List (String × Tree)}
    (hentries : entries? t = some entries) :
    (entries.map Prod.fst).Nodup ∧ ∀ e ∈ entries, e.2.DistinctNames := by
  have hshape : t.shape = .mapping entries := shape_of_entries? hentries
  have huntag := distinctNames_untag h
  unfold shape at hshape
  split at hshape <;> cases hshape
  rename_i hmapping
  rw [hmapping] at huntag
  exact ⟨huntag.1, fun e he => distinctNames_of_inEntries huntag.2 he⟩

theorem of_get? (h : t.DistinctNames) {key : String} (hv : get? t key = some v) :
    v.DistinctNames := by
  obtain ⟨entries, hentries, hfind⟩ := Option.bind_eq_some_iff.mp hv
  obtain ⟨e, he, rfl⟩ := Option.map_eq_some_iff.mp hfind
  exact (h.of_entries? hentries).2 e (List.mem_of_find?_eq_some he)

theorem of_present? (h : t.DistinctNames) {key : String} (hv : present? t key = some v) :
    v.DistinctNames := h.of_get? (Option.filter_eq_some_iff.mp hv).1

theorem get?_prune (h : t.DistinctNames) (level : Level) (key : String) :
    get? (t.prune level) key =
      ((get? t key).filter (level.keeps key)).map (pruneNode level key) := by
  rw [get?, get?, entries?_prune]
  cases hentries : entries? t with
  | none => rfl
  | some entries =>
    exact find?_filter_map level.keeps (pruneNode level) (h.of_entries? hentries).1 key

theorem present?_prune (h : t.DistinctNames) {level : Level} {names : List String}
    (hlevel : level.sections? = some names) {key : String} (hkey : key ∈ names) :
    present? (t.prune level) key = (present? t key).map (pruneNode level key) := by
  have hkeeps : level.keeps key = fun v => !isNull v := by
    funext v
    rw [Level.keeps, hlevel]
    simp [hkey]
  rw [present?, present?, h.get?_prune, hkeeps, Option.filter_map, Option.filter_filter]
  congr 2
  funext v
  simp [isNull_pruneNode]

theorem present?_prune_of_not_mem (h : t.DistinctNames) {level : Level} {names : List String}
    (hlevel : level.sections? = some names) {key : String} (hkey : key ∉ names) :
    present? (t.prune level) key = none := by
  have hkeeps : level.keeps key = fun _ => false := by
    funext v
    rw [Level.keeps, hlevel]
    simp [hkey]
  rw [present?, h.get?_prune, hkeeps]
  cases get? t key <;> rfl

end DistinctNames

end Yaml.Tree

end ComponentGraph
