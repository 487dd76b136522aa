import ComponentGraph.NameMap
import Mathlib.Data.List.Dedup
import Mathlib.Data.List.Forall2
import Mathlib.Data.List.Nodup
import Mathlib.Data.List.Perm.Basic

/-!
# Maps that are made from entries

Inserting entries one after the other gives a map in which the last entry of a name counts. When
no name is repeated the map holds just these entries, in whatever order they came.
-/

set_option autoImplicit false

namespace ComponentGraph.SortedEntries

universe u v

variable {α : Type u} {β : Type v}

def insertAll (m : NameMap α) (entries : List (String × α)) : NameMap α :=
  entries.foldl (fun m e => m.insert e.1 e.2) m

@[simp] theorem insertAll_nil (m : NameMap α) : m.insertAll [] = m := rfl

@[simp] theorem insertAll_cons (m : NameMap α) (name : String) (value : α)
    (entries : List (String × α)) :
    m.insertAll ((name, value) :: entries) = (m.insert name value).insertAll entries := rfl

theorem ofList_eq_insertAll (entries : List (String × α)) :
    ofList entries = insertAll ∅ entries := rfl

theorem get?_insertAll (m : NameMap α) (entries : List (String × α)) (name : String) :
    (m.insertAll entries).get? name =
      ((entries.reverse.find? fun e => e.1 = name).map Prod.snd).or (m.get? name) := by
  induction entries generalizing m with
  | nil => rfl
  | cons e entries ih =>
    rw [insertAll_cons, ih, List.reverse_cons, List.find?_append, get?_insert]
    by_cases h : e.1 = name
    · cases entries.reverse.find? fun e => e.1 = name <;> simp [h]
    · cases entries.reverse.find? fun e => e.1 = name <;> simp [h, Ne.symm h]

def lastNamed? (entries : List (String × α)) (name : String) : Option α :=
  (entries.reverse.find? fun e => e.1 = name).map Prod.snd

theorem get?_ofList (entries : List (String × α)) (name : String) :
    (ofList entries).get? name = lastNamed? entries name := by
  rw [ofList_eq_insertAll, get?_insertAll]
  exact Option.or_none

theorem mem_of_lastNamed? {entries : List (String × α)} {name : String} {value : α}
    (h : lastNamed? entries name = some value) : (name, value) ∈ entries := by
  obtain ⟨e, he, rfl⟩ := Option.map_eq_some_iff.mp h
  have hname : e.1 = name := by simpa using List.find?_some he
  rw [← hname]
  exact List.mem_reverse.mp (List.mem_of_find?_eq_some he)

theorem lastNamed?_map (f : α → β) (entries : List (String × α)) (name : String) :
    lastNamed? (entries.map fun e => (e.1, f e.2)) name = (lastNamed? entries name).map f := by
  rw [lastNamed?, lastNamed?, ← List.map_reverse, List.find?_map, Option.map_map, Option.map_map]
  rfl

/-- Entries with the same names one by one have related values under each name. -/
theorem rel_lastNamed? {R : String → α → β → Prop} {entries : List (String × α)}
    {values : List (String × β)}
    (h : List.Forall₂ (fun e v => v.1 = e.1 ∧ R e.1 e.2 v.2) entries values) (name : String) :
    Option.Rel (R name) (lastNamed? entries name) (lastNamed? values name) := by
  have hreverse := List.forall₂_reverse_iff.mpr h
  rw [lastNamed?, lastNamed?]
  generalize entries.reverse = entries, values.reverse = values at hreverse
  induction hreverse with
  | nil => exact .none
  | @cons e v _ _ hev _ ih =>
    rw [List.find?_cons, List.find?_cons, hev.1]
    by_cases hname : e.1 = name
    · simp only [hname, decide_true]
      exact .some (hname ▸ hev.2)
    · simp only [hname, decide_false]
      exact ih

theorem contains_insert (m : NameMap α) (name : String) (value : α) (name' : String) :
    (m.insert name value).contains name' = true ↔ name' = name ∨ m.contains name' = true := by
  rw [contains, get?_insert, contains]
  by_cases h : name' = name <;> simp [h]

theorem get?_ofList_iff {entries : List (String × α)} (h : (entries.map Prod.fst).Nodup)
    {name : String} {value : α} :
    (ofList entries).get? name = some value ↔ (name, value) ∈ entries := by
  have hempty : (∅ : NameMap α).get? name = none := rfl
  rw [ofList_eq_insertAll, get?_insertAll, hempty, Option.or_none, Option.map_eq_some_iff]
  constructor
  · rintro ⟨e, he, rfl⟩
    have hname : e.1 = name := by simpa using List.find?_some he
    rw [← hname]
    exact List.mem_reverse.mp (List.mem_of_find?_eq_some he)
  · intro hmem
    have hsome : (entries.reverse.find? fun e => e.1 = name).isSome :=
      List.find?_isSome.mpr ⟨_, List.mem_reverse.mpr hmem, by simp⟩
    obtain ⟨e, he⟩ := Option.isSome_iff_exists.mp hsome
    have hname : e.1 = name := by simpa using List.find?_some he
    have hentry : e ∈ entries := List.mem_reverse.mp (List.mem_of_find?_eq_some he)
    refine ⟨e, he, ?_⟩
    rw [List.inj_on_of_nodup_map h hentry hmem hname]

theorem contains_iff {m : NameMap α} {name : String} :
    m.contains name = true ↔ name ∈ m.names := by
  rw [contains, Option.isSome_iff_exists, names, List.mem_map]
  constructor
  · rintro ⟨value, hvalue⟩
    exact ⟨(name, value), mem_toList_iff.mpr hvalue, rfl⟩
  · rintro ⟨e, he, rfl⟩
    exact ⟨e.2, mem_toList_iff.mp he⟩

theorem mem_toList_ofList_iff {entries : List (String × α)} (h : (entries.map Prod.fst).Nodup)
    {e : String × α} : e ∈ (ofList entries).toList ↔ e ∈ entries :=
  mem_toList_iff.trans (get?_ofList_iff h)

theorem nodup_names (m : NameMap α) : (m.toList.map Prod.fst).Nodup := by
  rw [List.nodup_iff_pairwise_ne, List.pairwise_map]
  refine m.pairwise_toList.imp ?_
  intro a b hab he
  exact String.lt_irrefl b.1 (he ▸ hab)

theorem exists_find?_iff {entries : List (String × α)} {name : String} :
    (∃ value, (entries.find? fun e => e.1 == name).map Prod.snd = some value) ↔
      name ∈ entries.map Prod.fst := by
  rw [← Option.isSome_iff_exists, Option.isSome_map, List.find?_isSome, List.mem_map]
  simp only [beq_iff_eq]

theorem exists_lastNamed?_iff {entries : List (String × α)} {name : String} :
    (∃ value, lastNamed? entries name = some value) ↔ name ∈ entries.map Prod.fst := by
  have hreverse : lastNamed? entries name =
      (entries.reverse.find? fun e => e.1 == name).map Prod.snd := rfl
  rw [hreverse, exists_find?_iff, List.map_reverse, List.mem_reverse]

theorem contains_ofList_iff {entries : List (String × α)} {name : String} :
    (ofList entries).contains name = true ↔ name ∈ entries.map Prod.fst := by
  rw [contains, Option.isSome_iff_exists, get?_ofList, exists_lastNamed?_iff]

theorem size_ofList (entries : List (String × α)) :
    (ofList entries).size = (entries.map Prod.fst).dedup.length := by
  have hperm : (ofList entries).names.Perm (entries.map Prod.fst).dedup := by
    refine (List.perm_ext_iff_of_nodup (nodup_names _) (List.nodup_dedup _)).mpr fun name => ?_
    exact contains_iff.symm.trans (contains_ofList_iff.trans List.mem_dedup.symm)
  rw [← hperm.length_eq, names, List.length_map, size]

/-- The entries of a map give the map back in any order. -/
theorem ofList_of_perm {m : NameMap α} {entries : List (String × α)}
    (h : entries.Perm m.toList) : ofList entries = m := by
  have hnodup : (entries.map Prod.fst).Nodup :=
    (h.map Prod.fst).nodup_iff.mpr m.nodup_names
  apply ext
  intro name
  apply Option.ext
  intro value
  rw [get?_ofList_iff hnodup, h.mem_iff, mem_toList_iff]

theorem ofList_perm {entries entries' : List (String × α)} (h : entries.Perm entries')
    (hnodup : (entries.map Prod.fst).Nodup) : ofList entries = ofList entries' := by
  have hnodup' : (entries'.map Prod.fst).Nodup := (h.map Prod.fst).nodup_iff.mp hnodup
  apply ext
  intro name
  apply Option.ext
  intro value
  rw [get?_ofList_iff hnodup, get?_ofList_iff hnodup', h.mem_iff]

theorem lastNamed?_perm {entries entries' : List (String × α)} (h : entries.Perm entries')
    (hnodup : (entries.map Prod.fst).Nodup) (name : String) :
    lastNamed? entries name = lastNamed? entries' name := by
  rw [← get?_ofList, ← get?_ofList, ofList_perm h hnodup]

/-- The first entry with a name is also the last, unless the name is repeated. -/
theorem find?_eq_lastNamed?_of_count {entries : List (String × α)} {name : String}
    (h : (entries.map Prod.fst).count name ≤ 1) :
    (entries.find? fun e => e.1 == name).map Prod.snd = lastNamed? entries name := by
  rw [List.count, List.countP_map, List.countP_eq_length_filter] at h
  change (entries.filter fun e => e.1 == name).length ≤ 1 at h
  change _ = (entries.reverse.find? fun e => e.1 == name).map Prod.snd
  rw [← List.head?_filter, ← List.getLast?_filter]
  generalize (entries.filter fun e => e.1 == name) = found at h
  match found, h with
  | [], _ => rfl
  | [e], _ => rfl

theorem find?_eq_lastNamed? {entries : List (String × α)} (hnodup : (entries.map Prod.fst).Nodup)
    (name : String) :
    (entries.find? fun e => e.1 == name).map Prod.snd = lastNamed? entries name :=
  find?_eq_lastNamed?_of_count (List.nodup_iff_count_le_one.mp hnodup name)

theorem lastNamed?_toList (m : NameMap α) (name : String) :
    lastNamed? m.toList name = m.get? name := by
  rw [← get?_ofList, ofList_of_perm (.refl _)]

def mapValues (f : α → β) (m : NameMap α) : NameMap β :=
  ofList (m.toList.map fun e => (e.1, f e.2))

@[simp] theorem get?_mapValues (f : α → β) (m : NameMap α) (name : String) :
    (m.mapValues f).get? name = (m.get? name).map f := by
  rw [mapValues, get?_ofList, lastNamed?_map, lastNamed?_toList]

@[simp] theorem mapValues_id (m : NameMap α) : m.mapValues id = m := by
  apply ext
  intro name
  rw [get?_mapValues, Option.map_id, id]

section Matching

variable {R : α → β → Prop} {low low' : Option String}

theorem get?_cons_self {n : String} {hn : Above low n} {v : α} {r : SortedEntries α (some n)} :
    (cons n hn v r).get? n = some v := by
  rw [get?_cons, if_pos rfl]

theorem get?_cons_eq_none_of_lt {n name : String} {hn : Above low n} {v : α}
    {r : SortedEntries α (some n)} (h : name < n) : (cons n hn v r).get? name = none := by
  have hne : name ≠ n := fun he => String.lt_irrefl n (he ▸ h)
  rw [get?_cons, if_neg hne, get?_eq_none_of_not_above]
  exact fun h' => String.lt_asymm h (above_some.mp h')

/-- The smaller one of two first names would be looked up in one of the maps only. -/
theorem first_eq_of_rel {n n' : String} {hn : Above low n} {hn' : Above low' n'} {v : α} {v' : β}
    {r : SortedEntries α (some n)} {r' : SortedEntries β (some n')}
    (h : ∀ name, Option.Rel R ((cons n hn v r).get? name) ((cons n' hn' v' r').get? name)) :
    n = n' := by
  refine Decidable.byContradiction fun hne => ?_
  by_cases hlt : n < n'
  · have hfirst := h n
    rw [get?_cons_self, get?_cons_eq_none_of_lt hlt] at hfirst
    cases hfirst
  · have hfirst := h n'
    rw [get?_cons_self, get?_cons_eq_none_of_lt (lt_of_not_lt_of_ne hlt hne)] at hfirst
    cases hfirst

theorem rel_get?_cons_iff {n : String} {hn : Above low n} {hn' : Above low' n} {v : α} {v' : β}
    {r : SortedEntries α (some n)} {r' : SortedEntries β (some n)} :
    (∀ name, Option.Rel R ((cons n hn v r).get? name) ((cons n hn' v' r').get? name)) ↔
      R v v' ∧ ∀ name, Option.Rel R (r.get? name) (r'.get? name) := by
  constructor
  · intro h
    constructor
    · have hfirst := h n
      rw [get?_cons_self, get?_cons_self] at hfirst
      cases hfirst with
      | some hv => exact hv
    · intro name
      have hrest := h name
      rw [get?_cons, get?_cons] at hrest
      split at hrest
      · subst name
        rw [get?_self_eq_none, get?_self_eq_none]
        exact .none
      · exact hrest
  · rintro ⟨hv, hr⟩ name
    rw [get?_cons, get?_cons]
    split
    · exact .some hv
    · exact hr name

theorem matchWith_iff {same : α → β → Bool} {m : SortedEntries α low} {m' : SortedEntries β low'} :
    m.matchWith same m' = true ↔
      ∀ name, Option.Rel (fun v v' => same v v' = true) (m.get? name) (m'.get? name) := by
  induction m generalizing low' with
  | nil =>
    cases m' with
    | nil => exact iff_of_true rfl fun _ => .none
    | cons n' =>
      refine iff_of_false nofun fun h => ?_
      have hfirst := h n'
      rw [get?_nil, get?_cons_self] at hfirst
      cases hfirst
  | cons n hn v r ih =>
    cases m' with
    | nil =>
      refine iff_of_false nofun fun h => ?_
      have hfirst := h n
      rw [get?_nil, get?_cons_self] at hfirst
      cases hfirst
    | cons n' hn' v' r' =>
      rw [matchWith, Bool.and_eq_true, Bool.and_eq_true, beq_iff_eq, ih, and_assoc]
      constructor
      · rintro ⟨rfl, h⟩
        exact rel_get?_cons_iff.mpr h
      · intro h
        obtain rfl := first_eq_of_rel h
        exact ⟨rfl, rel_get?_cons_iff.mp h⟩

end Matching

theorem forall_get?_iff {P : String → α → Prop} {m : NameMap α} :
    (∀ name value, m.get? name = some value → P name value) ↔ ∀ e ∈ m.toList, P e.1 e.2 := by
  simp only [← mem_toList_iff, Prod.forall]

/-- Entries with distinct names correspond to values with the same names, in another order. -/
def Corresponds (R : String → α → β → Prop) (entries : List (String × α))
    (values : List (String × β)) : Prop :=
  (entries.map Prod.fst).Nodup ∧ ∃ between,
    List.Forall₂ (fun e v => v.1 = e.1 ∧ R e.1 e.2 v.2) entries between ∧ between.Perm values

theorem map_fst_eq_of_forall₂ {R : String → α → β → Prop} {entries : List (String × α)}
    {values : List (String × β)}
    (h : List.Forall₂ (fun e v => v.1 = e.1 ∧ R e.1 e.2 v.2) entries values) :
    values.map Prod.fst = entries.map Prod.fst := by
  induction h with
  | nil => rfl
  | cons hev _ ih => rw [List.map_cons, List.map_cons, hev.1, ih]

namespace Corresponds

variable {R : String → α → β → Prop} {entries : List (String × α)} {values : List (String × β)}

theorem nodup_right (h : Corresponds R entries values) : (values.map Prod.fst).Nodup := by
  obtain ⟨hnodup, between, hbetween, hperm⟩ := h
  rw [← (hperm.map Prod.fst).nodup_iff, map_fst_eq_of_forall₂ hbetween]
  exact hnodup

theorem rel_find? (h : Corresponds R entries values) (name : String) :
    Option.Rel (R name) ((entries.find? fun e => e.1 == name).map Prod.snd)
      ((values.find? fun e => e.1 == name).map Prod.snd) := by
  rw [find?_eq_lastNamed? h.1, find?_eq_lastNamed? h.nodup_right]
  obtain ⟨hnodup, between, hbetween, hperm⟩ := h
  have hnodup' : (between.map Prod.fst).Nodup := by rwa [map_fst_eq_of_forall₂ hbetween]
  rw [← lastNamed?_perm hperm hnodup']
  exact rel_lastNamed? hbetween name

end Corresponds

end ComponentGraph.SortedEntries
