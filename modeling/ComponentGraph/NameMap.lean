/-!
# Maps from names to values

A map keeps its entries in one list whose names strictly increase, and the order is part of the
type: a `SortedEntries α low` holds only names above `low`. So two maps are equal exactly when
they look up alike (`ext`), whatever order their entries were inserted in.
-/

set_option autoImplicit false

namespace ComponentGraph

universe u v

/-- A name may stand after `low`: there is no such bound, or the name is greater. -/
def Above : Option String → String → Prop
  | none, _ => True
  | some low, name => low < name

theorem above_some {low name : String} : Above (some low) name ↔ low < name := Iff.rfl

theorem Above.trans {low : Option String} {m n : String} (hm : Above low m) (h : m < n) :
    Above low n := by
  cases low with
  | none => trivial
  | some l => exact String.lt_trans hm h

/-- Entries with strictly increasing names, all of them above `low`. -/
inductive SortedEntries (α : Type u) : Option String → Type u
  | nil {low : Option String} : SortedEntries α low
  | cons {low : Option String} (name : String) (above : Above low name) (value : α)
      (rest : SortedEntries α (some name)) : SortedEntries α low

abbrev NameMap (α : Type u) : Type u := SortedEntries α none

namespace SortedEntries

variable {α : Type u} {β : Type v} {low : Option String}

instance : EmptyCollection (SortedEntries α low) := ⟨.nil⟩

instance : Inhabited (SortedEntries α low) := ⟨.nil⟩

def toList {low : Option String} : SortedEntries α low → List (String × α)
  | .nil => []
  | .cons name _ value rest => (name, value) :: rest.toList

def names (m : SortedEntries α low) : List String := m.toList.map Prod.fst

def size (m : SortedEntries α low) : Nat := m.toList.length

def isEmpty : SortedEntries α low → Bool
  | .nil => true
  | .cons .. => false

def get? {low : Option String} (m : SortedEntries α low) (name : String) : Option α :=
  match m with
  | .nil => none
  | .cons n _ value rest => if name = n then some value else rest.get? name

def contains (m : SortedEntries α low) (name : String) : Bool := (m.get? name).isSome

theorem lt_of_not_lt_of_ne {a b : String} (h : ¬ a < b) (hne : a ≠ b) : b < a := by
  refine Decidable.byContradiction fun h' => hne ?_
  exact String.le_antisymm (String.not_lt.mp h') (String.not_lt.mp h)

/-- Puts `value` under `name`, in place of a value that is already there. -/
def insertAbove {low : Option String} (m : SortedEntries α low) (name : String)
    (above : Above low name) (value : α) : SortedEntries α low :=
  match m with
  | .nil => .cons name above value .nil
  | .cons n hn v rest =>
    if hlt : name < n then .cons name above value (.cons n (above_some.mpr hlt) v rest)
    else if heq : name = n then .cons n hn value rest
    else .cons n hn v
      (rest.insertAbove name (above_some.mpr (lt_of_not_lt_of_ne hlt heq)) value)

def insert (m : NameMap α) (name : String) (value : α) : NameMap α :=
  m.insertAbove name trivial value

def relax {n : String} (h : Above low n) : SortedEntries α (some n) → SortedEntries α low
  | .nil => .nil
  | .cons m hm v rest => .cons m (h.trans hm) v rest

def erase {low : Option String} (m : SortedEntries α low) (name : String) :
    SortedEntries α low :=
  match m with
  | .nil => .nil
  | .cons n hn v rest => if name = n then rest.relax hn else .cons n hn v (rest.erase name)

/-- The map of a list of entries; of two entries with one name the later counts. -/
def ofList (entries : List (String × α)) : NameMap α :=
  entries.foldl (fun m e => m.insert e.1 e.2) ∅

/-- Both maps hold the same names, with related values. -/
def matchWith {l₁ l₂ : Option String} (same : α → β → Bool) :
    SortedEntries α l₁ → SortedEntries β l₂ → Bool
  | .nil, .nil => true
  | .cons n₁ _ v₁ r₁, .cons n₂ _ v₂ r₂ => n₁ == n₂ && same v₁ v₂ && matchWith same r₁ r₂
  | _, _ => false

theorem get?_nil (name : String) : (nil : SortedEntries α low).get? name = none := rfl

theorem get?_cons (n name : String) (h : Above low n) (v : α) (r : SortedEntries α (some n)) :
    (cons n h v r).get? name = if name = n then some v else r.get? name := rfl

theorem above_of_mem {m : SortedEntries α low} {e : String × α} (h : e ∈ m.toList) :
    Above low e.1 := by
  induction m with
  | nil => cases h
  | cons n hn v rest ih =>
    rcases List.mem_cons.mp h with rfl | h
    · exact hn
    · exact hn.trans (ih h)

theorem get?_eq_none_of_not_above {m : SortedEntries α low} {name : String}
    (h : ¬ Above low name) : m.get? name = none := by
  induction m with
  | nil => rfl
  | cons n hn v rest ih =>
    have hne : name ≠ n := fun he => h (he ▸ hn)
    rw [get?_cons, if_neg hne]
    exact ih fun h' => h (hn.trans h')

theorem get?_self_eq_none (n : String) (m : SortedEntries α (some n)) : m.get? n = none :=
  get?_eq_none_of_not_above fun h => String.lt_irrefl n (above_some.mp h)

theorem mem_toList_iff {m : SortedEntries α low} {name : String} {value : α} :
    (name, value) ∈ m.toList ↔ m.get? name = some value := by
  induction m with
  | nil => simp [toList, get?]
  | cons n hn v rest ih =>
    rw [toList, List.mem_cons, get?_cons]
    by_cases h : name = n
    · subst h
      rw [if_pos rfl]
      constructor
      · rintro (h | h)
        · cases h
          rfl
        · exact absurd (above_of_mem h) (String.lt_irrefl name)
      · intro h
        cases h
        exact .inl rfl
    · rw [if_neg h, ← ih]
      exact ⟨fun h' => h'.resolve_left fun he => h (congrArg Prod.fst he), .inr⟩

theorem pairwise_toList (m : SortedEntries α low) :
    m.toList.Pairwise fun a b => a.1 < b.1 := by
  induction m with
  | nil => exact .nil
  | cons n hn v rest ih => exact .cons (fun e he => above_of_mem he) ih

theorem toList_injective {m₁ m₂ : SortedEntries α low} (h : m₁.toList = m₂.toList) : m₁ = m₂ := by
  induction m₁ with
  | nil =>
    cases m₂ with
    | nil => rfl
    | cons => cases h
  | cons n hn v rest ih =>
    cases m₂ with
    | nil => cases h
    | cons n' hn' v' rest' =>
      simp only [toList, List.cons.injEq, Prod.mk.injEq] at h
      obtain ⟨⟨rfl, rfl⟩, h⟩ := h
      rw [ih h]

theorem get?_cons_ne_of_lt {a b : String} {x y : α} {ha : Above low a} {hb : Above low b}
    {r : SortedEntries α (some a)} {r' : SortedEntries α (some b)} (h : a < b) :
    (cons a ha x r).get? a ≠ (cons b hb y r').get? a := by
  have hne : a ≠ b := fun he => String.lt_irrefl b (he ▸ h)
  rw [get?_cons, if_pos rfl, get?_cons, if_neg hne,
    get?_eq_none_of_not_above fun hba => String.lt_asymm h (above_some.mp hba)]
  exact Option.some_ne_none x

instance [DecidableEq α] : DecidableEq (SortedEntries α low) := fun m₁ m₂ =>
  decidable_of_iff (m₁.toList = m₂.toList) ⟨toList_injective, fun h => h ▸ rfl⟩

/-- Maps that look up alike are equal. -/
theorem ext {m₁ m₂ : SortedEntries α low} (h : ∀ name, m₁.get? name = m₂.get? name) :
    m₁ = m₂ := by
  induction m₁ with
  | nil =>
    cases m₂ with
    | nil => rfl
    | cons n _ v rest => simpa [get?] using h n
  | cons n hn v rest ih =>
    cases m₂ with
    | nil => simpa [get?] using h n
    | cons n' hn' v' rest' =>
      have hname : n = n' := by
        refine Decidable.byContradiction fun hne => ?_
        by_cases hlt : n < n'
        · exact get?_cons_ne_of_lt hlt (h n)
        · exact get?_cons_ne_of_lt (lt_of_not_lt_of_ne hlt hne) (h n').symm
      subst hname
      have hv : v = v' := by simpa [get?] using h n
      have hrest : rest = rest' := by
        apply ih
        intro name
        by_cases hname : name = n
        · rw [hname, get?_self_eq_none, get?_self_eq_none]
        · simpa [get?_cons, hname] using h name
      rw [hv, hrest]

theorem get?_insertAbove (m : SortedEntries α low) (name : String) (above : Above low name)
    (value : α) (name' : String) :
    (m.insertAbove name above value).get? name' =
      if name' = name then some value else m.get? name' := by
  induction m with
  | nil => rfl
  | cons n hn v rest ih =>
    rw [insertAbove]
    split
    · rfl
    · split
      · rename_i heq
        subst heq
        simp only [get?_cons]
        split <;> rfl
      · rename_i hlt heq
        rw [get?_cons, get?_cons, ih]
        by_cases h : name' = n
        · subst h
          rw [if_pos rfl, if_pos rfl, if_neg fun h => heq h.symm]
        · rw [if_neg h, if_neg h]

@[simp] theorem get?_insert (m : NameMap α) (name : String) (value : α) (name' : String) :
    (m.insert name value).get? name' = if name' = name then some value else m.get? name' :=
  get?_insertAbove m name trivial value name'

theorem get?_relax {n : String} (h : Above low n) (m : SortedEntries α (some n))
    (name : String) : (m.relax h).get? name = m.get? name := by
  cases m <;> rfl

@[simp] theorem get?_erase (m : SortedEntries α low) (name name' : String) :
    (m.erase name).get? name' = if name' = name then none else m.get? name' := by
  induction m with
  | nil => simp [erase, get?]
  | cons n hn v rest ih =>
    rw [erase]
    by_cases h : name = n
    · subst h
      rw [if_pos rfl, get?_relax, get?_cons]
      by_cases h' : name' = name
      · subst h'
        rw [if_pos rfl, get?_self_eq_none]
      · rw [if_neg h', if_neg h']
    · rw [if_neg h, get?_cons, get?_cons, ih]
      by_cases h' : name' = n
      · subst h'
        rw [if_pos rfl, if_neg fun he => h he.symm, if_pos rfl]
      · rw [if_neg h', if_neg h']

end SortedEntries

end ComponentGraph
