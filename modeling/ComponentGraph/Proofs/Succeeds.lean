import Mathlib.Data.List.Forall2

/-!
# Computations that may fail

What it means for a computation in `Except` to give a value, for each way of putting computations
together, and which value it gives. Two optional values that are related are there together.
-/

set_option autoImplicit false

namespace ComponentGraph

variable {ε α β : Type}

def Succeeds (r : Except ε α) : Prop := ∃ a, r = .ok a

@[simp] theorem succeeds_ok (a : α) : Succeeds (.ok a : Except ε α) := ⟨a, rfl⟩

@[simp] theorem succeeds_pure (a : α) : Succeeds (pure a : Except ε α) := ⟨a, rfl⟩

@[simp] theorem not_succeeds_error (e : ε) : ¬ Succeeds (.error e : Except ε α) := nofun

theorem succeeds_bind {x : Except ε α} {f : α → Except ε β} :
    Succeeds (x >>= f) ↔ ∃ a, x = .ok a ∧ Succeeds (f a) := by
  cases x with
  | ok a => simp [bind, Except.bind]
  | error e => simp [bind, Except.bind]

/-- When the rest does not depend on the value, both parts have to succeed. -/
theorem succeeds_bind_iff {x : Except ε α} {f : α → Except ε β} {q : Prop}
    (h : ∀ a, Succeeds (f a) ↔ q) : Succeeds (x >>= f) ↔ Succeeds x ∧ q := by
  simp only [succeeds_bind, h, exists_and_right]
  rfl

@[simp] theorem succeeds_bind_pure {x : Except ε α} {f : α → β} :
    Succeeds (x >>= fun a => pure (f a)) ↔ Succeeds x := by
  rw [succeeds_bind_iff (q := True) fun a => by simp, and_true]

@[simp] theorem succeeds_map {x : Except ε α} {f : α → β} :
    Succeeds (x.map f) ↔ Succeeds x := by
  cases x with
  | ok a => simp [Except.map]
  | error e => simp [Except.map]

theorem bind_eq_ok_iff {x : Except ε α} {f : α → Except ε β} {b : β} :
    x >>= f = .ok b ↔ ∃ a, x = .ok a ∧ f a = .ok b := by
  cases x with
  | ok a => simp [bind, Except.bind]
  | error e => simp [bind, Except.bind]

theorem pure_eq_ok_iff {a b : α} : (pure a : Except ε α) = .ok b ↔ a = b := by
  simp [pure, Except.pure]

theorem map_eq_ok_iff {x : Except ε α} {f : α → β} {b : β} :
    x.map f = .ok b ↔ ∃ a, x = .ok a ∧ f a = b := by
  cases x with
  | ok a => simp [Except.map]
  | error e => simp [Except.map]

theorem map_eq_error_iff {x : Except ε α} {f : α → β} {e : ε} :
    x.map f = .error e ↔ x = .error e := by
  cases x <;> simp [Except.map]

theorem mapError_eq_ok_iff {ε' : Type} {x : Except ε α} {g : ε → ε'} {a : α} :
    x.mapError g = .ok a ↔ x = .ok a := by
  cases x <;> simp [Except.mapError]

theorem mapM_eq_ok_iff {f : α → Except ε β} {l : List α} {bs : List β} :
    l.mapM f = .ok bs ↔ List.Forall₂ (fun a b => f a = .ok b) l bs := by
  induction l generalizing bs with
  | nil => rw [List.mapM_nil, pure_eq_ok_iff, List.forall₂_nil_left_iff, eq_comm]
  | cons a l ih =>
    rw [List.mapM_cons, bind_eq_ok_iff, List.forall₂_cons_left_iff]
    simp only [bind_eq_ok_iff, pure_eq_ok_iff, ih]
    constructor
    · rintro ⟨b, hb, bs', hbs', rfl⟩
      exact ⟨b, bs', hb, hbs', rfl⟩
    · rintro ⟨b, bs', hb, hbs', rfl⟩
      exact ⟨b, hb, bs', hbs', rfl⟩

theorem mapM_eq_ok_map {f : α → Except ε β} {g : α → β} {l : List α}
    (h : ∀ a ∈ l, f a = .ok (g a)) : l.mapM f = .ok (l.map g) := by
  rw [mapM_eq_ok_iff, List.forall₂_map_right_iff, List.forall₂_same]
  exact h

theorem forall_mem_of_forall₂ {R : α → β → Prop} {P : β → Prop} (hR : ∀ a b, R a b → P b)
    {l : List α} {bs : List β} (h : List.Forall₂ R l bs) : ∀ b ∈ bs, P b := by
  induction h with
  | nil => exact nofun
  | cons hab _ ih => exact List.forall_mem_cons.mpr ⟨hR _ _ hab, ih⟩

theorem mapM_attach (f : α → Except ε β) (l : List α) :
    (l.attach.mapM fun a => f a.1) = l.mapM f := by
  have hmap : l.attach.mapM (f ∘ Subtype.val) = (l.attach.map Subtype.val).mapM f :=
    List.mapM_map.symm
  rw [List.attach_map_subtype_val] at hmap
  exact hmap

theorem mapM_congr {f g : α → Except ε β} {l : List α} (h : ∀ a ∈ l, f a = g a) :
    l.mapM f = l.mapM g := by
  rw [← mapM_attach f, ← mapM_attach g]
  congr 1
  funext a
  exact h a.1 a.2

theorem succeeds_mapM {f : α → Except ε β} {l : List α} :
    Succeeds (l.mapM f) ↔ ∀ a ∈ l, Succeeds (f a) := by
  induction l with
  | nil => simp
  | cons a l ih =>
    have hrest : ∀ b, Succeeds (l.mapM f >>= fun bs => pure (b :: bs)) ↔
        ∀ x ∈ l, Succeeds (f x) := by
      intro b
      rw [succeeds_bind_pure, ih]
    rw [List.mapM_cons, succeeds_bind_iff hrest, List.forall_mem_cons]

theorem toOption_eq_some_iff {x : Except ε α} {a : α} : x.toOption = some a ↔ x = .ok a := by
  cases x <;> simp [Except.toOption]

theorem toOption_bind (x : Except ε α) (f : α → Except ε β) :
    (x >>= f).toOption = x.toOption.bind fun a => (f a).toOption := by
  cases x <;> rfl

theorem toOption_map (x : Except ε α) (f : α → β) : (x.map f).toOption = x.toOption.map f := by
  cases x <;> rfl

theorem toOption_mapM {α' : Type} {f : α → Except ε β} {g : α' → Except ε β} {l : List α}
    {l' : List α'}
    (h : List.Forall₂ (fun a a' => (f a).toOption = (g a').toOption) l l') :
    (l.mapM f).toOption = (l'.mapM g).toOption := by
  induction h with
  | nil => rfl
  | cons hstep _ ih =>
    simp only [List.mapM_cons, toOption_bind, hstep, ih]

theorem exists_of_rel_some {R : α → β → Prop} {a : Option α} {y : β}
    (h : Option.Rel R a (some y)) : ∃ x, a = some x ∧ R x y := by
  cases h with
  | some h => exact ⟨_, rfl, h⟩

theorem exists_eq_some_iff_of_rel {R : α → β → Prop} {a : Option α} {b : Option β}
    (h : Option.Rel R a b) : (∃ y, b = some y) ↔ ∃ x, a = some x := by
  cases h with
  | none => exact iff_of_false nofun nofun
  | some _ => exact iff_of_true ⟨_, rfl⟩ ⟨_, rfl⟩

/-- When the first value determines the second, the second is there just when a first one is that
determines it. -/
theorem eq_some_iff_of_rel {R : α → β → Prop} (hR : ∀ x y y', R x y → R x y' → y = y')
    {a : Option α} {b : Option β} (h : Option.Rel R a b) (y : β) :
    b = some y ↔ ∃ x, a = some x ∧ R x y := by
  cases h with
  | none => exact iff_of_false nofun nofun
  | @some x y' hxy' =>
    constructor
    · rintro ⟨⟩
      exact ⟨x, rfl, hxy'⟩
    · rintro ⟨_, ⟨⟩, hxy⟩
      rw [hR x y' y hxy' hxy]

theorem rel_imp {R S : α → β → Prop} {a : Option α} {b : Option β} (h : Option.Rel R a b)
    (hRS : ∀ x y, R x y → S x y) : Option.Rel S a b := by
  cases h with
  | none => exact .none
  | some h => exact .some (hRS _ _ h)

theorem rel_congr {R S : α → β → Prop} {a : Option α} {b : Option β}
    (h : ∀ x, a = some x → ∀ y, R x y ↔ S x y) : Option.Rel R a b ↔ Option.Rel S a b := by
  constructor
  · rintro (hR | _)
    · exact .some ((h _ rfl _).mp hR)
    · exact .none
  · rintro (hS | _)
    · exact .some ((h _ rfl _).mpr hS)
    · exact .none

theorem rel_bind {α' β' : Type} {R : α → β → Prop} {S : α' → β' → Prop}
    {a : Option α} {b : Option β} {f : α → Option α'} {g : β → Option β'} (h : Option.Rel R a b)
    (hfg : ∀ x y, R x y → Option.Rel S (f x) (g y)) : Option.Rel S (a.bind f) (b.bind g) := by
  cases h with
  | none => exact .none
  | some h => exact hfg _ _ h

theorem rel_symm {R : α → β → Prop} {S : β → α → Prop} {a : Option α} {b : Option β}
    (h : Option.Rel R a b) (hRS : ∀ x y, R x y → S y x) : Option.Rel S b a := by
  cases h with
  | none => exact .none
  | some h => exact .some (hRS _ _ h)

theorem rel_trans {R : α → α → Prop} {a b c : Option α} (h : Option.Rel R a b)
    (h' : Option.Rel R b c) (hR : ∀ x y z, R x y → R y z → R x z) : Option.Rel R a c := by
  cases h with
  | none => exact h'
  | some h =>
    cases h' with
    | some h' => exact .some (hR _ _ _ h h')

theorem rel_self_iff {R : α → α → Prop} {a : Option α} :
    Option.Rel R a a ↔ ∀ x, a = some x → R x x := by
  cases a with
  | none => exact iff_of_true .none nofun
  | some x =>
    constructor
    · rintro (h | _) _ ⟨⟩
      exact h
    · exact fun h => .some (h x rfl)

end ComponentGraph
