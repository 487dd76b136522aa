import ComponentGraph.ConfigValue
import Mathlib.Data.List.Forall2

/-!
# Equality of configuration values

Doubles are compared as numbers. That is symmetric and transitive, and a double equals itself unless
it is a NaN. Values inherit this: a value equals itself just when it holds no NaN, at any depth and
among the keys of mappings as well. Sequences and mappings are compared place by place.
-/

set_option autoImplicit false

namespace ComponentGraph

section Doubles

open Float.Model

/-- The same number, where the two zeros are one. A NaN is no number. -/
inductive SameNumber : UnpackedFloat → UnpackedFloat → Prop
  | infinity (s : UnpackedFloat.Sign) : SameNumber (.infinity s) (.infinity s)
  | zero (s s' : UnpackedFloat.Sign) : SameNumber (.zero s) (.zero s')
  | finite (s : UnpackedFloat.Sign) (m : Nat) (e : Int) (h : 0 < m) :
    SameNumber (.finite s m e h) (.finite s m e h)

theorem SameNumber.symm {a b : UnpackedFloat} (h : SameNumber a b) : SameNumber b a := by
  cases h <;> constructor

theorem SameNumber.trans {a b c : UnpackedFloat} (h : SameNumber a b) (h' : SameNumber b c) :
    SameNumber a c := by
  cases h <;> cases h' <;> constructor

theorem sameNumber_self_iff {a : UnpackedFloat} : SameNumber a a ↔ a.isNaN = false := by
  cases a with
  | notANumber => exact ⟨nofun, fun h => absurd h Bool.true_eq_false.mp⟩
  | infinity s => exact iff_of_true (.infinity s) rfl
  | zero s => exact iff_of_true (.zero s s) rfl
  | finite s m e h => exact iff_of_true (.finite s m e h) rfl

theorem finite_beq_iff {s : UnpackedFloat.Sign} {m m' : Nat} {e e' : Int} {h : 0 < m}
    {h' : 0 < m'} : (UnpackedFloat.finite s m e h).beq (.finite s m' e' h') = true ↔
      e = e' ∧ m = m' := by
  rw [← Int.compare_eq_eq, ← Nat.compare_eq_eq, ← Ordering.then_eq_eq]
  cases s with
  | positive =>
    change (some ((compare e e').then (compare m m')) == some .eq) = true ↔ _
    cases (compare e e').then (compare m m') <;> decide
  | negative =>
    change (some ((compare e e').then (compare m m')).swap == some .eq) = true ↔ _
    cases (compare e e').then (compare m m') <;> decide

theorem sameNumber_of_beq {a b : UnpackedFloat} (h : a.beq b = true) : SameNumber a b := by
  cases a with
  | notANumber => exact absurd h Bool.false_ne_true
  | infinity s =>
    cases b with
    | infinity s' =>
      obtain rfl : s = s' := by
        cases s <;> cases s' <;> first | rfl | exact absurd h Bool.false_ne_true
      exact .infinity s
    | _ => cases s <;> exact absurd h Bool.false_ne_true
  | zero s =>
    cases b with
    | zero s' => exact .zero s s'
    | notANumber => exact absurd h Bool.false_ne_true
    | infinity s' | finite s' => cases s' <;> exact absurd h Bool.false_ne_true
  | finite s m e hm =>
    cases b with
    | finite s' m' e' hm' =>
      obtain rfl : s = s' := by
        cases s <;> cases s' <;> first | rfl | exact absurd h Bool.false_ne_true
      obtain ⟨rfl, rfl⟩ := finite_beq_iff.mp h
      exact .finite s m e hm
    | infinity s' => cases s' <;> exact absurd h Bool.false_ne_true
    | zero s' => cases s <;> exact absurd h Bool.false_ne_true
    | notANumber => exact absurd h Bool.false_ne_true

theorem SameNumber.beq {a b : UnpackedFloat} (h : SameNumber a b) : a.beq b = true := by
  cases h with
  | infinity s => cases s <;> rfl
  | zero s s' => rfl
  | finite s m e h => exact finite_beq_iff.mpr ⟨rfl, rfl⟩

theorem double_beq_iff (x y : Float) :
    (x == y) = true ↔ SameNumber x.toModel.unpack y.toModel.unpack :=
  ⟨sameNumber_of_beq, SameNumber.beq⟩

theorem double_beq_self_iff (x : Float) : (x == x) = true ↔ x.isNaN = false :=
  (double_beq_iff x x).trans sameNumber_self_iff

theorem double_beq_symm {x y : Float} (h : (x == y) = true) : (y == x) = true := by
  rw [double_beq_iff] at h ⊢
  exact h.symm

theorem double_beq_trans {x y z : Float} (h : (x == y) = true) (h' : (y == z) = true) :
    (x == z) = true := by
  rw [double_beq_iff] at h h' ⊢
  exact h.trans h'

end Doubles

namespace ConfigValue

mutual

theorem same_symm : ∀ {v w : ConfigValue}, v.same w = true → w.same v = true
  | null, null, h => h
  | bool a, bool b, h => by
    rw [same, beq_iff_eq] at h ⊢
    exact h.symm
  | int a, int b, h => by
    rw [same, beq_iff_eq] at h ⊢
    exact h.symm
  | string a, string b, h => by
    rw [same, beq_iff_eq] at h ⊢
    exact h.symm
  | float x, float y, h => double_beq_symm h
  | sequence xs, sequence ys, h => @sameItems_symm xs ys h
  | mapping xs, mapping ys, h => @sameEntries_symm xs ys h

theorem sameItems_symm : ∀ {xs ys : List ConfigValue},
    same.sameItems xs ys = true → same.sameItems ys xs = true
  | [], [], h => h
  | x :: xs, y :: ys, h => by
    rw [same.sameItems, Bool.and_eq_true] at h ⊢
    exact ⟨same_symm h.1, sameItems_symm h.2⟩

theorem sameEntries_symm : ∀ {xs ys : List (ConfigValue × ConfigValue)},
    same.sameEntries xs ys = true → same.sameEntries ys xs = true
  | [], [], h => h
  | (k, x) :: xs, (k', y) :: ys, h => by
    rw [same.sameEntries, Bool.and_eq_true, Bool.and_eq_true] at h ⊢
    exact ⟨⟨same_symm h.1.1, same_symm h.1.2⟩, sameEntries_symm h.2⟩

end

mutual

theorem same_trans : ∀ {u v w : ConfigValue},
    u.same v = true → v.same w = true → u.same w = true
  | null, null, null, h, _ => h
  | bool a, bool b, bool c, h, h' => by
    rw [same, beq_iff_eq] at *
    exact h.trans h'
  | int a, int b, int c, h, h' => by
    rw [same, beq_iff_eq] at *
    exact h.trans h'
  | string a, string b, string c, h, h' => by
    rw [same, beq_iff_eq] at *
    exact h.trans h'
  | float x, float y, float z, h, h' => double_beq_trans h h'
  | sequence xs, sequence ys, sequence zs, h, h' => @sameItems_trans xs ys zs h h'
  | mapping xs, mapping ys, mapping zs, h, h' => @sameEntries_trans xs ys zs h h'

theorem sameItems_trans : ∀ {xs ys zs : List ConfigValue},
    same.sameItems xs ys = true → same.sameItems ys zs = true → same.sameItems xs zs = true
  | [], [], [], h, _ => h
  | x :: xs, y :: ys, z :: zs, h, h' => by
    rw [same.sameItems, Bool.and_eq_true] at *
    exact ⟨same_trans h.1 h'.1, sameItems_trans h.2 h'.2⟩

theorem sameEntries_trans : ∀ {xs ys zs : List (ConfigValue × ConfigValue)},
    same.sameEntries xs ys = true → same.sameEntries ys zs = true →
      same.sameEntries xs zs = true
  | [], [], [], h, _ => h
  | (_, x) :: xs, (_, y) :: ys, (_, z) :: zs, h, h' => by
    rw [same.sameEntries, Bool.and_eq_true, Bool.and_eq_true] at *
    exact ⟨⟨same_trans h.1.1 h'.1.1, same_trans h.1.2 h'.1.2⟩, sameEntries_trans h.2 h'.2⟩

end

/-- The second value stands somewhere in the first one, or is that value. -/
inductive Holds : ConfigValue → ConfigValue → Prop
  | self {v : ConfigValue} : Holds v v
  | item {items : List ConfigValue} {i v : ConfigValue} :
    i ∈ items → Holds i v → Holds (sequence items) v
  | key {entries : List (ConfigValue × ConfigValue)} {e : ConfigValue × ConfigValue}
      {v : ConfigValue} : e ∈ entries → Holds e.1 v → Holds (mapping entries) v
  | value {entries : List (ConfigValue × ConfigValue)} {e : ConfigValue × ConfigValue}
      {v : ConfigValue} : e ∈ entries → Holds e.2 v → Holds (mapping entries) v

def NanFree (v : ConfigValue) : Prop := ∀ x, v.Holds (float x) → x.isNaN = false

theorem nanFree_float (x : Float) : (float x).NanFree ↔ x.isNaN = false := by
  constructor
  · exact fun h => h x .self
  · rintro h _ ⟨⟩
    exact h

theorem nanFree_sequence (items : List ConfigValue) :
    (sequence items).NanFree ↔ ∀ i ∈ items, i.NanFree := by
  constructor
  · exact fun h i hi x hx => h x (.item hi hx)
  · rintro h x (_ | ⟨hi, hx⟩)
    exact h _ hi x hx

theorem nanFree_mapping (entries : List (ConfigValue × ConfigValue)) :
    (mapping entries).NanFree ↔ ∀ e ∈ entries, e.1.NanFree ∧ e.2.NanFree := by
  constructor
  · exact fun h e he => ⟨fun x hx => h x (.key he hx), fun x hx => h x (.value he hx)⟩
  · rintro h x (_ | _ | ⟨he, hx⟩ | ⟨he, hx⟩)
    · exact (h _ he).1 x hx
    · exact (h _ he).2 x hx

mutual

theorem same_self_iff : ∀ v : ConfigValue, v.same v = true ↔ v.NanFree
  | null => iff_of_true (by simp [same]) nofun
  | bool b => iff_of_true (by simp [same]) nofun
  | int i => iff_of_true (by simp [same]) nofun
  | string s => iff_of_true (by simp [same]) nofun
  | float x => (double_beq_self_iff x).trans (nanFree_float x).symm
  | sequence items => (sameItems_self_iff items).trans (nanFree_sequence items).symm
  | mapping entries => (sameEntries_self_iff entries).trans (nanFree_mapping entries).symm

theorem sameItems_self_iff : ∀ items : List ConfigValue,
    same.sameItems items items = true ↔ ∀ i ∈ items, i.NanFree
  | [] => by simp [same.sameItems]
  | i :: items => by
    rw [same.sameItems, Bool.and_eq_true, same_self_iff i, sameItems_self_iff items,
      List.forall_mem_cons]

theorem sameEntries_self_iff : ∀ entries : List (ConfigValue × ConfigValue),
    same.sameEntries entries entries = true ↔ ∀ e ∈ entries, e.1.NanFree ∧ e.2.NanFree
  | [] => by simp [same.sameEntries]
  | (k, v) :: entries => by
    rw [same.sameEntries, Bool.and_eq_true, Bool.and_eq_true, same_self_iff k, same_self_iff v,
      sameEntries_self_iff entries, List.forall_mem_cons]

end

example : let nan := sequence [float (.ofBits 0x7ff8000000000000)]
    nan.same nan = false ∧
      (float (.ofBits 0)).same (float (.ofBits 0x8000000000000000)) = true := by
  decide +kernel

theorem sameEntries_iff {xs ys : List (ConfigValue × ConfigValue)} :
    same.sameEntries xs ys = true ↔
      List.Forall₂ (fun e e' => e.1.same e'.1 = true ∧ e.2.same e'.2 = true) xs ys := by
  induction xs generalizing ys with
  | nil => cases ys <;> simp [same.sameEntries]
  | cons e xs ih => cases ys <;> simp [same.sameEntries, ih]

end ConfigValue

end ComponentGraph
