import ComponentGraph.Application.Edit
import ComponentGraph.Manifest
import ComponentGraph.Proofs.Component.Descent
import ComponentGraph.Proofs.Component.Refilled
import ComponentGraph.Proofs.ConfigValue
import ComponentGraph.Proofs.NameMap
import ComponentGraph.Proofs.Succeeds
import ComponentGraph.Yaml.Tree

/-!
# Equality of components

Components are equal when along each path of names both hold a component or neither does, and the
two are alike in what they have themselves. So equality inherits from configuration values that it
is symmetric and transitive, and which components equal themselves.
-/

set_option autoImplicit false

namespace ComponentGraph

/-- What two components have themselves is the same; their children are left out. -/
structure Component.Alike (c d : Component) : Prop where
  type : c.type = d.type
  configuration : ∀ key, Option.Rel (fun v w => v.same w = true) (c.configuration.get? key)
    (d.configuration.get? key)
  leafInterfaces : c.leaf?.map Leaf.interfaces = d.leaf?.map Leaf.interfaces
  compositeInterfaces :
    c.composite?.map Composite.interfaces = d.composite?.map Composite.interfaces
  bindings : c.composite?.map Composite.bindings = d.composite?.map Composite.bindings

def Component.NanFree (c : Component) : Prop :=
  ∀ names d, c.descend names = some d → ∀ key v, d.configuration.get? key = some v → v.NanFree

theorem Leaf.same_iff {a b : Leaf} :
    a.same b = true ↔ (Component.leaf a).Alike (.leaf b) := by
  rw [Leaf.same, Bool.and_eq_true, Bool.and_eq_true, beq_iff_eq, beq_iff_eq,
    SortedEntries.matchWith_iff]
  constructor
  · rintro ⟨⟨htype, hconfiguration⟩, hinterfaces⟩
    exact ⟨htype, hconfiguration, congrArg some hinterfaces, rfl, rfl⟩
  · intro h
    exact ⟨⟨h.type, h.configuration⟩, Option.some.inj h.leafInterfaces⟩

theorem Composite.sameChildren_eq_matchWith {low low' : Option String}
    {m : SortedEntries Component low} {m' : SortedEntries Component low'} :
    Composite.sameChildren m m' = m.matchWith Component.same m' := by
  induction m generalizing low' with
  | nil => cases m' <;> rfl
  | cons n hn c r ih =>
    cases m' with
    | nil => rfl
    | cons n' hn' c' r' => rw [sameChildren, SortedEntries.matchWith, ih]

theorem Composite.same_iff {a b : Composite} :
    a.same b = true ↔ (Component.composite a).Alike (.composite b) ∧
      ∀ name, Option.Rel (fun c d => c.same d = true) (a.components.get? name)
        (b.components.get? name) := by
  rw [← SortedEntries.matchWith_iff, ← sameChildren_eq_matchWith]
  cases a
  cases b
  rw [Composite.same]
  simp only [Bool.and_eq_true, beq_iff_eq, SortedEntries.matchWith_iff]
  constructor
  · rintro ⟨⟨⟨⟨htype, hconfiguration⟩, hchildren⟩, hinterfaces⟩, hbindings⟩
    exact ⟨⟨htype, hconfiguration, rfl, congrArg some hinterfaces, congrArg some hbindings⟩,
      hchildren⟩
  · rintro ⟨h, hchildren⟩
    exact ⟨⟨⟨⟨h.type, h.configuration⟩, hchildren⟩, Option.some.inj h.compositeInterfaces⟩,
      Option.some.inj h.bindings⟩

namespace Component

theorem alike_self_iff {c : Component} :
    c.Alike c ↔ ∀ key v, c.configuration.get? key = some v → v.NanFree := by
  simp only [← ConfigValue.same_self_iff]
  constructor
  · exact fun h key => rel_self_iff.mp (h.configuration key)
  · exact fun h => ⟨rfl, fun key => rel_self_iff.mpr (h key), rfl, rfl, rfl⟩

theorem Alike.symm {c d : Component} (h : c.Alike d) : d.Alike c where
  type := h.type.symm
  configuration key := rel_symm (h.configuration key) fun _ _ => ConfigValue.same_symm
  leafInterfaces := h.leafInterfaces.symm
  compositeInterfaces := h.compositeInterfaces.symm
  bindings := h.bindings.symm

theorem Alike.trans {c d e : Component} (h : c.Alike d) (h' : d.Alike e) : c.Alike e where
  type := h.type.trans h'.type
  configuration key :=
    rel_trans (h.configuration key) (h'.configuration key) fun _ _ _ => ConfigValue.same_trans
  leafInterfaces := h.leafInterfaces.trans h'.leafInterfaces
  compositeInterfaces := h.compositeInterfaces.trans h'.compositeInterfaces
  bindings := h.bindings.trans h'.bindings

/-- Two walks meet related components when the roots are related and the walks from their children
meet related components. -/
theorem rel_descend_iff {R : Component → Component → Prop} {a b : Composite} :
    (∀ names, Option.Rel R ((composite a).descend names) ((composite b).descend names)) ↔
      R (.composite a) (.composite b) ∧ ∀ name,
        Option.Rel (fun c d => ∀ names, Option.Rel R (c.descend names) (d.descend names))
          (a.components.get? name) (b.components.get? name) := by
  constructor
  · intro h
    constructor
    · cases h [] with
      | some h => exact h
    · intro name
      have hwalk names := h (name :: names)
      simp only [descend] at hwalk
      generalize a.components.get? name = c, b.components.get? name = d at hwalk
      cases c <;> cases d
      · exact .none
      · cases hwalk []
      · cases hwalk []
      · exact .some hwalk
  · rintro ⟨hroot, hchildren⟩ names
    cases names with
    | nil => exact .some hroot
    | cons name names => exact rel_bind (hchildren name) fun c d h => h names

/-- Equal components are alike along every path, and no path is in one of them only. -/
theorem same_iff (c d : Component) :
    c.same d = true ↔ ∀ names, Option.Rel Alike (c.descend names) (d.descend names) := by
  match c, d with
  | leaf a, leaf b =>
    constructor
    · intro h names
      cases names with
      | nil => exact .some (Leaf.same_iff.mp h)
      | cons name names => exact .none
    · intro h
      cases h [] with
      | some h => exact Leaf.same_iff.mpr h
  | leaf a, composite b | composite b, leaf a =>
    -- a leaf has no list of bindings, not even an empty one
    refine iff_of_false nofun fun h => ?_
    cases h [] with
    | some h => cases h.bindings
  | composite a, composite b =>
    rw [same, Composite.same_iff, rel_descend_iff]
    refine and_congr_right fun _ => forall_congr' fun name => rel_congr fun child hchild d => ?_
    have := Composite.sizeOf_child_lt hchild
    exact same_iff child d
termination_by sizeOf c

theorem same_symm {c d : Component} (h : c.same d = true) : d.same c = true := by
  rw [same_iff] at h ⊢
  exact fun names => rel_symm (h names) fun _ _ => Alike.symm

theorem same_trans {c d e : Component} (h : c.same d = true) (h' : d.same e = true) :
    c.same e = true := by
  rw [same_iff] at h h' ⊢
  exact fun names => rel_trans (h names) (h' names) fun _ _ _ => Alike.trans

theorem same_self_iff {c : Component} : c.same c = true ↔ c.NanFree := by
  simp only [same_iff, rel_self_iff, alike_self_iff]
  rfl

end Component

namespace Application

/-- The root as a component, which is reached from itself along the empty path. -/
def whole (a : Application) : Component := .composite a.root

theorem beq_eq_same (a b : Application) : (a == b) = a.whole.same b.whole := by
  rw [whole, whole, Component.same]
  rfl

/-- Equality of applications is symmetric and transitive, and an application equals itself just when
no configuration in it holds a NaN. The order in which maps were filled is not compared; the order
of bindings and of the entries of configured mappings is. -/
theorem beq_partialEquivalence :
    (∀ a b : Application, (a == b) = true → (b == a) = true) ∧
    (∀ a b c : Application, (a == b) = true → (b == c) = true → (a == c) = true) ∧
    (∀ a : Application, (a == a) = true ↔ a.whole.NanFree) ∧
    (∀ a b c : Application, a.whole.Refilled b.whole → (a == c) = (b == c)) ∧
    (∀ a b : Application, (a == b) = true ↔
      ∀ names, Option.Rel Component.Alike (a.whole.descend names) (b.whole.descend names)) ∧
    (∀ xs ys, (ConfigValue.mapping xs == ConfigValue.mapping ys) = true ↔
      List.Forall₂ (fun e e' => (e.1 == e'.1) = true ∧ (e.2 == e'.2) = true) xs ys) ∧
    ∀ {δ : Type} [Document δ] (d : δ) (a b : Application), Manifest.decode d = .ok a →
      Manifest.decode d = .ok b → ((a == b) = true ↔ a.whole.NanFree) := by
  have hself (a : Application) : (a == a) = true ↔ a.whole.NanFree := by
    rw [beq_eq_same]
    exact Component.same_self_iff
  simp only [beq_eq_same] at hself ⊢
  refine ⟨fun a b => Component.same_symm, fun a b c => Component.same_trans, hself, ?_,
    fun a b => Component.same_iff a.whole b.whole, fun xs ys => ConfigValue.sameEntries_iff, ?_⟩
  · intro a b c h
    rw [h.eq]
  · intro δ _ d a b ha hb
    rw [ha] at hb
    cases hb
    exact hself a

/-- A silo whose valves were put in in this order. -/
def silo (valves : List String) : Application :=
  ⟨{ (∅ : Composite) with components := .ofList (valves.map fun v => (v, .leaf { type := ⟨v⟩ })) }⟩

theorem beq_partialEquivalence_silo :
    (silo ["inlet", "outlet"]).whole.Refilled (silo ["outlet", "inlet"]).whole ∧
    (silo ["inlet", "outlet"] == silo ["outlet", "inlet"]) = true ∧
    (silo ["outlet", "inlet"] == silo ["inlet", "outlet"]) = true ∧
    (silo ["inlet", "outlet"] == silo ["inlet", "outlet"]) = true ∧
    Manifest.decode Yaml.Tree.null = .ok empty ∧ (empty == empty) = true ∧ empty.whole.NanFree := by
  obtain ⟨hsymm, htrans, -, hrefilled, -, -, hdecode⟩ := beq_partialEquivalence
  have hvalves : (silo ["inlet", "outlet"]).whole.Refilled (silo ["outlet", "inlet"]).whole := by
    refine .composite rfl SortedEntries.refilled_empty (.intro (by decide) (by decide) ?_)
      SortedEntries.refilled_empty rfl
    intro name v v' hv hv'
    obtain ⟨_, -, ⟨⟩⟩ := List.mem_map.mp hv
    obtain ⟨_, -, ⟨⟩⟩ := List.mem_map.mp hv'
    exact .leaf rfl SortedEntries.refilled_empty SortedEntries.refilled_empty
  have hequal : (silo ["inlet", "outlet"] == silo ["outlet", "inlet"]) = true := by
    rw [hrefilled _ _ _ hvalves]
    decide
  have hempty : Manifest.decode Yaml.Tree.null = .ok empty := rfl
  have hself : (empty == empty) = true := by decide
  exact ⟨hvalves, hequal, hsymm _ _ hequal, htrans _ _ _ hequal (hsymm _ _ hequal), hempty, hself,
    (hdecode _ _ _ hempty hempty).mp hself⟩

example : let b (left right : String) : Binding := ⟨⟨⟨[left]⟩, none⟩, ⟨⟨[right]⟩, none⟩⟩
    ((empty.bind (b "tank" "pump")).bind (b "pump" "valve") ==
      (empty.bind (b "pump" "valve")).bind (b "tank" "pump")) = false := by
  decide

example : (ConfigValue.mapping [(.int 1, .null), (.int 2, .null)] ==
    ConfigValue.mapping [(.int 2, .null), (.int 1, .null)]) = false := by
  decide

end Application

end ComponentGraph
