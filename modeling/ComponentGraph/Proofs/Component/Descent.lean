import ComponentGraph.Application.Edit

/-!
# Finding components in two parts

An id can be cut anywhere between its names. The first part finds a component, and the second part
is looked up in what was found, which has to be a composite. So a composite that is put into
another one is reached there under its name, with all that it holds.
-/

set_option autoImplicit false

namespace ComponentGraph

namespace Component

theorem descend_leaf (l : Leaf) {names : List String} (h : names ≠ []) :
    (leaf l).descend names = none := by
  obtain ⟨name, names, rfl⟩ := List.exists_cons_of_ne_nil h
  rw [descend]

theorem descend_composite (g : Composite) {names : List String} (h : names ≠ []) :
    (composite g).descend names = g.find? ⟨names⟩ := by
  obtain ⟨name, names, rfl⟩ := List.exists_cons_of_ne_nil h
  rw [descend, Composite.find?]

theorem descend_append (c : Component) (p q : List String) :
    c.descend (p ++ q) = (c.descend p).bind fun d => d.descend q := by
  induction p generalizing c with
  | nil => rw [List.nil_append, descend, Option.bind_some]
  | cons name p ih =>
    cases c with
    | leaf l => rw [List.cons_append, descend, descend, Option.bind_none]
    | composite g =>
      rw [List.cons_append, descend, descend, Option.bind_assoc]
      congr 1
      funext child
      exact ih child

theorem descend_eq_some_iff {c d : Component} {names : List String} (h : names ≠ []) :
    c.descend names = some d ↔ ∃ g, c = composite g ∧ g.find? ⟨names⟩ = some d := by
  cases c with
  | leaf l =>
    rw [descend_leaf l h]
    exact iff_of_false nofun nofun
  | composite g =>
    rw [descend_composite g h]
    constructor
    · exact fun hd => ⟨g, rfl, hd⟩
    · rintro ⟨_, ⟨⟩, hd⟩
      exact hd

end Component

theorem Composite.find?_append (root : Composite) {p : List String} (hp : p ≠ [])
    (q : List String) : root.find? ⟨p ++ q⟩ = (root.find? ⟨p⟩).bind fun c => c.descend q := by
  rw [← Component.descend_composite root (List.append_ne_nil_of_left_ne_nil hp q),
    Component.descend_append, Component.descend_composite root hp]

theorem Application.find?_setComponent (a : Application) (name : String) (c : Component)
    (names : List String) : (a.setComponent name c).find? ⟨name :: names⟩ = c.descend names := by
  have hget : (a.root.components.insert name c).get? name = some c := by
    rw [SortedEntries.get?_insert, if_pos rfl]
  change ((a.root.components.insert name c).get? name).bind (fun child => child.descend names) = _
  rw [hget, Option.bind_some]

/-- Looking up follows the cuts of an id, and stops at a leaf. An application that is put into
another one keeps all its ids, with the new name in front. -/
theorem Composite.find?_append_iff (root : Composite) {p q : List String} (hp : p ≠ [])
    (hq : q ≠ []) :
    (∀ c, root.find? ⟨p ++ q⟩ = some c ↔
      ∃ g, root.find? ⟨p⟩ = some (.composite g) ∧ g.find? ⟨q⟩ = some c) ∧
    (∀ l, root.find? ⟨p⟩ = some (.leaf l) → root.find? ⟨p ++ q⟩ = none) ∧
    root.find? ⟨[]⟩ = none ∧
    ∀ (a b : Application) (name : String),
      (b.setComponent name (.composite a.root)).find? ⟨name :: q⟩ = a.find? ⟨q⟩ ∧
        (a.mount name).find? ⟨name :: q⟩ = a.find? ⟨q⟩ := by
  refine ⟨fun c => ?_, fun l hl => ?_, rfl, fun a b name => ?_⟩
  · rw [find?_append root hp, Option.bind_eq_some_iff]
    constructor
    · rintro ⟨d, hd, hc⟩
      obtain ⟨g, rfl, hg⟩ := (Component.descend_eq_some_iff hq).mp hc
      exact ⟨g, hd, hg⟩
    · rintro ⟨g, hg, hc⟩
      exact ⟨.composite g, hg, (Component.descend_eq_some_iff hq).mpr ⟨g, rfl, hc⟩⟩
  · rw [find?_append root hp, hl, Option.bind_some, Component.descend_leaf l hq]
  · have hbelow : (Component.composite a.root).descend q = a.find? ⟨q⟩ :=
      Component.descend_composite a.root hq
    rw [Application.mount, Application.find?_setComponent, Application.find?_setComponent]
    exact ⟨hbelow, hbelow⟩

/-- A hall with a line of pumps and with a gauge, which is a leaf. -/
def refinery : Composite :=
  { (∅ : Composite) with components := .ofList [("hall", .composite
    { (∅ : Composite) with components := .ofList [("gauge", .leaf {}), ("line", .composite
      { (∅ : Composite) with components := .ofList [("pump", .leaf { type := ⟨"P"⟩ })] })] })] }

theorem Composite.find?_append_iff_refinery :
    ["hall", "line"] ≠ [] ∧ ["hall", "gauge"] ≠ [] ∧ ["pump"] ≠ [] ∧
    refinery.find? ⟨["hall", "line", "pump"]⟩ = some (.leaf { type := ⟨"P"⟩ }) ∧
    refinery.find? ⟨["hall", "gauge", "pump"]⟩ = none ∧
    ((⟨refinery⟩ : Application).mount "site").find? ⟨["site", "hall", "line", "pump"]⟩ =
      some (.leaf { type := ⟨"P"⟩ }) := by
  have hpump : ["pump"] ≠ [] := List.cons_ne_nil _ _
  have hline : ["hall", "line"] ≠ [] := List.cons_ne_nil _ _
  have hgauge : ["hall", "gauge"] ≠ [] := List.cons_ne_nil _ _
  have hfound : refinery.find? ⟨["hall", "line", "pump"]⟩ = some (.leaf { type := ⟨"P"⟩ }) :=
    ((find?_append_iff refinery hline hpump).1 _).mpr ⟨_, rfl, rfl⟩
  refine ⟨hline, hgauge, hpump, hfound, ?_, ?_⟩
  · exact (find?_append_iff refinery hgauge hpump).2.1 {} rfl
  · have hid : ["hall", "line", "pump"] ≠ [] := List.cons_ne_nil _ _
    obtain ⟨-, -, -, hmount⟩ := find?_append_iff refinery hline hid
    rw [(hmount ⟨refinery⟩ .empty "site").2]
    exact hfound

end ComponentGraph
