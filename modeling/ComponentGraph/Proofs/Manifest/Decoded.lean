import ComponentGraph.Proofs.Manifest.WellFormed
import ComponentGraph.Proofs.NameMap

/-!
# What a node decodes to

For each decoder, its parts when it succeeds. A map that is decoded from a mapping holds under each
name what the last entry with that name decodes to; `Option.Rel` says so for names that are there
and for names that are not.
-/

set_option autoImplicit false

namespace ComponentGraph

namespace Document

variable {δ : Type} [Document δ]

def last? (d : δ) (key : String) : Option δ :=
  (entries? d).bind fun entries => SortedEntries.lastNamed? entries key

/-- The last entry with a name in a section. -/
def named? (d : δ) (key name : String) : Option δ :=
  (present? d key).bind fun part => last? part name

theorem entries?_of_isNull {d : δ} (h : isNull d = true) : entries? d = none := by
  rw [isNull, kind] at h
  rw [entries?]
  split at h
  · rename_i hshape
    rw [hshape]
  all_goals cases h

theorem last?_of_isNull {d : δ} (h : isNull d = true) (key : String) : last? d key = none := by
  rw [last?, entries?_of_isNull h]
  rfl

theorem present?_of_isNull {d : δ} (h : isNull d = true) (key : String) :
    present? d key = none := by
  rw [present?, get?, entries?_of_isNull h]
  rfl

theorem isMapping_of_get? {d v : δ} {key : String} (h : get? d key = some v) : IsMapping d := by
  obtain ⟨entries, hentries, -⟩ := Option.bind_eq_some_iff.mp h
  exact ⟨entries, hentries⟩

theorem isNull_of_isMapping {d : δ} (h : IsMapping d) : ¬ isNull d = true := by
  intro hnull
  obtain ⟨entries, hentries⟩ := h
  cases hentries.symm.trans (entries?_of_isNull hnull)

end Document

namespace Manifest

open Document SortedEntries

section Entries

variable {δ α : Type}

/-- What is done for each entry of a mapping keeps its name. -/
theorem rel_of_mapM {f : String × δ → Except Fault (String × α)} {R : String → δ → α → Prop}
    (hf : ∀ e v, f e = .ok v → v.1 = e.1 ∧ R e.1 e.2 v.2) {entries : List (String × δ)}
    {values : List (String × α)} (h : entries.mapM f = .ok values) (name : String) :
    Option.Rel (R name) (lastNamed? entries name) ((ofList values).get? name) := by
  rw [get?_ofList]
  exact rel_lastNamed? ((mapM_eq_ok_iff.mp h).imp hf) name

end Entries

variable {δ α β : Type} [Document δ]

theorem rel_of_mapping {d : δ} {path : Path} {m : NameMap α}
    {f : String × δ → Except Fault (String × α)} {R : String → δ → α → Prop}
    (hf : ∀ e v, f e = .ok v → v.1 = e.1 ∧ R e.1 e.2 v.2)
    (h : (do
      let entries ← expectMapping d path
      let values ← entries.mapM f
      return ofList values) = .ok m) (name : String) :
    Option.Rel (R name) (last? d name) (m.get? name) := by
  simp only [bind_eq_ok_iff, pure_eq_ok_iff, expect_eq_ok_iff] at h
  obtain ⟨entries, hentries, values, hvalues, rfl⟩ := h
  rw [last?, hentries]
  exact rel_of_mapM hf hvalues name

def child? (d : δ) (name : String) : Option δ := named? d "components" name

theorem rel_components {d : δ} {path : Path} {m : NameMap Component}
    (h : components d path = .ok m) (name : String) :
    Option.Rel (fun node c => ∃ path, component node path = .ok c) (child? d name)
      (m.get? name) := by
  unfold child? named?
  cases hpart : present? d "components" with
  | none =>
    rw [components_of_absent hpart] at h
    cases h
    exact .none
  | some part =>
    rw [components_of_present hpart] at h
    refine rel_of_mapping (R := fun _ node c => ∃ path, component node path = .ok c) ?_ h name
    intro e v hv
    obtain ⟨c, hc, hpure⟩ := bind_eq_ok_iff.mp hv
    cases hpure
    exact ⟨rfl, _, hc⟩

/-- The node is a string, and the value is read from it. -/
def ReadFrom (read : String → Except Fault α) (node : δ) (a : α) : Prop :=
  ∃ text, string? node = some text ∧ read text = .ok a

theorem readFrom_unique {read : String → Except Fault α} (node : δ) (a a' : α)
    (h : ReadFrom read node a) (h' : ReadFrom read node a') : a = a' := by
  obtain ⟨text, htext, ha⟩ := h
  obtain ⟨text', htext', ha'⟩ := h'
  obtain rfl := Option.some.inj (htext.symm.trans htext')
  exact Except.ok.inj (ha.symm.trans ha')

theorem rel_pins {read : String → Except Fault α} {d : δ} {path : Path} {m : NameMap α}
    (h : pins read d path = .ok m) (name : String) :
    Option.Rel (ReadFrom read) (last? d name) (m.get? name) := by
  rw [pins] at h
  split at h
  · rename_i hnull
    cases h
    rw [last?_of_isNull hnull]
    exact .none
  · refine rel_of_mapping (R := fun _ => ReadFrom read) ?_ h name
    intro e v hv
    obtain ⟨text, htext, hrest⟩ := bind_eq_ok_iff.mp hv
    obtain ⟨pin, hpin, hpure⟩ := bind_eq_ok_iff.mp hrest
    cases hpure
    exact ⟨rfl, text, expect_eq_ok_iff.mp htext, hpin⟩

theorem rel_interfaces {read : String → Except Fault α} {make : NameMap α → β} {d : δ}
    {path : Path} {m : NameMap β} (h : interfaces read make d path = .ok m) (name : String) :
    Option.Rel (fun node i => ∃ path ps, pins read node path = .ok ps ∧ i = make ps)
      (named? d "interfaces" name) (m.get? name) := by
  rw [interfaces] at h
  rw [named?]
  cases hpart : present? d "interfaces" with
  | none =>
    rw [hpart] at h
    cases h
    exact .none
  | some part =>
    rw [hpart] at h
    refine rel_of_mapping (R := fun _ node i => ∃ path ps, pins read node path = .ok ps ∧
      i = make ps) ?_ h name
    intro e v hv
    obtain ⟨ps, hps, hpure⟩ := bind_eq_ok_iff.mp hv
    cases hpure
    exact ⟨rfl, _, ps, hps, rfl⟩

theorem binding_eq_ok_iff {d : δ} {path : Path} {b : Binding} :
    binding d path = .ok b ↔ ∃ left right text text', items? d = some [left, right] ∧
      string? left = some text ∧ string? right = some text' ∧
      BindingTarget.ofText text = .ok b.left ∧ BindingTarget.ofText text' = .ok b.right := by
  unfold binding Binding.ofTexts
  split
  · rename_i left right hitems
    simp only [bind_eq_ok_iff, pure_eq_ok_iff, expect_eq_ok_iff, hitems]
    constructor
    · rintro ⟨text, htext, text', htext', l, hl, r, hr, rfl⟩
      exact ⟨left, right, text, text', rfl, htext, htext', hl, hr⟩
    · rintro ⟨_, _, text, text', ⟨⟩, htext, htext', hl, hr⟩
      exact ⟨text, htext, text', htext', _, hl, _, hr, rfl⟩
  · rename_i hitems
    refine iff_of_false nofun ?_
    rintro ⟨left, right, _, _, hpair, -⟩
    exact hitems left right hpair

/-- The nodes of the bindings, none if there is no such section. -/
def bindingNodes? (d : δ) : Option (List δ) :=
  match present? d "bindings" with
  | none => some []
  | some part => items? part

theorem bindings_forall₂ {d : δ} {path : Path} {bs : List Binding} (h : bindings d path = .ok bs) :
    ∃ items, bindingNodes? d = some items ∧
      List.Forall₂ (fun item b => ∃ path, binding item path = .ok b) items bs := by
  rw [bindings] at h
  rw [bindingNodes?]
  cases hpart : present? d "bindings" with
  | none =>
    rw [hpart] at h
    cases h
    exact ⟨[], rfl, .nil⟩
  | some part =>
    rw [hpart] at h
    obtain ⟨items, hexpect, h⟩ := bind_eq_ok_iff.mp h
    have hitems : items? part = some items := expect_eq_ok_iff.mp hexpect
    have hpairs := mapM_eq_ok_iff.mp h
    refine ⟨items, hitems, ?_⟩
    rw [← List.zipIdx_map_fst 0 items, List.forall₂_map_left_iff]
    exact hpairs.imp fun _ _ hb => ⟨_, hb⟩

theorem get?_foldl_requireInterface (names : List String) (is : NameMap LeafInterface)
    (name : String) :
    (names.foldl requireInterface is).get? name =
      if name ∈ names then some { (is.get? name).getD {} with required := true }
      else is.get? name := by
  induction names generalizing is with
  | nil => rfl
  | cons required names ih =>
    rw [List.foldl_cons, ih, requireInterface, SortedEntries.get?_insert]
    by_cases hname : name = required
    · subst hname
      simp
    · simp [hname]

theorem leaf_eq_ok_iff {d : δ} {path : Path} {l : Leaf} :
    leaf d path = .ok l ↔
      (∃ type, typeName? d path = .ok type ∧ type.getD {} = l.type) ∧
      configuration d path = .ok l.configuration ∧
      ∃ is, interfaces Pin.ofSpec (fun pins => { pins }) d path = .ok is ∧
      ∃ names, requiredNames d path = .ok names ∧
        names.foldl requireInterface is = l.interfaces := by
  rw [leaf]
  simp only [bind_eq_ok_iff, pure_eq_ok_iff]
  constructor
  · rintro ⟨type, htype, configuration, hconfiguration, is, his, names, hnames, rfl⟩
    exact ⟨⟨type, htype, rfl⟩, hconfiguration, is, his, names, hnames, rfl⟩
  · rintro ⟨⟨type, htype, htype'⟩, hconfiguration, is, his, names, hnames, his'⟩
    exact ⟨type, htype, _, hconfiguration, is, his, names, hnames, by rw [htype', his']⟩

theorem composite_eq_ok_iff {d : δ} {path : Path} {c : Composite} :
    composite d path = .ok c ↔
      IsMapping d ∧
      (∃ type, typeName? d path = .ok type ∧ type.getD .composite = c.type) ∧
      configuration d path = .ok c.configuration ∧
      components d path = .ok c.components ∧
      interfaces PinBinding.ofText (fun pins => { pins }) d path = .ok c.interfaces ∧
      bindings d path = .ok c.bindings := by
  rw [composite]
  simp only [bind_eq_ok_iff, pure_eq_ok_iff, expect_eq_ok_iff]
  constructor
  · rintro ⟨entries, hentries, type, htype, _, hconfiguration, _, hcomponents, _, hinterfaces, _,
      hbindings, rfl⟩
    exact ⟨⟨entries, hentries⟩, ⟨type, htype, rfl⟩, hconfiguration, hcomponents, hinterfaces,
      hbindings⟩
  · rintro ⟨⟨entries, hentries⟩, ⟨type, htype, htype'⟩, hconfiguration, hcomponents, hinterfaces,
      hbindings⟩
    refine ⟨entries, hentries, type, htype, _, hconfiguration, _, hcomponents, _, hinterfaces, _,
      hbindings, ?_⟩
    cases c
    rw [htype']

theorem component_cases {d : δ} {path : Path} {c : Component} (h : component d path = .ok c) :
    (∃ g, composite d path = .ok g ∧ c = .composite g ∧ (present? d "components").isSome = true) ∨
    (∃ l, (isNull d = true ∧ l = {} ∨ leaf d path = .ok l) ∧ c = .leaf l ∧
      present? d "components" = none) := by
  rw [component] at h
  split at h
  · rename_i hnull
    cases h
    exact .inr ⟨{}, .inl ⟨hnull, rfl⟩, rfl, present?_of_isNull hnull _⟩
  · obtain ⟨entries, -, h⟩ := bind_eq_ok_iff.mp h
    split at h
    · rename_i hpresent
      obtain ⟨g, hg, hpure⟩ := bind_eq_ok_iff.mp h
      cases hpure
      exact .inl ⟨g, hg, rfl, hpresent⟩
    · rename_i hpresent
      obtain ⟨l, hl, hpure⟩ := bind_eq_ok_iff.mp h
      cases hpure
      exact .inr ⟨l, .inr hl, rfl, by simpa using hpresent⟩

theorem component_eq_map {d : δ} (hpart : (present? d "components").isSome = true) (path : Path) :
    component d path = (composite d path).map .composite := by
  obtain ⟨part, hpresent⟩ := Option.isSome_iff_exists.mp hpart
  have hmapping : IsMapping d := isMapping_of_get? (Option.filter_eq_some_iff.mp hpresent).1
  rw [component, if_neg (isNull_of_isMapping hmapping)]
  obtain ⟨entries, hentries⟩ := hmapping
  have hexpect : expectMapping d path = .ok entries := expect_eq_ok_iff.mpr hentries
  rw [hexpect, if_pos hpart]
  rfl

theorem component_of_composite {d : δ} {path : Path} {c : Composite}
    (hpart : (present? d "components").isSome = true) (h : composite d path = .ok c) :
    component d path = .ok (.composite c) := by
  rw [component_eq_map hpart, h]
  rfl

theorem component_of_leaf {d : δ} {path : Path} {l : Leaf} (hmapping : IsMapping d)
    (hpart : present? d "components" = none) (h : leaf d path = .ok l) :
    component d path = .ok (.leaf l) := by
  rw [component, if_neg (isNull_of_isMapping hmapping)]
  obtain ⟨entries, hentries⟩ := hmapping
  refine bind_eq_ok_iff.mpr ⟨entries, expect_eq_ok_iff.mpr hentries, ?_⟩
  rw [hpart, h]
  rfl

theorem decode_cases {d : δ} {app : Application} (h : decode d = .ok app) :
    app = .empty ∧ present? d "application" = none ∨
    ∃ node g, present? d "application" = some node ∧
      composite node (Path.root.key "application") = .ok g ∧
      app = ⟨{ g with type := .composite }⟩ := by
  rw [decode] at h
  split at h
  · rename_i hnull
    cases h
    exact .inl ⟨rfl, present?_of_isNull hnull _⟩
  · obtain ⟨entries, -, h⟩ := bind_eq_ok_iff.mp h
    cases hnode : present? d "application" with
    | none =>
      rw [hnode] at h
      cases h
      exact .inl ⟨rfl, rfl⟩
    | some node =>
      rw [hnode] at h
      obtain ⟨g, hg, hpure⟩ := bind_eq_ok_iff.mp h
      cases hpure
      exact .inr ⟨node, g, rfl, hg, rfl⟩

theorem decode_eq_map {d node : δ} (hpart : present? d "application" = some node) :
    decode d = (composite node (Path.root.key "application")).map fun g =>
      ⟨{ g with type := .composite }⟩ := by
  have hmapping : IsMapping d := isMapping_of_get? (Option.filter_eq_some_iff.mp hpart).1
  rw [decode, if_neg (isNull_of_isMapping hmapping)]
  obtain ⟨entries, hentries⟩ := hmapping
  have hexpect : expectMapping d .root = .ok entries := expect_eq_ok_iff.mpr hentries
  rw [hexpect, hpart]
  rfl

theorem decode_of_present {d node : δ} {g : Composite}
    (hpart : present? d "application" = some node)
    (h : composite node (Path.root.key "application") = .ok g) :
    decode d = .ok ⟨{ g with type := .composite }⟩ := by
  rw [decode_eq_map hpart, h]
  rfl

end Manifest

end ComponentGraph
