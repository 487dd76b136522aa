import ComponentGraph.Proofs.Json.Tree
import ComponentGraph.Proofs.Manifest.WellFormed
import ComponentGraph.Proofs.Yaml.Rearranged
import Mathlib.Data.List.Permutation

/-!
# Decoding does not depend on the order of entries

The decoders give the same for a tree and for a rearrangement of it, except that the fault can be
another one when decoding fails, for entries are decoded in their order. There is one lemma for
each decoder, with equal results where it finds nothing rearranged.
-/

set_option autoImplicit false

namespace ComponentGraph

namespace Manifest

open Document SortedEntries Yaml
open Yaml.Tree (Rearranged Role)

section Entries

variable {α β γ : Type}

theorem exists_mapM_of_perm {step : String × β → Except Fault (String × γ)}
    (hname : ∀ e v, step e = .ok v → v.1 = e.1) {entries entries' : List (String × β)}
    (h : entries.Perm entries') (hnodup : (entries.map Prod.fst).Nodup)
    {values : List (String × γ)} (hvalues : entries.mapM step = .ok values) :
    ∃ values', entries'.mapM step = .ok values' ∧ ofList values' = ofList values := by
  have hsteps := mapM_eq_ok_iff.mp hvalues
  have hnames : values.map Prod.fst = entries.map Prod.fst :=
    map_fst_eq_of_forall₂ (R := fun _ _ _ => True)
      (hsteps.imp fun e v hv => ⟨hname e v hv, trivial⟩)
  obtain ⟨values', hsteps', hperm⟩ := List.perm_comp_forall₂ h.symm hsteps
  exact ⟨values', mapM_eq_ok_iff.mpr hsteps', (ofList_perm hperm.symm (hnames ▸ hnodup)).symm⟩

/-- What is made of the entries one by one makes the same map in every order. -/
theorem toOption_ofList_mapM {R : String → α → β → Prop} {entries : List (String × α)}
    {entries' : List (String × β)} (h : Corresponds R entries entries')
    {step : String × α → Except Fault (String × γ)}
    {step' : String × β → Except Fault (String × γ)}
    (hname : ∀ e v, step' e = .ok v → v.1 = e.1)
    (hstep : ∀ e ∈ entries, ∀ v, R e.1 e.2 v → (step e).toOption = (step' (e.1, v)).toOption) :
    ((entries.mapM step).map ofList).toOption = ((entries'.mapM step').map ofList).toOption := by
  have hnodup' := h.nodup_right
  obtain ⟨hnodup, between, hbetween, hperm⟩ := h
  -- First the values change in place, which the steps allow, and then only the order.
  have hbetween' : (entries.mapM step).toOption = (between.mapM step').toOption := by
    refine toOption_mapM (((List.forall₂_and_left _ _).mpr ⟨fun e he => he, hbetween⟩).imp ?_)
    rintro e ⟨name, v⟩ ⟨he, hv, hR⟩
    cases hv
    exact hstep e he v hR
  have hnodup'' : (between.map Prod.fst).Nodup := by rwa [map_fst_eq_of_forall₂ hbetween]
  rw [toOption_map, hbetween', ← toOption_map]
  apply Option.ext
  intro m
  simp only [toOption_eq_some_iff, map_eq_ok_iff]
  constructor
  · rintro ⟨values, hvalues, rfl⟩
    exact exists_mapM_of_perm hname hperm hnodup'' hvalues
  · rintro ⟨values, hvalues, rfl⟩
    exact exists_mapM_of_perm hname hperm.symm hnodup' hvalues

end Entries

variable {α β : Type} {d d' : Tree}

section Parts

theorem expectMapping_eq_ok {entries : List (String × Tree)} (h : entries? d = some entries)
    (path : Path) : expectMapping d path = .ok entries := expect_eq_ok_iff.mpr h

theorem expectMapping_rearranged {role : Option Role} (h : Rearranged role d d') (path : Path)
    {x y : Except Fault α} (hrest : x.toOption = y.toOption) :
    (expectMapping d path >>= fun _ => x).toOption =
      (expectMapping d' path >>= fun _ => y).toOption := by
  rw [toOption_bind, toOption_bind, hrest]
  rcases h.eq_or_named with rfl | ⟨_, -, _, _, hentries, hentries', -⟩
  · rfl
  · rw [expectMapping_eq_ok hentries, expectMapping_eq_ok hentries']
    rfl

/-- What is done for each entry may depend on its node as far as the role of its name allows. -/
theorem mapping_rearranged {role : Role} (h : Rearranged (some role) d d') (path : Path)
    {step : String × Tree → Except Fault (String × α)}
    (hname : ∀ e v, step e = .ok v → v.1 = e.1)
    (hstep : ∀ entries, entries? d = some entries → ∀ e ∈ entries, ∀ t,
      Rearranged (role.inner? e.1) e.2 t → (step e).toOption = (step (e.1, t)).toOption) :
    (do
      let entries ← expectMapping d path
      let values ← entries.mapM step
      return ofList values).toOption = (do
      let entries ← expectMapping d' path
      let values ← entries.mapM step
      return ofList values).toOption := by
  rcases h.eq_or_named with rfl | ⟨_, ⟨⟩, entries, entries', hentries, hentries', hrel⟩
  · rfl
  · rw [expectMapping_eq_ok hentries, expectMapping_eq_ok hentries']
    exact toOption_ofList_mapM hrel hname (hstep entries hentries)

theorem typeName?_rearranged (h : Rearranged (some .component) d d') (path : Path) :
    typeName? d path = typeName? d' path := by
  rw [typeName?, typeName?, h.present?_eq rfl]

theorem requiredNames_rearranged (h : Rearranged (some .component) d d') (path : Path) :
    requiredNames d path = requiredNames d' path := by
  rw [requiredNames, requiredNames, h.present?_eq rfl]

theorem bindings_rearranged (h : Rearranged (some .component) d d') (path : Path) :
    bindings d path = bindings d' path := by
  rw [bindings, bindings, h.present?_eq rfl]

theorem configuration_rearranged (h : Rearranged (some .component) d d') (path : Path) :
    (configuration d path).toOption = (configuration d' path).toOption := by
  have hrel := h.rel_present? "configuration"
  rw [configuration, configuration]
  generalize present? d "configuration" = v, present? d' "configuration" = v' at hrel
  cases hrel with
  | none => rfl
  | @some values values' hvalues =>
    -- Copying a value is a step that cannot fail.
    let step : String × Tree → Except Fault (String × ConfigValue) := fun e => pure (e.1, copy e.2)
    have hname : ∀ e v, step e = .ok v → v.1 = e.1 := by
      rintro e _ ⟨⟩
      rfl
    have hsteps := mapping_rearranged hvalues (path.key "configuration") hname
      fun _ _ e _ t ht => by rw [← ht.eq]
    simp only [step, List.mapM_pure] at hsteps
    exact hsteps

theorem pins_rearranged (read : String → Except Fault α) (h : Rearranged (some .values) d d')
    (path : Path) : (pins read d path).toOption = (pins read d' path).toOption := by
  rw [pins, pins, h.isNull_eq]
  split
  · rfl
  · refine mapping_rearranged h path ?_ ?_
    · intro e v hv
      obtain ⟨text, -, hrest⟩ := bind_eq_ok_iff.mp hv
      obtain ⟨pin, -, hpure⟩ := bind_eq_ok_iff.mp hrest
      cases hpure
      rfl
    · intro _ _ e _ t ht
      rw [ht.eq]

theorem interfaces_rearranged (read : String → Except Fault α) (make : NameMap α → β)
    (h : Rearranged (some .component) d d') (path : Path) :
    (interfaces read make d path).toOption = (interfaces read make d' path).toOption := by
  have hrel := h.rel_present? "interfaces"
  rw [interfaces, interfaces]
  generalize present? d "interfaces" = v, present? d' "interfaces" = v' at hrel
  cases hrel with
  | none => rfl
  | @some part part' hpart =>
    refine mapping_rearranged hpart _ ?_ ?_
    · intro e v hv
      obtain ⟨ps, -, hpure⟩ := bind_eq_ok_iff.mp hv
      cases hpure
      rfl
    · intro _ _ e _ t ht
      rw [toOption_bind, toOption_bind, pins_rearranged read ht]

theorem leaf_rearranged (h : Rearranged (some .component) d d') (path : Path) :
    (leaf d path).toOption = (leaf d' path).toOption := by
  rw [leaf, leaf, typeName?_rearranged h, requiredNames_rearranged h]
  simp only [toOption_bind, configuration_rearranged h, interfaces_rearranged _ _ h]

end Parts

mutual

theorem component_rearranged {d d' : Tree} (h : Rearranged (some .component) d d') (path : Path) :
    (component d path).toOption = (component d' path).toOption := by
  have hcomponents : (present? d "components").isSome = (present? d' "components").isSome := by
    have hrel := h.rel_present? "components"
    generalize present? d "components" = v, present? d' "components" = v' at hrel
    cases hrel <;> rfl
  rw [component, component, h.isNull_eq, hcomponents]
  split
  · rfl
  refine expectMapping_rearranged h path ?_
  split
  · rw [toOption_bind, toOption_bind, composite_rearranged h]
  · rw [toOption_bind, toOption_bind, leaf_rearranged h]
termination_by 2 * size d + 2

theorem composite_rearranged {d d' : Tree} (h : Rearranged (some .component) d d') (path : Path) :
    (composite d path).toOption = (composite d' path).toOption := by
  rw [composite, composite, typeName?_rearranged h, bindings_rearranged h]
  refine expectMapping_rearranged h path ?_
  simp only [toOption_bind, configuration_rearranged h, components_rearranged h,
    interfaces_rearranged _ _ h]
termination_by 2 * size d + 1

theorem components_rearranged {d d' : Tree} (h : Rearranged (some .component) d d')
    (path : Path) : (components d path).toOption = (components d' path).toOption := by
  have hrel := h.rel_present? "components"
  generalize hpart : present? d "components" = v, hpart' : present? d' "components" = v' at hrel
  cases hrel with
  | none => rw [components_of_absent hpart, components_of_absent hpart']
  | some hchildren =>
    have hsize := size_of_present? hpart
    rw [components_of_present hpart, components_of_present hpart']
    refine mapping_rearranged hchildren _ ?_ ?_
    · intro e v hv
      obtain ⟨c, -, hpure⟩ := bind_eq_ok_iff.mp hv
      cases hpure
      rfl
    · intro entries hentries e he t ht
      have := size_of_entries? hentries e he
      rw [toOption_bind, toOption_bind, component_rearranged ht]
termination_by 2 * size d

end

theorem toOption_decode_rearranged (h : Rearranged (some .document) d d') :
    (decode d).toOption = (decode d').toOption := by
  have hrel := h.rel_present? "application"
  rw [decode, decode, h.isNull_eq]
  split
  · rfl
  refine expectMapping_rearranged h _ ?_
  generalize present? d "application" = v, present? d' "application" = v' at hrel
  cases hrel with
  | none => rfl
  | some happlication =>
    dsimp only
    rw [toOption_bind, toOption_bind, composite_rearranged happlication]

/-- The members of a JSON value are sorted; it means the same as a tree in another order. -/
theorem decode_json_rearranged {v : Json.Value} (h : Rearranged (some .document) d v.tree)
    (app : Application) : decode d = .ok app ↔ decode v = .ok app := by
  rw [← decode_mirror Json.Value.mirrors_tree v, ← toOption_eq_some_iff, ← toOption_eq_some_iff,
    toOption_decode_rearranged h]

/-- The order of entries makes no difference to what is decoded, or to whether decoding
succeeds. -/
theorem decode_rearranged (h : Rearranged (some .document) d d') (app : Application) :
    decode d = .ok app ↔ decode d' = .ok app := by
  rw [← toOption_eq_some_iff, ← toOption_eq_some_iff, toOption_decode_rearranged h]

/-- A pump and a tank. Entries come in the order that is asked for, except within a configured
value. -/
def station (order : List (Tree × Tree) → List (Tree × Tree)) : Tree :=
  .mapping (order [(.string "version", .null),
    (.tagged "main" (.string "application"), .tagged "plant" (.mapping (order [(.bool true, .null),
      (.string "components", .mapping (order [(.string "pump", .null),
        (.string "tank", .mapping (order [(.string "type", .string "Tank"),
          (.string "configuration", .mapping (order [(.string "alarm", .bool true),
            (.string "limits", .mapping [(.string "min", .null), (.string "max", .bool false)])])),
          (.string "interfaces", .mapping (order [(.string "out", .null),
            (.string "in", .mapping (order [(.string "stop", .string "receive-command(now)"),
              (.string "fill", .string "receive-command(now)")]))]))]))])),
      (.string "bindings", .sequence [.sequence [.string "pump", .string "tank#in"]])])))])

def stationTank : Leaf where
  type := ⟨"Tank"⟩
  configuration := .ofList [("alarm", .bool true),
    ("limits", .mapping [(.string "min", .null), (.string "max", .bool false)])]
  interfaces := .ofList [("out", {}), ("in", ⟨.ofList [("stop", ⟨.receives, .emptyCommand⟩),
    ("fill", ⟨.receives, .emptyCommand⟩)], false⟩)]

theorem decode_rearranged_station :
    Rearranged (some .document) (station id) (station List.reverse) ∧
      ∃ app, decode (station List.reverse) = .ok app ∧
        app.find? ⟨["tank"]⟩ = some (.leaf stationTank) := by
  have hreverse : ∀ role (entries between : List (Tree × Tree)),
      ((Tree.named entries).map Prod.fst).Nodup → Tree.RearrangedEntries role entries between →
        Rearranged (some role) (.mapping (id entries)) (.mapping between.reverse) :=
    fun _ _ between hnodup h => .mapping hnodup h between.reverse_perm.symm
  have hrearranged : Rearranged (some .document) (station id) (station List.reverse) := by
    refine hreverse .document _ _ (by decide) (.cons (.same _) (.cons (.tagged ?_) .nil))
    refine hreverse .component _ _ (by decide) (.cons (.same _) (.cons ?_ (.cons (.same _) .nil)))
    refine hreverse .components _ _ (by decide) (.cons (.same _) (.cons ?_ .nil))
    refine hreverse .component _ _ (by decide) (.cons (.same _) (.cons ?_ (.cons ?_ .nil)))
    · exact hreverse .values _ _ (by decide) (.cons (.same _) (.cons (.same _) .nil))
    · refine hreverse .interfaces _ _ (by decide) (.cons (.same _) (.cons ?_ .nil))
      exact hreverse .values _ _ (by decide) (.cons (.same _) (.cons (.same _) .nil))
  have hdecode : decode (station id) = .ok ⟨{ (∅ : Composite) with
      components := .ofList [("pump", .leaf {}), ("tank", .leaf stationTank)]
      bindings := [⟨⟨⟨["pump"]⟩, none⟩, ⟨⟨["tank"]⟩, some "in"⟩⟩] }⟩ := by cbv
  exact ⟨hrearranged, _, (decode_rearranged hrearranged _).mp hdecode, rfl⟩

end Manifest

end ComponentGraph
