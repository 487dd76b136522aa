import ComponentGraph.Proofs.Manifest.Path
import ComponentGraph.Proofs.Manifest.Site
import ComponentGraph.Yaml.Tree

/-!
# The first offence

A decoder that fails reports the fault of the first site in its list whose demand is not met, and
it fails only if there is one. There is one rule for each way in which decoders are put together,
and one lemma for each decoder.
-/

set_option autoImplicit false

namespace ComponentGraph

namespace Manifest

open Document

variable {δ α β : Type} [Document δ]

/-- The fault is that of the first site that has one, and there is no fault if none has. -/
def Reports (r : Except Fault α) (l : List (Site δ)) : Prop := failure? r = l.findSome? Site.fault?

namespace Reports

variable {x : Except Fault α} {l l' : List (Site δ)}

theorem ok (a : α) : Reports (δ := δ) (.ok a) [] := rfl

theorem map (h : Reports x l) (f : α → β) : Reports (x.map f) l := by
  rw [Reports, ← h]
  cases x <;> rfl

/-- The sites of the rest count when the first part succeeds. -/
theorem bind {f : α → Except Fault β} (h : Reports x l)
    (hf : ∀ a, x = .ok a → Reports (f a) l') : Reports (x >>= f) (l ++ l') := by
  rw [Reports, List.findSome?_append, ← h]
  cases x with
  | ok a => exact hf a rfl
  | error e => rfl

theorem cons {s : Site δ} {f : α → Except Fault β} (h : Reports x [s])
    (hf : ∀ a, x = .ok a → Reports (f a) l) : Reports (x >>= f) (s :: l) := h.bind hf

theorem bind_pure (h : Reports x l) (f : α → β) : Reports (x >>= fun a => pure (f a)) l := by
  rw [← l.append_nil]
  exact h.bind fun a _ => ok (f a)

theorem mapM {items : List α} {f : α → Except Fault β} {g : α → List (Site δ)}
    (h : ∀ a ∈ items, Reports (f a) (g a)) : Reports (items.mapM f) (items.flatMap g) := by
  induction items with
  | nil => exact ok []
  | cons a items ih =>
    obtain ⟨ha, hitems⟩ := List.forall_mem_cons.mp h
    rw [List.mapM_cons, List.flatMap_cons]
    exact ha.bind fun b _ => (ih hitems).bind_pure _

/-- One site, which has the fault of the computation. -/
theorem single {s : Site δ} (h : failure? x = s.fault?) : Reports x [s] := by
  rw [Reports, h, List.findSome?_cons]
  cases s.fault? <;> rfl

end Reports

section Forms

theorem kind_eq_iff_isSome_entries? {d : δ} : kind d = .mapping ↔ (entries? d).isSome = true := by
  rw [kind, entries?]
  cases shape d <;> simp

theorem kind_eq_iff_isSome_items? {d : δ} : kind d = .sequence ↔ (items? d).isSome = true := by
  rw [kind, items?]
  cases shape d <;> simp

theorem kind_eq_iff_isSome_string? {d : δ} : kind d = .string ↔ (string? d).isSome = true := by
  rw [kind, string?]
  cases shape d <;> simp

theorem reports_expect {form : δ → Option α} {expected : Kind} {d : δ}
    (h : kind d = expected ↔ (form d).isSome = true) (path : Path) :
    Reports (expect form expected d path) [⟨d, path, .kind expected⟩] := by
  apply Reports.single
  rw [expect, Site.fault?_kind]
  cases hform : form d with
  | some a =>
    rw [hform] at h
    exact (if_pos (h.mpr rfl)).symm
  | none =>
    rw [hform] at h
    exact (if_neg (mt h.mp Bool.false_ne_true)).symm

theorem reports_expectMapping (d : δ) (path : Path) :
    Reports (expectMapping d path) [⟨d, path, .kind .mapping⟩] :=
  reports_expect kind_eq_iff_isSome_entries? path

theorem reports_expectSequence (d : δ) (path : Path) :
    Reports (expectSequence d path) [⟨d, path, .kind .sequence⟩] :=
  reports_expect kind_eq_iff_isSome_items? path

theorem reports_expectString (d : δ) (path : Path) :
    Reports (expectString d path) [⟨d, path, .kind .string⟩] :=
  reports_expect kind_eq_iff_isSome_string? path

/-- A text is read without an error just when the demand on its node is met. -/
def Reads (read : String → Except Fault α) (demand : Demand) : Prop :=
  ∀ (d : δ) path, Site.fault? ⟨d, path, demand⟩ = (string? d).bind fun text => failure? (read text)

theorem Reads.reports {read : String → Except Fault α} {demand : Demand}
    (h : Reads (δ := δ) read demand) {d : δ} {text : String} (htext : string? d = some text)
    (path : Path) : Reports (read text) [⟨d, path, demand⟩] := by
  apply Reports.single
  rw [h, htext, Option.bind_some]

theorem reads_pinSpec : Reads (δ := δ) Pin.ofSpec .pinSpec := fun _ _ => rfl

theorem reads_pinBinding : Reads (δ := δ) PinBinding.ofText .pinBinding := fun _ _ => rfl

theorem reads_target : Reads (δ := δ) BindingTarget.ofText .target := fun _ _ => rfl

end Forms

section Parts

theorem reports_members {d : δ} {path : Path} {f : String × δ → Except Fault β}
    {inner : δ → Path → List (Site δ)}
    (h : ∀ e ∈ members d, Reports (f e) (inner e.2 (path.key e.1))) (make : List β → α) :
    Reports (do
      let entries ← expectMapping d path
      let values ← entries.mapM f
      return make values) (⟨d, path, .kind .mapping⟩ :: memberSites inner d path) := by
  refine (reports_expectMapping d path).cons fun entries hentries => ?_
  rw [members_eq (expect_eq_ok_iff.mp hentries)] at h
  rw [memberSites, members_eq (expect_eq_ok_iff.mp hentries)]
  exact (Reports.mapM h).bind_pure make

theorem reports_typeName? (d : δ) (path : Path) :
    Reports (typeName? d path) (typeSites d path) := by
  rw [typeName?, typeSites, sectionSites]
  cases present? d "type" with
  | none => exact .ok none
  | some type => exact (reports_expectString type _).map _

theorem reports_configuration (d : δ) (path : Path) :
    Reports (configuration d path) (configurationSites d path) := by
  rw [configuration, configurationSites, sectionSites]
  cases present? d "configuration" with
  | none => exact .ok ∅
  | some values => exact (reports_expectMapping values _).map _

theorem reports_requiredNames (d : δ) (path : Path) :
    Reports (requiredNames d path) (requiredSites d path) := by
  rw [requiredNames, requiredSites, sectionSites]
  cases present? d "required" with
  | none => exact .ok []
  | some names => exact (reports_expectSequence names _).map _

theorem reports_pins {read : String → Except Fault α} {text : Demand}
    (h : Reads (δ := δ) read text) (d : δ) (path : Path) :
    Reports (pins read d path) (interfaceSites text d path) := by
  rw [pins, interfaceSites]
  split
  · exact .ok ∅
  · have hpin (e : String × δ) : Reports (do
        let text ← expectString e.2 (path.key e.1)
        let pin ← read text
        return (e.1, pin)) (pinSites text e.2 (path.key e.1)) := by
      refine (reports_expectString e.2 _).cons fun spec hspec => ?_
      exact (h.reports (expect_eq_ok_iff.mp hspec) _).bind_pure _
    exact reports_members (fun e _ => hpin e) _

theorem reports_interfaces {read : String → Except Fault α} {text : Demand}
    (h : Reads (δ := δ) read text) (make : NameMap α → β) (d : δ) (path : Path) :
    Reports (interfaces read make d path) (interfacesSites text d path) := by
  rw [interfaces, interfacesSites, sectionSites]
  cases present? d "interfaces" with
  | none => exact .ok ∅
  | some part => exact reports_members (fun e _ => (reports_pins h e.2 _).bind_pure _) _

theorem reports_binding (d : δ) (path : Path) : Reports (binding d path) (bindingSites d path) := by
  rw [binding, bindingSites]
  split
  · rename_i left right hitems
    have hpair : Site.fault? ⟨d, path, .pair⟩ = none := by
      rw [Site.fault?_pair, hitems]
      rfl
    rw [elements_eq hitems, Reports, List.findSome?_cons, hpair]
    refine (reports_expectString left _).cons fun text htext => ?_
    refine (reports_expectString right _).cons fun text' htext' => ?_
    refine (reads_target.reports (expect_eq_ok_iff.mp htext) _).cons fun _ _ => ?_
    exact (reads_target.reports (expect_eq_ok_iff.mp htext') _).bind_pure _
  · rename_i hitems
    have hnoPair : (items? d).map List.length ≠ some 2 := by
      intro hlength
      obtain ⟨items, hsome, htwo⟩ := Option.map_eq_some_iff.mp hlength
      obtain ⟨left, right, rfl⟩ := List.length_eq_two.mp htwo
      exact hitems left right hsome
    have hfault : Site.fault? ⟨d, path, .pair⟩ = some ⟨.notAPair (describe d), none⟩ :=
      if_neg hnoPair
    rw [Reports, List.findSome?_cons, hfault]
    rfl

theorem reports_bindings (d : δ) (path : Path) :
    Reports (bindings d path) (bindingsSites d path) := by
  rw [bindings, bindingsSites, sectionSites]
  cases present? d "bindings" with
  | none => exact .ok []
  | some part =>
    refine (reports_expectSequence part _).cons fun items hitems => ?_
    rw [elementSites, elements_eq (expect_eq_ok_iff.mp hitems)]
    exact .mapM fun item _ => reports_binding item.1 _

theorem reports_leaf (d : δ) (path : Path) : Reports (leaf d path) (leafSites d path) := by
  rw [leaf, leafSites, List.append_assoc, List.append_assoc]
  refine (reports_typeName? d path).bind fun _ _ => ?_
  refine (reports_configuration d path).bind fun _ _ => ?_
  refine (reports_interfaces reads_pinSpec _ d path).bind fun _ _ => ?_
  exact (reports_requiredNames d path).bind_pure _

end Parts

mutual

theorem reports_component (d : δ) (path : Path) :
    Reports (component d path) (componentSites d path) := by
  rw [component, componentSites]
  split
  · exact .ok _
  split
  · -- The node of a composite is asked to be a mapping twice, and a mapping it is.
    rename_i hpart
    obtain ⟨part, hpart⟩ := Option.isSome_iff_exists.mp hpart
    obtain ⟨entries, hentries, -⟩ := entries?_of_mem_members (mem_members_of_present? hpart)
    have hmapping : expectMapping d path = .ok entries := expect_eq_ok_iff.mpr hentries
    rw [hmapping]
    exact (reports_composite d path).bind_pure _
  · refine (reports_expectMapping d path).cons fun _ _ => ?_
    exact (reports_leaf d path).bind_pure _
termination_by 2 * size d + 2

theorem reports_composite (d : δ) (path : Path) :
    Reports (composite d path) (compositeSites d path) := by
  rw [composite, compositeSites]
  simp only [List.append_assoc]
  refine (reports_expectMapping d path).cons fun _ _ => ?_
  refine (reports_typeName? d path).bind fun _ _ => ?_
  refine (reports_configuration d path).bind fun _ _ => ?_
  refine (reports_components d path).bind fun _ _ => ?_
  refine (reports_interfaces reads_pinBinding _ d path).bind fun _ _ => ?_
  exact (reports_bindings d path).bind_pure _
termination_by 2 * size d + 1

theorem reports_components (d : δ) (path : Path) :
    Reports (components d path) (componentsSites d path) := by
  rw [componentsSites_eq, sectionSites]
  cases hpart : present? d "components" with
  | none =>
    rw [components_of_absent hpart]
    exact .ok ∅
  | some part =>
    have hsize := size_of_present? hpart
    rw [components_of_present hpart]
    refine reports_members (fun e he => ?_) _
    have := size_of_members e he
    exact (reports_component e.2 _).bind_pure _
termination_by 2 * size d

end

theorem reports_decode (d : δ) : Reports (decode d) (sites d) := by
  rw [decode, sites]
  split
  · exact .ok _
  · refine (reports_expectMapping d _).cons fun _ _ => ?_
    cases present? d "application" with
    | none => exact .ok _
    | some application => exact (reports_composite application _).bind_pure _

theorem not_isShapeError_of_text {read : String → Except Fault α} {d : δ} {f : Fault}
    (hread : ∀ text e, read text = .error e → ¬ e.IsShapeError)
    (h : ((string? d).bind fun text => failure? (read text)) = some f) : ¬ f.IsShapeError := by
  obtain ⟨text, -, hfailure⟩ := Option.bind_eq_some_iff.mp h
  exact hread text f (failure?_eq_some_iff.mp hfailure)

theorem Site.shapeError {s : Site δ} {f : Fault} (h : s.fault? = some f) {expected found : Kind}
    {path : Path} (hcause : f.cause = .wrongKind expected path found) :
    s.demand = .kind expected ∧ f.position = none ∧ path = s.path ∧ found = kind s.node ∧
      found ≠ expected := by
  have hshape : f.IsShapeError := ⟨expected, path, found, hcause⟩
  obtain ⟨node, sitePath, demand⟩ := s
  cases demand with
  | kind expected' =>
    rw [fault?_kind] at h
    split at h
    · cases h
    · rename_i hkind
      cases h
      cases hcause
      exact ⟨rfl, rfl, rfl, rfl, hkind⟩
  | pair =>
    rw [fault?_pair] at h
    split at h
    · cases h
    · cases h
      cases hcause
  | pinSpec =>
    exact absurd hshape (not_isShapeError_of_text (fun _ _ => Pin.not_isShapeError_of_ofSpec) h)
  | pinBinding =>
    exact absurd hshape
      (not_isShapeError_of_text (fun _ _ => PinBinding.not_isShapeError_of_ofText) h)
  | target =>
    exact absurd hshape
      (not_isShapeError_of_text (fun _ _ => BindingTarget.not_isShapeError_of_ofText) h)

/-- The site offends and no site before it does. -/
structure FirstOffence (d : δ) (s : Site δ) (f : Fault) : Prop where
  first : ∃ before after, sites d = before ++ s :: after ∧ ∀ s' ∈ before, s'.fault? = none
  fault : s.fault? = some f

/-- A document fails to decode with the fault of its first offending site. The path of the site
leads to its node; an error of shape spells it, and tells the kind of the node, whose word is
another than that of the expected kind. -/
theorem decode_eq_error_iff (d : δ) (f : Fault) :
    decode d = .error f ↔ ∃ s, FirstOffence d s f ∧ Leads d s.path s.node ∧
      ∀ expected path found, f.cause = .wrongKind expected path found →
        s.demand = .kind expected ∧ f.position = none ∧
          (shape s.node).OfKind found ∧ found = kind s.node ∧ found ≠ expected ∧
          ∃ spelling word word', s.path.Spells spelling ∧ expected.Named word ∧
            found.Named word' ∧ word' ≠ word ∧
            f.message = "Expected " ++ word ++ " for " ++ spelling ++ ", got " ++ word' := by
  rw [← failure?_eq_some_iff, reports_decode d, List.findSome?_eq_some_iff]
  constructor
  · rintro ⟨before, s, after, hsites, hfault, hbefore⟩
    obtain ⟨hleads, hspells⟩ := leads_of_mem_sites (s := s) (hsites ▸ List.mem_append_cons_self)
    refine ⟨s, ⟨⟨before, after, hsites, hbefore⟩, hfault⟩, hleads, ?_⟩
    intro expected path found hcause
    obtain ⟨hdemand, hposition, rfl, rfl, hne⟩ := Site.shapeError hfault hcause
    refine ⟨hdemand, hposition, ofKind_kind s.node, rfl, hne, s.path.spell, expected.word,
      (kind s.node).word, hspells, Kind.named_iff.mpr rfl, Kind.named_iff.mpr rfl,
      mt Kind.word_injective hne, ?_⟩
    rw [Fault.message, hcause]
    rfl
  · rintro ⟨s, ⟨⟨before, after, hsites, hbefore⟩, hfault⟩, -⟩
    exact ⟨before, s, after, hsites, hfault, hbefore⟩

/-- Four sites offend. The component comes before the bindings, and its type before the rest. -/
example :
    (failure? (decode (Yaml.Tree.mapping [(.string "application", .mapping [
      (.string "bindings", .bool true),
      (.string "components", .mapping [(.string "pump", .mapping [
        (.string "required", .bool true), (.string "interfaces", .string "out"),
        (.string "type", .sequence [])])])])]))).map Fault.message =
      some "Expected string for application.components.pump.type, got sequence" := by
  decide +kernel

end Manifest

end ComponentGraph
