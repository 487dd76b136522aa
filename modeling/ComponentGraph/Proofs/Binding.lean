import ComponentGraph.Binding
import ComponentGraph.Proofs.Separated

/-!
# The texts of bindings

What is read from a text has that text again. A component id, a target or a pin binding is read
back from its text when the separators occur in it as separators only. For targets this is the only
case, and the texts of targets are those with one `#` at most. Among the texts of pin bindings are
some with several, all but the first of them in the name of the interface.
-/

set_option autoImplicit false

namespace ComponentGraph

open Separated

namespace ComponentId

theorem toList_text (id : ComponentId) :
    id.text.toList = ['.'].intercalate (id.segments.map String.toList) :=
  String.toList_intercalate

theorem text_ofText (text : String) : (ofText text).text = text := by
  have hpieces : ((pieces '.' text.toList).map String.ofList).map String.toList =
      pieces '.' text.toList := by
    rw [List.map_map]
    exact List.map_id'' (fun _ => String.toList_ofList) _
  rw [← String.toList_inj, toList_text, ofText, hpieces, intercalate_pieces]

theorem segments_ofText_ne_nil (text : String) : (ofText text).segments ≠ [] := by
  simpa [ofText] using pieces_ne_nil '.' text.toList

theorem not_mem_of_mem_segments {text s : String} (h : s ∈ (ofText text).segments) :
    '.' ∉ s.toList := by
  obtain ⟨piece, hpiece, rfl⟩ := List.mem_map.mp h
  rw [String.toList_ofList]
  exact not_mem_of_mem_pieces hpiece

theorem subset_of_mem_segments {text s : String} (h : s ∈ (ofText text).segments) :
    s.toList ⊆ text.toList := by
  obtain ⟨piece, hpiece, rfl⟩ := List.mem_map.mp h
  rw [String.toList_ofList]
  exact subset_of_mem_pieces hpiece

theorem ofText_text {id : ComponentId} (hne : id.segments ≠ [])
    (h : ∀ s ∈ id.segments, '.' ∉ s.toList) : ofText id.text = id := by
  have hparts : ∀ p ∈ id.segments.map String.toList, '.' ∉ p := List.forall_mem_map.mpr h
  rw [ofText, toList_text, pieces_intercalate (by simpa using hne) hparts, List.map_map]
  congr 1
  exact List.map_id'' (fun _ => String.ofList_toList) _

theorem length_segments_ofText (text : String) :
    (ofText text).segments.length = text.toList.count '.' + 1 := by
  rw [ofText, List.length_map, length_pieces]

/-- A text is cut at all of its dots and at nothing else, and joining undoes that. Cutting undoes
joining just for the ids that a text can have. -/
theorem ofText_text_iff_dotless :
    (∀ text : String, (ofText text).segments.length = text.toList.count '.' + 1 ∧
      (∀ s ∈ (ofText text).segments, '.' ∉ s.toList) ∧ (ofText text).text = text) ∧
    ∀ id : ComponentId, ofText id.text = id ↔
      id.segments ≠ [] ∧ ∀ s ∈ id.segments, '.' ∉ s.toList := by
  refine ⟨fun text => ?_, fun id => ⟨fun h => ?_, ?_⟩⟩
  · exact ⟨length_segments_ofText text, fun _ => not_mem_of_mem_segments, text_ofText text⟩
  · rw [← h]
    exact ⟨segments_ofText_ne_nil id.text, fun _ => not_mem_of_mem_segments⟩
  · rintro ⟨hne, hdotless⟩
    exact ofText_text hne hdotless

/-- The empty id has the text of the id with one empty name. -/
example : ofText (text ⟨[]⟩) = ⟨[""]⟩ ∧ ofText (text ⟨["", "a#b", ""]⟩) = ⟨["", "a#b", ""]⟩ := by
  decide

theorem not_mem_text {c : Char} {id : ComponentId} (hc : c ≠ '.')
    (h : ∀ s ∈ id.segments, c ∉ s.toList) : c ∉ id.text.toList := by
  rw [toList_text]
  refine not_mem_intercalate (by simpa using hc) ?_
  exact List.forall_mem_map.mpr h

end ComponentId

namespace BindingTarget

theorem text_of_ofText {text : String} {t : BindingTarget} (h : ofText text = .ok t) :
    t.text = text := by
  have htext : ['#'].intercalate (pieces '#' text.toList) = text.toList := intercalate_pieces _
  unfold ofText at h
  split at h
  · rename_i component hpieces
    cases h
    rw [hpieces, List.intercalate_singleton] at htext
    rw [BindingTarget.text, ComponentId.text_ofText, htext, String.ofList_toList]
  · rename_i component interface hpieces
    cases h
    rw [hpieces, List.intercalate_cons_cons, List.intercalate_singleton] at htext
    rw [BindingTarget.text, ← String.toList_inj, ← htext]
    simp [ComponentId.text_ofText]
  · cases h

def Readable (t : BindingTarget) : Prop := ofText t.text = .ok t

theorem readable_of_ofText {text : String} {t : BindingTarget} (h : ofText text = .ok t) :
    t.Readable := by
  rw [Readable, text_of_ofText h, h]

/-- A target without separators in its parts, with a component that is not without segments. -/
structure Expressible (t : BindingTarget) : Prop where
  segments_ne_nil : t.component.segments ≠ []
  segments : ∀ s ∈ t.component.segments, '.' ∉ s.toList ∧ '#' ∉ s.toList
  interface : ∀ i ∈ t.interface, '#' ∉ i.toList

theorem Expressible.readable {t : BindingTarget} (h : t.Expressible) : t.Readable := by
  unfold Readable
  have hcomponent : ComponentId.ofText t.component.text = t.component :=
    ComponentId.ofText_text h.segments_ne_nil fun s hs => (h.segments s hs).1
  have hsep : '#' ∉ t.component.text.toList :=
    ComponentId.not_mem_text (by decide) fun s hs => (h.segments s hs).2
  obtain ⟨component, interface⟩ := t
  cases interface with
  | none =>
    rw [BindingTarget.text, ofText, pieces_of_not_mem hsep]
    simp [hcomponent]
  | some interface =>
    have htext : (component.text ++ "#" ++ interface).toList =
        component.text.toList ++ '#' :: interface.toList := by simp
    rw [BindingTarget.text, ofText, htext, pieces_append _ hsep,
      pieces_of_not_mem (h.interface interface rfl)]
    simp [hcomponent]

theorem expressible_of_component {component : List Char} (h : '#' ∉ component)
    {interface : Option String} (hi : ∀ i ∈ interface, '#' ∉ i.toList) :
    Expressible ⟨.ofText (.ofList component), interface⟩ where
  segments_ne_nil := ComponentId.segments_ofText_ne_nil _
  segments s hs := by
    refine ⟨ComponentId.not_mem_of_mem_segments hs, fun hmem => h ?_⟩
    have hsubset := ComponentId.subset_of_mem_segments hs
    rw [String.toList_ofList] at hsubset
    exact hsubset hmem
  interface := hi

theorem expressible_of_ofText {text : String} {t : BindingTarget} (h : ofText text = .ok t) :
    t.Expressible := by
  have hfree : ∀ piece ∈ pieces '#' text.toList, '#' ∉ piece := fun _ => not_mem_of_mem_pieces
  unfold ofText at h
  split at h
  · rename_i component hpieces
    cases h
    simp only [hpieces, List.forall_mem_cons] at hfree
    exact expressible_of_component hfree.1 nofun
  · rename_i component interface hpieces
    cases h
    simp only [hpieces, List.forall_mem_cons] at hfree
    refine expressible_of_component hfree.1 ?_
    rintro _ ⟨⟩
    rw [String.toList_ofList]
    exact hfree.2.1
  · cases h

theorem readable_iff_expressible {t : BindingTarget} : t.Readable ↔ t.Expressible :=
  ⟨expressible_of_ofText, Expressible.readable⟩

theorem ofText_eq_error_iff {text : String} :
    (∃ e, ofText text = .error e) ↔ 2 ≤ text.toList.count '#' := by
  have hlength := length_pieces '#' text.toList
  unfold ofText
  split
  · rename_i component hpieces
    rw [hpieces, List.length_singleton] at hlength
    exact iff_of_false nofun (by omega)
  · rename_i component interface hpieces
    rw [hpieces, List.length_cons, List.length_singleton] at hlength
    exact iff_of_false nofun (by omega)
  · rename_i hone htwo
    refine iff_of_true ⟨_, rfl⟩ ?_
    match hpieces : pieces '#' text.toList with
    | [] => exact absurd hpieces (pieces_ne_nil '#' text.toList)
    | [component] => exact absurd hpieces (hone component)
    | [component, interface] => exact absurd hpieces (htwo component interface)
    | _ :: _ :: _ :: more =>
      rw [hpieces] at hlength
      simp only [List.length_cons] at hlength
      omega

/-- Reading fails on texts with two marks or more, and of all others the text of what is read is
the text itself. A target is read back from its text exactly when no separator is hidden in it. -/
theorem ofText_text_inverse :
    (∀ text : String, ((∃ e, ofText text = .error e) ↔ 2 ≤ text.toList.count '#') ∧
      ∀ t, ofText text = .ok t → t.text = text) ∧
    ∀ t : BindingTarget, ofText t.text = .ok t ↔
      t.component.segments ≠ [] ∧
      (∀ s ∈ t.component.segments, '.' ∉ s.toList ∧ '#' ∉ s.toList) ∧
      ∀ i ∈ t.interface, '#' ∉ i.toList := by
  refine ⟨fun text => ⟨ofText_eq_error_iff, fun t => text_of_ofText⟩, fun t => ?_⟩
  have hiff : ofText t.text = .ok t ↔ t.Expressible := readable_iff_expressible
  rw [hiff]
  constructor
  · rintro ⟨hne, hsegments, hinterface⟩
    exact ⟨hne, hsegments, hinterface⟩
  · rintro ⟨hne, hsegments, hinterface⟩
    exact ⟨hne, hsegments, hinterface⟩

end BindingTarget

namespace PinBinding

/-- Names that are told apart in the text `component#interface.pin`, where the first `#` and the
first dot behind it are the separators. -/
structure Legible (p : PinBinding) : Prop where
  component : p.component ≠ "" ∧ '#' ∉ p.component.toList
  interface : p.interface ≠ "" ∧ '.' ∉ p.interface.toList
  pin : p.pin ≠ "" ∧ '.' ∉ p.pin.toList ∧ '#' ∉ p.pin.toList

theorem toList_text (p : PinBinding) :
    p.text.toList = p.component.toList ++ '#' :: (p.interface.toList ++ '.' :: p.pin.toList) := by
  simp [PinBinding.text]

theorem ofText_eq_ok_iff {text : String} {p : PinBinding} :
    ofText text = .ok p ↔ text = p.text ∧ p.Legible := by
  constructor
  · intro h
    unfold ofText at h
    split at h
    · cases h
    · rename_i component pinRef hcut
      split at h
      · cases h
      · rename_i interface pin hcut'
        split at h
        · cases h
        · rename_i hparts
          cases h
          obtain ⟨htext, hcomponent⟩ := eq_of_cut? hcut
          obtain ⟨hpinRef, hinterface⟩ := eq_of_cut? hcut'
          simp only [not_or] at hparts
          refine ⟨?_, ?_, ?_, ?_⟩
          · rw [← String.toList_inj, toList_text, htext, hpinRef]
            simp
          · simpa using ⟨hparts.1, hcomponent⟩
          · simpa using ⟨hparts.2.1, hinterface⟩
          · simpa using hparts.2.2
  · rintro ⟨rfl, h⟩
    have hparts : ¬ (p.component.toList = [] ∨ p.interface.toList = [] ∨ p.pin.toList = [] ∨
        '.' ∈ p.pin.toList ∨ '#' ∈ p.pin.toList) := by
      simpa using ⟨h.component.1, h.interface.1, h.pin.1, h.pin.2.1, h.pin.2.2⟩
    rw [ofText, toList_text, cut?_append _ h.component.2]
    simp only [cut?_append _ h.interface.2, if_neg hparts, String.ofList_toList]

theorem text_of_ofText {text : String} {p : PinBinding} (h : ofText text = .ok p) :
    p.text = text := (ofText_eq_ok_iff.mp h).1.symm

def Readable (p : PinBinding) : Prop := ofText p.text = .ok p

theorem readable_of_ofText {text : String} {p : PinBinding} (h : ofText text = .ok p) :
    p.Readable := by
  rw [Readable, text_of_ofText h, h]

theorem readable_iff_legible {p : PinBinding} : p.Readable ↔ p.Legible := by
  rw [Readable, ofText_eq_ok_iff]
  exact and_iff_right rfl

theorem Readable.eq_of_text {p q : PinBinding} (hp : p.Readable) (hq : q.Readable)
    (h : p.text = q.text) : p = q := by
  unfold Readable at hp hq
  rw [h, hq] at hp
  exact (Except.ok.inj hp).symm

/-- A text that is read is the text of what is read. A pin binding is read back from its text
exactly when no name is empty and no name holds a character that would be taken for a separator,
and no two pin bindings of this kind share a text. -/
theorem ofText_text_iff_legible :
    (∀ text p, ofText text = .ok p → p.text = text) ∧
    (∀ p : PinBinding, ofText p.text = .ok p ↔
      (p.component ≠ "" ∧ '#' ∉ p.component.toList) ∧
      (p.interface ≠ "" ∧ '.' ∉ p.interface.toList) ∧
      (p.pin ≠ "" ∧ '.' ∉ p.pin.toList ∧ '#' ∉ p.pin.toList)) ∧
    ∀ p q : PinBinding, p.Legible → q.Legible → p.text = q.text → p = q := by
  refine ⟨fun text p => text_of_ofText, fun p => ?_, fun p q hp hq h => ?_⟩
  · have hiff : ofText p.text = .ok p ↔ p.Legible := readable_iff_legible
    rw [hiff]
    constructor
    · rintro ⟨hcomponent, hinterface, hpin⟩
      exact ⟨hcomponent, hinterface, hpin⟩
    · rintro ⟨hcomponent, hinterface, hpin⟩
      exact ⟨hcomponent, hinterface, hpin⟩
  · exact (readable_iff_legible.mpr hp).eq_of_text (readable_iff_legible.mpr hq) h

structure Expressible (p : PinBinding) : Prop where
  component : p.component ≠ "" ∧ '#' ∉ p.component.toList
  interface : p.interface ≠ "" ∧ '.' ∉ p.interface.toList ∧ '#' ∉ p.interface.toList
  pin : p.pin ≠ "" ∧ '.' ∉ p.pin.toList ∧ '#' ∉ p.pin.toList

theorem Expressible.readable {p : PinBinding} (h : p.Expressible) : p.Readable := by
  refine readable_iff_legible.mpr ⟨h.component, ?_, h.pin⟩
  exact ⟨h.interface.1, h.interface.2.1⟩

/-- The form `component#interface.pin`, without an empty name and with no other dot in it. -/
structure HasForm (text component interface pin : String) : Prop where
  text_eq : text = component ++ "#" ++ (interface ++ "." ++ pin)
  component_ne : component ≠ ""
  dots : (interface ++ "." ++ pin).toList.count '.' = 1
  interface_ne : interface ≠ ""
  pin_ne : pin ≠ ""

theorem text_mk (component interface pin : String) :
    PinBinding.text ⟨component, interface, pin⟩ =
      component ++ "#" ++ (interface ++ "." ++ pin) := by
  simp only [PinBinding.text, String.append_assoc]

theorem HasForm.count_text {text component interface pin : String}
    (h : HasForm text component interface pin) :
    text.toList.count '#' = component.toList.count '#' + interface.toList.count '#' +
      pin.toList.count '#' + 1 := by
  have hmark : "#".toList.count '#' = 1 := rfl
  have hdot : ".".toList.count '#' = 0 := rfl
  rw [h.text_eq]
  simp only [String.toList_append, List.count_append, hmark, hdot]
  omega

theorem hasForm_iff {text component interface pin : String} :
    HasForm text component interface pin ∧ '#' ∉ component.toList ∧ '#' ∉ pin.toList ↔
      text = PinBinding.text ⟨component, interface, pin⟩ ∧ Legible ⟨component, interface, pin⟩ := by
  have hdots : (interface ++ "." ++ pin).toList.count '.' = 1 ↔
      '.' ∉ interface.toList ∧ '.' ∉ pin.toList := by
    have hdot : ".".toList.count '.' = 1 := rfl
    simp only [String.toList_append, List.count_append, hdot, ← List.count_eq_zero]
    omega
  rw [text_mk]
  constructor
  · rintro ⟨h, hcomponent, hpin⟩
    obtain ⟨hinterface, hpin'⟩ := hdots.mp h.dots
    exact ⟨h.text_eq, ⟨h.component_ne, hcomponent⟩, ⟨h.interface_ne, hinterface⟩, h.pin_ne, hpin',
      hpin⟩
  · rintro ⟨htext, ⟨hcomponent, hc⟩, ⟨hinterface, hi⟩, hpin, hp, hp'⟩
    exact ⟨⟨htext, hcomponent, hdots.mpr ⟨hi, hp⟩, hinterface, hpin⟩, hc, hp'⟩

theorem exists_ofText_iff {text : String} :
    (∃ p, ofText text = .ok p) ↔ ∃ component interface pin,
      HasForm text component interface pin ∧ '#' ∉ component.toList ∧ '#' ∉ pin.toList := by
  simp only [hasForm_iff, ofText_eq_ok_iff]
  constructor
  · rintro ⟨p, hp⟩
    exact ⟨p.component, p.interface, p.pin, hp⟩
  · rintro ⟨component, interface, pin, hp⟩
    exact ⟨_, hp⟩

/-- The texts that are read are those of the form `component#interface.pin` in which neither the
component nor the pin holds another `#`. It is left to the interface, and it is there whenever the
text has several of them. -/
theorem ofText_accepts (text : String) :
    ((∃ p, ofText text = .ok p) ↔ ∃ component interface pin,
      HasForm text component interface pin ∧ '#' ∉ component.toList ∧ '#' ∉ pin.toList) ∧
    (text.toList.count '#' ≤ 1 → ((∃ p, ofText text = .ok p) ↔ ∃ component interface pin,
      HasForm text component interface pin ∧ text.toList.count '#' = 1)) ∧
    ∀ p, ofText text = .ok p → '#' ∉ p.component.toList ∧ '#' ∉ p.pin.toList ∧
      ('#' ∈ p.interface.toList ↔ 2 ≤ text.toList.count '#') := by
  refine ⟨exists_ofText_iff, fun hcount => ?_, fun p hp => ?_⟩
  · rw [exists_ofText_iff]
    refine exists_congr fun component => exists_congr fun interface => exists_congr fun pin =>
      and_congr_right fun hform => ?_
    have htotal := hform.count_text
    rw [← List.count_eq_zero, ← List.count_eq_zero]
    omega
  · obtain ⟨hform, hcomponent, hpin⟩ := hasForm_iff.mpr (ofText_eq_ok_iff.mp hp)
    have htotal := hform.count_text
    rw [List.count_eq_zero.mpr hcomponent, List.count_eq_zero.mpr hpin] at htotal
    refine ⟨hcomponent, hpin, ?_⟩
    rw [← List.count_pos_iff]
    omega

/-- Two marks, the second of them in the name of the interface. -/
theorem ofText_accepts_twoMarks :
    ofText "a#b#c.d" = .ok ⟨"a", "b#c", "d"⟩ ∧
    ¬ ((∃ p, ofText "a#b#c.d" = .ok p) ↔ ∃ component interface pin,
      HasForm "a#b#c.d" component interface pin ∧ "a#b#c.d".toList.count '#' = 1) := by
  have hread : ofText "a#b#c.d" = .ok ⟨"a", "b#c", "d"⟩ := by rfl
  refine ⟨hread, fun h => ?_⟩
  obtain ⟨_, _, _, -, hcount⟩ := h.mp ⟨_, hread⟩
  exact absurd hcount (by decide)

end PinBinding

end ComponentGraph
