import ComponentGraph.Proofs.DataType.Rendering
import Mathlib.Algebra.GroupWithZero.Nat

/-!
# Texts identify types

No expression of a type is a proper beginning of another one, and none is an expression of two
types. So types with proper field names share a text only if they are equal, at any depth; with
other names this can fail. The length of a text depends on the type alone, whatever the names are.
-/

set_option autoImplicit false

namespace ComponentGraph.DataType

open Lexeme

theorem DerivesFields.append_ne_close {ls rest rest' : List Lexeme}
    {fields : List (String × DataType)} (h : DerivesFields ls fields) :
    ls ++ rest ≠ mark '>' :: rest' := by
  cases h with
  | last htype =>
    obtain ⟨w, more, rfl⟩ := htype.head
    simp
  | more htype =>
    obtain ⟨w, more, rfl⟩ := htype.head
    simp

-- Both recursions are on the first derivation, and the second one is taken apart beside it.
mutual

/-- Whatever stands behind an expression, it can be told where it ends and which type it is. -/
theorem Derives.unambiguous {ls ls' rest rest' : List Lexeme} {a b : DataType} (h : Derives ls a)
    (h' : Derives ls' b) (heq : ls ++ rest = ls' ++ rest') : a = b ∧ rest = rest' := by
  match h with
  | .string =>
    cases h' with
    | string => exact ⟨rfl, (List.cons.inj heq).2⟩
    | _ => simp [word] at heq
  | .int =>
    cases h' with
    | int => exact ⟨rfl, (List.cons.inj heq).2⟩
    | _ => simp [word] at heq
  | .bool =>
    cases h' with
    | bool => exact ⟨rfl, (List.cons.inj heq).2⟩
    | _ => simp [word] at heq
  | .list helement =>
    cases h' with
    | list helement' =>
      simp only [List.cons_append, List.append_assoc, List.cons.injEq, true_and] at heq
      obtain ⟨rfl, hclose⟩ := helement.unambiguous helement' heq
      exact ⟨rfl, (List.cons.inj hclose).2⟩
    | _ => simp [word] at heq
  | .map hkey hvalue =>
    cases h' with
    | map hkey' hvalue' =>
      simp only [List.cons_append, List.append_assoc, List.cons.injEq, true_and] at heq
      obtain ⟨rfl, hcomma⟩ := hkey.unambiguous hkey' heq
      obtain ⟨rfl, hclose⟩ := hvalue.unambiguous hvalue' (List.cons.inj hcomma).2
      exact ⟨rfl, (List.cons.inj hclose).2⟩
    | _ => simp [word] at heq
  | .emptyRecord =>
    cases h' with
    | emptyRecord => exact ⟨rfl, by simpa using heq⟩
    | record hfields' _ =>
      simp only [List.cons_append, List.nil_append, List.append_assoc, List.cons.injEq,
        true_and] at heq
      exact absurd heq.symm hfields'.append_ne_close
    | _ => simp [word] at heq
  | .record hfields _ =>
    cases h' with
    | emptyRecord =>
      simp only [List.cons_append, List.nil_append, List.append_assoc, List.cons.injEq,
        true_and] at heq
      exact absurd heq hfields.append_ne_close
    | record hfields' _ =>
      simp only [List.cons_append, List.append_assoc, List.cons.injEq, true_and] at heq
      obtain ⟨rfl, hrest⟩ := hfields.unambiguous hfields' heq
      exact ⟨rfl, hrest⟩
    | _ => simp [word] at heq

theorem DerivesFields.unambiguous {ls ls' rest rest' : List Lexeme}
    {fields fields' : List (String × DataType)} (h : DerivesFields ls fields)
    (h' : DerivesFields ls' fields')
    (heq : ls ++ mark '>' :: rest = ls' ++ mark '>' :: rest') :
    fields = fields' ∧ rest = rest' := by
  -- One list of fields can be the beginning of another, but not with the closing mark behind it.
  match h with
  | .last htype =>
    cases h' with
    | last htype' =>
      simp only [List.append_assoc, List.cons_append, List.nil_append] at heq
      obtain ⟨rfl, hname⟩ := htype.unambiguous htype' heq
      simpa [word] using hname
    | more htype' =>
      simp only [List.append_assoc, List.cons_append, List.nil_append] at heq
      obtain ⟨rfl, hname⟩ := htype.unambiguous htype' heq
      simp at hname
  | .more htype hrest =>
    cases h' with
    | last htype' =>
      simp only [List.append_assoc, List.cons_append, List.nil_append] at heq
      obtain ⟨rfl, hname⟩ := htype.unambiguous htype' heq
      simp at hname
    | more htype' hrest' =>
      simp only [List.append_assoc, List.cons_append] at heq
      obtain ⟨rfl, hname⟩ := htype.unambiguous htype' heq
      simp only [List.cons.injEq, true_and] at hname
      obtain ⟨rfl, hrest⟩ := hrest.unambiguous hrest' hname.2
      exact ⟨by rw [word_injective hname.1], hrest⟩

end

theorem Derives.unique {ls : List Lexeme} {a b : DataType} (h : Derives ls a)
    (h' : Derives ls b) : a = b := (h.unambiguous h' (rfl : ls ++ [] = ls ++ [])).1

theorem Renders.eq_of_text {a b : DataType} {text : String} (h : Renders a text)
    (h' : Renders b text) (ha : a.NamesAreIdentifiers) (hb : b.NamesAreIdentifiers) : a = b :=
  (h.derives ha).unique (h'.derives hb)

theorem utf8ByteSize_intercalate (joint : String) (parts : List String) :
    (String.intercalate joint parts).utf8ByteSize =
      (parts.map String.utf8ByteSize).sum + (parts.length - 1) * joint.utf8ByteSize := by
  induction parts with
  | nil => simp
  | cons part parts ih =>
    cases parts with
    | nil => simp
    | cons next parts =>
      rw [String.intercalate_cons_cons, String.utf8ByteSize_append, String.utf8ByteSize_append, ih]
      simp only [List.map_cons, List.sum_cons, List.length_cons, Nat.add_sub_cancel, Nat.add_mul]
      omega

theorem utf8ByteSize_intercalate_of_perm {parts parts' : List String}
    (h : (parts.map String.utf8ByteSize).Perm (parts'.map String.utf8ByteSize)) (joint : String) :
    (String.intercalate joint parts).utf8ByteSize =
      (String.intercalate joint parts').utf8ByteSize := by
  have hlength : parts.length = parts'.length := by simpa using h.length_eq
  rw [utf8ByteSize_intercalate, utf8ByteSize_intercalate, h.sum_nat, hlength]

theorem renderFields_eq_map {low : Option String} (fields : SortedEntries DataType low) :
    render.renderFields fields = fields.toList.map fun f => f.2.render ++ " " ++ f.1 := by
  induction fields with
  | nil => rfl
  | cons name above type rest ih => rw [render.renderFields, ih]; rfl

mutual

theorem Renders.utf8ByteSize_eq {type : DataType} {text : String} (h : Renders type text) :
    text.utf8ByteSize = type.render.utf8ByteSize := by
  match h with
  | .string | .int | .bool => rfl
  | .list helement =>
    have hopen : TypeWord.list.text ++ "<" = "list<" := rfl
    rw [render, hopen]
    simp only [String.utf8ByteSize_append, helement.utf8ByteSize_eq]
  | .map hkey hvalue =>
    have hopen : TypeWord.map.text ++ "<" = "map<" := rfl
    rw [render, hopen]
    simp only [String.utf8ByteSize_append, hkey.utf8ByteSize_eq, hvalue.utf8ByteSize_eq]
  | @Renders.record fields order parts hperm hfields =>
    have hopen : TypeWord.record.text ++ "<" = "record<" := rfl
    have hparts : (parts.map String.utf8ByteSize).Perm
        ((render.renderFields fields).map String.utf8ByteSize) := by
      rw [hfields.map_utf8ByteSize_eq, renderFields_eq_map, List.map_map]
      exact hperm.map _
    rw [render, hopen]
    simp only [String.utf8ByteSize_append, utf8ByteSize_intercalate_of_perm hparts]

theorem RendersFields.map_utf8ByteSize_eq {order : List (String × DataType)} {parts : List String}
    (h : RendersFields order parts) :
    parts.map String.utf8ByteSize =
      order.map (String.utf8ByteSize ∘ fun f => f.2.render ++ " " ++ f.1) := by
  match h with
  | .nil => rfl
  | .cons htype hrest =>
    simp only [List.map_cons, Function.comp_apply, String.utf8ByteSize_append,
      htype.utf8ByteSize_eq, hrest.map_utf8ByteSize_eq]

end

/-- Types whose field names are identifiers share a text just when they are equal, however deep they
are. All texts of one type, among them the one that is rendered, have the same length in bytes,
whatever its names are. -/
theorem renders_common_text_iff :
    (∀ a b : DataType, a.NamesAreIdentifiers → b.NamesAreIdentifiers →
      ((∃ text, Renders a text ∧ Renders b text) ↔ a = b)) ∧
    (∀ (type : DataType) (text text' : String), Renders type text → Renders type text' →
      text.utf8ByteSize = text'.utf8ByteSize) ∧
    ∀ type : DataType, Renders type type.render := by
  refine ⟨fun a b ha hb => ⟨?_, ?_⟩, fun type text text' h h' => ?_, renders_render⟩
  · rintro ⟨text, h, h'⟩
    exact h.eq_of_text h' ha hb
  · rintro rfl
    exact ⟨a.render, renders_render a, renders_render a⟩
  · rw [h.utf8ByteSize_eq, h'.utf8ByteSize_eq]

/-- A name that is no identifier can hold the rest of a record. -/
example : (ofFields [("a, int b", .int)]).render =
    (ofFields [("a", .int), ("b", .int)]).render := by
  decide

end ComponentGraph.DataType
