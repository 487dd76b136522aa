import ComponentGraph.Separated

/-!
# Cutting and joining

Joining undoes cutting at every separator. Cutting undoes joining when there is something to join
and no separator in it.
-/

set_option autoImplicit false

namespace ComponentGraph.Separated

variable {sep : Char}

theorem pieces_cons_of_ne {c : Char} (h : c ≠ sep) (text : List Char) :
    ∃ piece more, pieces sep text = piece :: more ∧
      pieces sep (c :: text) = (c :: piece) :: more := by
  cases hpieces : pieces sep text with
  | nil => exact absurd hpieces (pieces_ne_nil sep text)
  | cons piece more =>
    refine ⟨piece, more, rfl, ?_⟩
    rw [pieces, if_neg h, hpieces]

theorem intercalate_pieces (text : List Char) : [sep].intercalate (pieces sep text) = text := by
  induction text with
  | nil => rfl
  | cons c text ih =>
    by_cases h : c = sep
    · subst h
      cases hpieces : pieces c text with
      | nil => exact absurd hpieces (pieces_ne_nil c text)
      | cons piece more =>
        rw [hpieces] at ih
        rw [pieces, if_pos rfl, hpieces, List.intercalate_cons_cons, ih]
        rfl
    · obtain ⟨piece, more, hpieces, hcons⟩ := pieces_cons_of_ne h text
      rw [hpieces] at ih
      rw [hcons]
      cases more with
      | nil =>
        rw [List.intercalate_singleton] at ih ⊢
        rw [ih]
      | cons next more =>
        rw [List.intercalate_cons_cons] at ih ⊢
        rw [← ih]
        rfl

theorem length_pieces (sep : Char) (text : List Char) :
    (pieces sep text).length = text.count sep + 1 := by
  induction text with
  | nil => rfl
  | cons c text ih =>
    by_cases h : c = sep
    · rw [pieces, if_pos h, List.length_cons, ih, h, List.count_cons_self]
    · obtain ⟨piece, more, hpieces, hcons⟩ := pieces_cons_of_ne h text
      rw [hpieces, List.length_cons] at ih
      rw [hcons, List.length_cons, ih, List.count_cons_of_ne h]

theorem subset_of_mem_pieces {text piece : List Char} (h : piece ∈ pieces sep text) :
    piece ⊆ text := by
  obtain ⟨i, hi, rfl⟩ := List.mem_iff_getElem.mp h
  have hmem : (pieces sep text)[i] ∈ (pieces sep text).intersperse [sep] := by
    rw [List.getElem_eq_getElem_intersperse_two_mul hi]
    exact List.getElem_mem _
  have hsubset := (List.sublist_flatten_of_mem hmem).subset
  rwa [← List.intercalate, intercalate_pieces] at hsubset

theorem not_mem_of_mem_pieces {text piece : List Char} (h : piece ∈ pieces sep text) :
    sep ∉ piece := by
  induction text generalizing piece with
  | nil =>
    rw [pieces, List.mem_singleton] at h
    rw [h]
    exact List.not_mem_nil
  | cons c text ih =>
    by_cases hc : c = sep
    · rw [pieces, if_pos hc, List.mem_cons] at h
      rcases h with rfl | h
      · exact List.not_mem_nil
      · exact ih h
    · obtain ⟨first, more, hpieces, hcons⟩ := pieces_cons_of_ne hc text
      rw [hpieces] at ih
      rw [hcons, List.mem_cons] at h
      rcases h with rfl | h
      · rw [List.mem_cons, not_or]
        exact ⟨Ne.symm hc, ih List.mem_cons_self⟩
      · exact ih (List.mem_cons_of_mem _ h)

theorem not_mem_intercalate {c : Char} {joint : List Char} {parts : List (List Char)}
    (hjoint : c ∉ joint) (h : ∀ p ∈ parts, c ∉ p) : c ∉ joint.intercalate parts := by
  induction parts with
  | nil => exact List.not_mem_nil
  | cons p parts ih =>
    obtain ⟨hp, hparts⟩ := List.forall_mem_cons.mp h
    cases parts with
    | nil => rwa [List.intercalate_singleton]
    | cons q parts =>
      rw [List.intercalate_cons_cons, List.mem_append, List.mem_append]
      rintro ((hc | hc) | hc)
      · exact hp hc
      · exact hjoint hc
      · exact ih hparts hc

theorem pieces_append (text : List Char) {piece : List Char} (h : sep ∉ piece) :
    pieces sep (piece ++ sep :: text) = piece :: pieces sep text := by
  induction piece with
  | nil => rw [List.nil_append, pieces, if_pos rfl]
  | cons c piece ih =>
    have hc := List.ne_of_not_mem_cons h
    have hpiece := List.not_mem_of_not_mem_cons h
    rw [List.cons_append, pieces, if_neg (Ne.symm hc), ih hpiece]

theorem pieces_of_not_mem {text : List Char} (h : sep ∉ text) : pieces sep text = [text] := by
  induction text with
  | nil => rfl
  | cons c text ih =>
    have hc := List.ne_of_not_mem_cons h
    have htext := List.not_mem_of_not_mem_cons h
    rw [pieces, if_neg (Ne.symm hc), ih htext]

theorem pieces_intercalate {parts : List (List Char)} (hne : parts ≠ [])
    (h : ∀ p ∈ parts, sep ∉ p) : pieces sep ([sep].intercalate parts) = parts := by
  induction parts with
  | nil => exact absurd rfl hne
  | cons p parts ih =>
    obtain ⟨hp, hparts⟩ := List.forall_mem_cons.mp h
    cases parts with
    | nil => rw [List.intercalate_singleton, pieces_of_not_mem hp]
    | cons q parts =>
      have hrest := ih (List.cons_ne_nil _ _) hparts
      rw [List.intercalate_cons_cons, List.append_assoc, List.singleton_append,
        pieces_append _ hp, hrest]

theorem cut?_append (after : List Char) {before : List Char} (h : sep ∉ before) :
    cut? sep (before ++ sep :: after) = some (before, after) := by
  induction before with
  | nil => rw [List.nil_append, cut?, if_pos rfl]
  | cons c before ih =>
    have hc := List.ne_of_not_mem_cons h
    have hbefore := List.not_mem_of_not_mem_cons h
    rw [List.cons_append, cut?, if_neg (Ne.symm hc), ih hbefore]
    rfl

end ComponentGraph.Separated
