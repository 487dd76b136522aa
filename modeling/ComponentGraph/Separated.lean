/-!
# Texts cut at a character

`pieces sep` cuts a text at every occurrence of `sep`, and `cut? sep` only at the first one.
Joining the pieces with `sep` gives the text back.
-/

set_option autoImplicit false

namespace ComponentGraph.Separated

/-- The texts between the separators: one more than there are separators. -/
def pieces (sep : Char) : List Char → List (List Char)
  | [] => [[]]
  | c :: text =>
    if c = sep then [] :: pieces sep text
    else
      match pieces sep text with
      | [] => [[c]]
      | piece :: more => (c :: piece) :: more

/-- The texts before and after the first separator. -/
def cut? (sep : Char) : List Char → Option (List Char × List Char)
  | [] => none
  | c :: text =>
    if c = sep then some ([], text)
    else (cut? sep text).map fun (before, after) => (c :: before, after)

theorem pieces_ne_nil (sep : Char) (text : List Char) : pieces sep text ≠ [] := by
  cases text with
  | nil => simp [pieces]
  | cons c text =>
    rw [pieces]
    split
    · simp
    · split <;> simp

theorem eq_of_cut? {sep : Char} {text before after : List Char}
    (h : cut? sep text = some (before, after)) :
    text = before ++ sep :: after ∧ sep ∉ before := by
  induction text generalizing before with
  | nil => cases h
  | cons c text ih =>
    rw [cut?] at h
    split at h
    · rename_i hc
      cases h
      exact ⟨by rw [hc, List.nil_append], List.not_mem_nil⟩
    · rename_i hc
      obtain ⟨⟨before', after'⟩, hcut, heq⟩ := Option.map_eq_some_iff.mp h
      cases heq
      obtain ⟨htext, hsep⟩ := ih hcut
      refine ⟨by rw [htext, List.cons_append], ?_⟩
      rw [List.mem_cons]
      rintro (he | he)
      · exact hc he.symm
      · exact hsep he

end ComponentGraph.Separated
